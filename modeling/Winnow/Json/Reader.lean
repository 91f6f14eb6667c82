import Winnow.Json.Token

/-!
# Reading JSON

A text is read word by word. What is open is a stack of frames, the innermost
first; a finished value goes into the innermost frame, or is the result.
-/
namespace Winnow.Json

/-- A list or record that is still open, its contents latest first. -/
inductive Frame
  | list (items : List Data)
  | record (fields : List (String × Data))
  /-- A record that waits for the value of the field `name`. -/
  | field (fields : List (String × Data)) (name : String)
deriving BEq, Repr

/-- What may come next. -/
inductive Stage
  | value
  | itemOrEnd
  | nameOrEnd
  | name
  | colon
  | separator
  | finished (d : Data)
deriving BEq, Repr

structure Reader where
  frames : List Frame
  stage : Stage
deriving BEq, Repr

namespace Reader

def start : Reader := ⟨[], .value⟩

/-- Puts a finished value where it belongs. -/
def complete (d : Data) : List Frame → Except SyntaxError Reader
  | [] => .ok ⟨[], .finished d⟩
  | .list items :: frames => .ok ⟨.list (d :: items) :: frames, .separator⟩
  | .field fields name :: frames => .ok ⟨.record ((name, d) :: fields) :: frames, .separator⟩
  | .record _ :: _ => .error .misplaced

def step (r : Reader) (t : Token) : Except SyntaxError Reader :=
  match r.stage, t, r.frames with
  | .finished _, _, _ => .error .trailing
  | .value, .value d, frames | .itemOrEnd, .value d, frames => complete d frames
  | .value, .text s, frames | .itemOrEnd, .text s, frames => complete (.string s) frames
  | .value, .openList, frames | .itemOrEnd, .openList, frames => .ok ⟨.list [] :: frames, .itemOrEnd⟩
  | .value, .openRecord, frames | .itemOrEnd, .openRecord, frames =>
    .ok ⟨.record [] :: frames, .nameOrEnd⟩
  | .itemOrEnd, .closeList, .list items :: frames
  | .separator, .closeList, .list items :: frames => complete (.list items.reverse) frames
  | .nameOrEnd, .closeRecord, .record fields :: frames
  | .separator, .closeRecord, .record fields :: frames => complete (.record fields.reverse) frames
  | .nameOrEnd, .text s, .record fields :: frames | .name, .text s, .record fields :: frames =>
    .ok ⟨.field fields s :: frames, .colon⟩
  | .colon, .colon, frames => .ok ⟨frames, .value⟩
  | .separator, .comma, .list items :: frames => .ok ⟨.list items :: frames, .value⟩
  | .separator, .comma, .record fields :: frames => .ok ⟨.record fields :: frames, .name⟩
  | _, _, _ => .error .misplaced

def result (r : Reader) : Except SyntaxError Data :=
  match r.stage with
  | .finished d => .ok d
  | _ => .error .unfinished

end Reader

/-- The value that a text spells. -/
def parse (text : String) : Except SyntaxError Data := do
  let tokens ← lex text.toList
  let reader ← tokens.foldlM Reader.step .start
  reader.result

/-- The value that the bytes of a file spell. -/
def parseBytes (bytes : ByteArray) : Except SyntaxError Data :=
  match String.fromUTF8? bytes with
  | some text => parse text
  | none => .error .notUtf8

end Winnow.Json
