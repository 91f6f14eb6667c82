/-!
# SipHash

The keyed hash SipHash-1-3 with both halves of the key zero: one round for each
word of the input, three at the end.
-/
namespace Winnow.SipHash

structure State where
  v0 : UInt64
  v1 : UInt64
  v2 : UInt64
  v3 : UInt64
deriving DecidableEq, Repr

/-- The state before any input. -/
def State.start : State where
  v0 := 0x736f6d6570736575
  v1 := 0x646f72616e646f6d
  v2 := 0x6c7967656e657261
  v3 := 0x7465646279746573

def rotate (x n : UInt64) : UInt64 := (x <<< n) ||| (x >>> (64 - n))

def State.round (s : State) : State :=
  let v0 := s.v0 + s.v1
  let v1 := rotate s.v1 13 ^^^ v0
  let v0 := rotate v0 32
  let v2 := s.v2 + s.v3
  let v3 := rotate s.v3 16 ^^^ v2
  let v0 := v0 + v3
  let v3 := rotate v3 21 ^^^ v0
  let v2 := v2 + v1
  let v1 := rotate v1 17 ^^^ v2
  ⟨v0, v1, rotate v2 32, v3⟩

def State.absorb (s : State) (word : UInt64) : State :=
  let s := { s with v3 := s.v3 ^^^ word }.round
  { s with v0 := s.v0 ^^^ word }

/-- The word whose lowest byte is the first one. -/
def word (bytes : List UInt8) : UInt64 :=
  bytes.foldr (fun b w => (w <<< 8) ||| b.toUInt64) 0

/-- Absorbs all whole words; what is left over is shorter than one. -/
def absorbAll (s : State) : List UInt8 → State × List UInt8
  | a :: b :: c :: d :: e :: f :: g :: h :: l => absorbAll (s.absorb (word [a, b, c, d, e, f, g, h])) l
  | l => (s, l)

def hash (bytes : List UInt8) : UInt64 :=
  let (s, rest) := absorbAll .start bytes
  let s := s.absorb (word rest ||| (bytes.length.toUInt64 <<< 56))
  let s := { s with v2 := s.v2 ^^^ 0xff }.round.round.round
  s.v0 ^^^ s.v1 ^^^ s.v2 ^^^ s.v3

/-- The eight bytes of a word, the lowest first. -/
def wordBytes (n : UInt64) : List UInt8 :=
  (List.range 8).map fun i => (n >>> (8 * i).toUInt64).toUInt8

/-- The hash of some content, preceded by its length. -/
def hashContent (content : ByteArray) : UInt64 :=
  hash (wordBytes content.size.toUInt64 ++ content.toList)

/-- Sixteen hexadecimal digits. -/
def hex (n : UInt64) : String :=
  let digits := Nat.toDigits 16 n.toNat
  String.ofList (List.replicate (16 - digits.length) '0' ++ digits)

/-- The text by which contents are told apart. -/
def fingerprint (content : ByteArray) : String := hex (hashContent content)

end Winnow.SipHash
