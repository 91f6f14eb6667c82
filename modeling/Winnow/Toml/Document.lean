import Winnow.Toml.Value

/-!
# TOML documents

A document is a sequence of settings, in tables that headers name. A table may
be defined only once, whether by a header or by dotted keys.
-/
namespace Winnow.Toml

/-- How a table came to be. -/
inductive TableKind
  /-- By its own header. -/
  | defined
  /-- On the way to a table with a header. -/
  | implied
  /-- On the way of a dotted key. -/
  | dotted
deriving DecidableEq, Repr

/-- What a key stands for while a document is read. -/
inductive Item
  | value (d : Data)
  | table (kind : TableKind) (fields : List (String × Item))
  /-- A list of tables, the latest first. -/
  | tables (latest : List (String × Item)) (earlier : List (List (String × Item)))

/-- The fields of a table. -/
abbrev Table := List (String × Item)

mutual
def Item.toData : Item → Data
  | .value d => d
  | .table _ fields => .record (fieldsToData fields)
  | .tables latest earlier => .list (tablesToData earlier [.record (fieldsToData latest)])

def fieldsToData : List (String × Item) → List (String × Data)
  | [] => []
  | (name, item) :: fields => (name, item.toData) :: fieldsToData fields

/-- The tables in their order, in front of `later`. -/
def tablesToData : List (List (String × Item)) → List Data → List Data
  | [], later => later
  | fields :: earlier, later => tablesToData earlier (.record (fieldsToData fields) :: later)
end

def replaceItem (t : Table) (name : String) (item : Item) : Table :=
  t.map fun (n, i) => if n = name then (n, item) else (n, i)

/-- Changes the table that a header's path leads to; tables on the way are made. -/
def withinTable (change : Table → Except SyntaxError Table) :
    List String → Table → Except SyntaxError Table
  | [], t => change t
  | name :: path, t =>
    match t.lookup name with
    | none => do return t ++ [(name, .table .implied (← withinTable change path []))]
    | some (.table kind fields) => do
      return replaceItem t name (.table kind (← withinTable change path fields))
    | some (.tables latest earlier) => do
      return replaceItem t name (.tables (← withinTable change path latest) earlier)
    | some (.value _) => .error (.duplicateKey name)

/-- Begins the table `name`, which must not have been defined. -/
def defineTable (name : String) (t : Table) : Except SyntaxError Table :=
  match t.lookup name with
  | none => .ok (t ++ [(name, .table .defined [])])
  | some (.table .implied fields) => .ok (replaceItem t name (.table .defined fields))
  | some _ => .error (.duplicateKey name)

/-- Begins one more table of the list `name`. -/
def appendTable (name : String) (t : Table) : Except SyntaxError Table :=
  match t.lookup name with
  | none => .ok (t ++ [(name, .tables [] [])])
  | some (.tables latest earlier) => .ok (replaceItem t name (.tables [] (latest :: earlier)))
  | some _ => .error (.duplicateKey name)

/-- Puts a value under a dotted key; only tables made by dotted keys can be added to. -/
def setValue (d : Data) : List String → Table → Except SyntaxError Table
  | [], _ => .error .badKey
  | [name], t =>
    match t.lookup name with
    | none => .ok (t ++ [(name, .value d)])
    | some _ => .error (.duplicateKey name)
  | name :: path, t =>
    match t.lookup name with
    | none => do return t ++ [(name, .table .dotted (← setValue d path []))]
    | some (.table .dotted fields) => do
      return replaceItem t name (.table .dotted (← setValue d path fields))
    | some _ => .error (.duplicateKey name)

/-- The document so far, and the path of the table that settings go to. -/
structure Progress where
  root : Table := []
  path : List String := []

/-- A header: everything of its path but the last name leads to the table around. -/
def startTable (p : Progress) (path : List String)
    (start : String → Table → Except SyntaxError Table) : Except SyntaxError Progress :=
  match path.getLast? with
  | none => .error .badHeader
  | some name => do return ⟨← withinTable (start name) path.dropLast p.root, path⟩

def readSetting (p : Progress) (l : List Char) : Except SyntaxError (Before Progress) := do
  let (path, l) ← readKey (l.length + 1) l
  match l with
  | '=' :: l =>
    let (d, l) ← readValue (l.length + 1) (skipBlanks l)
    return (⟨← withinTable (setValue d path) p.path p.root, p.path⟩, l)
  | _ => throw .badKey

def readStatement (p : Progress) (l : List Char) : Except SyntaxError (Before Progress) :=
  match l with
  | '[' :: '[' :: l => do
    let (path, l) ← readKey (l.length + 1) l
    match l with
    | ']' :: ']' :: l => return (← startTable p path appendTable, l)
    | _ => throw .badHeader
  | '[' :: l => do
    let (path, l) ← readKey (l.length + 1) l
    match l with
    | ']' :: l => return (← startTable p path defineTable, l)
    | _ => throw .badHeader
  | l => readSetting p l

/-- Reads at most `n` statements; each ends its line. -/
def readStatements (p : Progress) : Nat → List Char → Except SyntaxError Progress
  | 0, _ => .error .badCharacter
  | n + 1, l => do
    match ← skipLines (l.length + 1) l with
    | [] => return p
    | l =>
      let (p, l) ← readStatement p l
      match ← skipComment (skipBlanks l) with
      | [] => return p
      | '\n' :: l | '\r' :: '\n' :: l => readStatements p n l
      | _ => throw .badCharacter

/-- The record that a text spells. -/
def parse (text : String) : Except SyntaxError Data := do
  let l := match text.toList with
    | '\ufeff' :: l => l
    | l => l
  let p ← readStatements {} (l.length + 1) l
  return .record (fieldsToData p.root)

def parseBytes (bytes : ByteArray) : Except SyntaxError Data :=
  match String.fromUTF8? bytes with
  | some text => parse text
  | none => .error .notUtf8

end Winnow.Toml
