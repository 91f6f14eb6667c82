import Winnow.FileSystem
import Winnow.Json.Reader
import Winnow.Unit.Check
import Winnow.Unit.Codec
import Winnow.Yaml.Reader

/-!
# Unit files
-/
namespace Winnow

/-- Hands back the unit stored at a path. -/
abbrev UnitSource := Path → Except UnitError CompiledUnit

namespace UnitFile

/-- The path looks like that of a unit file. -/
def hasUnitName (p : Path) : Bool :=
  let name := p.fileName.getD ""
  [".unit.json", ".unit.yaml", ".unit.yml"].any (Text.endsWith name)

/-- The data in a unit file, in the format that its ending names. -/
def parse (p : Path) (content : Except FileError ByteArray) : Except UnitError Data :=
  let unparsable (detail : String) : UnitError := .unparsable p detail
  let parsed {ε : Type} (message : ε → String) (read : ByteArray → Except ε Data) :
      Except UnitError Data :=
    match content with
    | .error e => .error (unparsable e.message)
    | .ok bytes => (read bytes).mapError fun e => unparsable (message e)
  match p.extension with
  | some "json" => parsed Json.SyntaxError.message Json.parseBytes
  | some "yaml" | some "yml" => parsed Yaml.SyntaxError.message Yaml.parseBytes
  | _ => .error (.unsupportedFormat p)

/-- Reads and checks the unit in a file. -/
def read (fs : FileSystem) : UnitSource := fun p => do
  match fs.entry p with
  | .error e => throw (.unreadable p e.message)
  | .ok _ =>
    let d ← parse p (fs.read p)
    match CompiledUnit.ofData d with
    | .error e => throw (.unparsable p e.message)
    | .ok u =>
      u.check
      return u

end UnitFile

end Winnow
