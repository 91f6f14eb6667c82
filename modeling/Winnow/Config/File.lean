import Winnow.Config.Basic
import Winnow.FileSystem
import Winnow.Toml.Document
import Winnow.Yaml.Reader

/-!
# Configuration files

The ending of its name tells the format of a configuration file; without a
known ending both formats are tried.
-/
namespace Winnow

inductive ConfigError
  | unreadable (path : Path)
  | badYaml
  | badToml
  | badFile
deriving DecidableEq, Repr

def ConfigError.message : ConfigError → String
  | .unreadable path => s!"Failed to read config file: {path.text}"
  | .badYaml => "Failed to parse YAML config"
  | .badToml => "Failed to parse TOML config"
  | .badFile => "Failed to parse config file"

namespace Config

def ofYaml? (text : String) : Option Config := do
  (ofData (← (Yaml.parse text).toOption)).toOption

def ofToml? (text : String) : Option Config := do
  (ofData (← (Toml.parse text).toOption)).toOption

/-- The configuration that a text spells, given the ending of its file. -/
def parse (extension : Option String) (text : String) : Except ConfigError Config :=
  match extension with
  | some "yml" | some "yaml" => (ofYaml? text).elim (.error .badYaml) .ok
  | some "toml" => (ofToml? text).elim (.error .badToml) .ok
  | _ => ((ofYaml? text).or (ofToml? text)).elim (.error .badFile) .ok

def load (fs : FileSystem) (path : Path) : Except ConfigError Config :=
  match (fs.read path).toOption.bind String.fromUTF8? with
  | none => .error (.unreadable path)
  | some text => parse path.extension text

/-- The names under which a configuration file is looked for, in order. -/
def defaultNames : List String :=
  [".shrinker.yml", ".shrinker.yaml", ".shrinker.toml", "shrinker.yml", "shrinker.yaml",
    "shrinker.toml"]

/-- The first configuration file that a project has, or the defaults. -/
def loadDefault (fs : FileSystem) (project : Path) : Except ConfigError Config :=
  match (defaultNames.map (project / ·)).find? fs.contains with
  | some path => load fs path
  | none => .ok {}

end Config

end Winnow
