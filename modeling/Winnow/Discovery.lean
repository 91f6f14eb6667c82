import Winnow.Config.Basic
import Winnow.Fingerprint
import Winnow.Unit.File

/-!
# Finding unit files
-/
namespace Winnow

/-- A name that begins with a dot. -/
def isHidden (name : String) : Bool := Text.startsWith name "."

namespace Config

/-- The output of a run is never its input. -/
def isOutput (c : Config) (p : Path) : Bool := c.output.any p.startsWith

def accepts (c : Config) (p : Path) : Bool :=
  UnitFile.hasUnitName p && !c.isOutput p && !c.excludes p

/-- The unit files below a directory; hidden files and directories in it are passed over. -/
def unitFilesIn (c : Config) (fs : FileSystem) (directory : Path) : List Path :=
  (((fs.filesBelow directory).filter fun names => !names.any isHidden).map directory.below).filter
    c.accepts

/-- Leaves out a path that is the same as the one before it. -/
def dropRepeated : List Path → List Path
  | p :: q :: l => if p.same q then dropRepeated (p :: l) else p :: dropRepeated (q :: l)
  | l => l

/-- The unit files in some directories, each once and in order. -/
def unitFiles (c : Config) (fs : FileSystem) (directories : List Path) : List Path :=
  dropRepeated (Path.sorted (directories.flatMap (c.unitFilesIn fs)))

def programFiles (c : Config) (fs : FileSystem) : List Path := c.unitFiles fs c.inputs

def libraryFiles (c : Config) (fs : FileSystem) : List Path := c.unitFiles fs c.libraries

/-- The directories whose files matter to a run. -/
def watchedDirectories (c : Config) : List Path :=
  dropRepeated (Path.sorted (c.inputs ++ c.libraries))

end Config

end Winnow
