import ScriptWorks.FileSystem.Disk

/-!
# Hosts

A disk with the working directory and the search path of a process, and the class of file systems
through which sources are read and scripts are written.
-/

namespace ScriptWorks

/-- What comes of making a directory for a while, and of writing a file in it. -/
inductive TempDir where
  /-- There is none, for a reason. -/
  | missing (reason : String)
  | unwritable (dir : Path) (cause : FileError)
  | ready (dir : Path)
deriving DecidableEq, Inhabited

/-- The surroundings of a process. -/
structure Host where
  disk : Disk := {}
  cwd : Location := []
  searchPath : List Path := []
  temp : TempDir := .ready ⟨"/tmp"⟩
deriving Inhabited

namespace Host

def isFile (h : Host) (p : Path) : Bool := h.disk.isFile h.cwd p

def isDir (h : Host) (p : Path) : Bool := h.disk.isDir h.cwd p

def pathExists (h : Host) (p : Path) : Bool := h.disk.pathExists h.cwd p

def readText (h : Host) (p : Path) : Except FileError String := h.disk.readText h.cwd p

/-- The absolute path of `p`, without links resolved; the empty path stays. -/
def absolute (h : Host) (p : Path) : Path := (p.absoluteFrom? h.cwd.path).getD p

/-- One path for all spellings of a file: where it really is if it exists, else the absolute path. -/
def key (h : Host) (p : Path) : Path :=
  match h.disk.node h.cwd p with
  | .ok (l, _) => l.path
  | .error _ => h.absolute p

end Host

/-- A state of the world `ω` with files in it. -/
class FileSystem (ω : Type) where
  host : ω → Host
  /-- Something is at the path. -/
  pathExists : ω → Path → Bool
  /-- A regular file is at the path. -/
  isFile : ω → Path → Bool
  readText : ω → Path → Except FileError String
  /-- Writes a text, making directories as needed. -/
  writeText : ω → Path → String → Except FileError Unit × ω

instance : FileSystem Host where
  host h := h
  pathExists := Host.pathExists
  isFile := Host.isFile
  readText := Host.readText
  writeText h p s :=
    let (r, disk) := h.disk.writeText h.cwd p s
    (r, { h with disk })

end ScriptWorks
