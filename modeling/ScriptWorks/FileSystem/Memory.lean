import ScriptWorks.FileSystem.Host

/-!
# Files in memory

Files kept by path. Directories are what the paths of files begin with, and what is added as such.
-/

namespace ScriptWorks

/-- Files by path, in the order of paths. -/
structure Memory where
  files : List (Path × String) := []
  dirs : List Path := []
  /-- Below these paths nothing can be written. -/
  readOnly : List Path := []
deriving Inhabited

namespace Memory

/-- Stores a text at a path; a file that is there keeps the spelling of its path. -/
def insertFile (p : Path) (s : String) : List (Path × String) → List (Path × String)
  | [] => [(p, s)]
  | (q, t) :: rest =>
    if p.same q then (q, s) :: rest
    else if p.before q then (p, s) :: (q, t) :: rest
    else (q, t) :: insertFile p s rest

def insert (m : Memory) (p : Path) (s : String) : Memory := { m with files := insertFile p s m.files }

def addDir (m : Memory) (p : Path) : Memory := { m with dirs := m.dirs ++ [p] }

def denyWritesUnder (m : Memory) (p : Path) : Memory := { m with readOnly := m.readOnly ++ [p] }

def get? (m : Memory) (p : Path) : Option String := (m.files.find? (·.1.same p)).map (·.2)

def paths (m : Memory) : List Path := m.files.map (·.1)

def isFile (m : Memory) (p : Path) : Bool := (m.get? p).isSome

def pathExists (m : Memory) (p : Path) : Bool :=
  m.isFile p || m.dirs.any (·.startsWith p) || m.paths.any (·.startsWith p)

def readText (m : Memory) (p : Path) : Except FileError String :=
  match m.get? p with
  | some s => .ok s
  | none => .error (.notStored p)

def writeText (m : Memory) (p : Path) (s : String) : Except FileError Unit × Memory :=
  if m.readOnly.any (p.startsWith ·) then (.error (.readOnly p), m) else (.ok (), m.insert p s)

end Memory

end ScriptWorks
