import ScriptWorks.FileSystem.Error
import ScriptWorks.Path.Normalize
import ScriptWorks.Text.Utf8

/-!
# Disks

A disk is a table from locations to directories, files and symbolic links. Paths are looked up as an
operating system does: component by component, following links, with `..` taken on the disk.
-/

namespace ScriptWorks

/-- A place on a disk: the names from the root to it. -/
abbrev Location := List String

/-- How a program ends. -/
inductive ExitStatus where
  | code (n : Nat)
  | signal (n : Nat)
deriving DecidableEq, Inhabited

/-- What a file does when it is run as a program. -/
structure Behaviour where
  stdout : Content
  stderr : Content
  status : ExitStatus
deriving DecidableEq, Inhabited

/-- What stands at a location. -/
inductive Node where
  | dir
  | file (content : Content) (behaviour : Option Behaviour)
  | link (target : Path)
deriving DecidableEq, Inhabited

/-- What stands where on a disk. The root is always a directory. -/
structure Disk where
  entries : List (Location × Node) := []
deriving Inhabited

/-- The path of a location. -/
def Location.path (l : Location) : Path := ⟨"/" ++ String.intercalate "/" l⟩

namespace Disk

def lookup? (d : Disk) (l : Location) : Option Node :=
  if l = [] then some .dir else (d.entries.find? (·.1 = l)).map (·.2)

/-- Puts a node at a location, in place of what stood there. -/
def put (d : Disk) (l : Location) (n : Node) : Disk :=
  if d.entries.any (·.1 = l) then
    ⟨d.entries.map fun e => if e.1 = l then (l, n) else e⟩
  else ⟨d.entries ++ [(l, n)]⟩

/-- Takes away what stands at a location. -/
def remove (d : Disk) (l : Location) : Disk := ⟨d.entries.filter (·.1 ≠ l)⟩

/-- The names in a directory, in increasing order. -/
def names (d : Disk) (l : Location) : List String :=
  (d.entries.filterMap fun e =>
    if e.1.length = l.length + 1 ∧ e.1.dropLast = l then e.1.getLast? else none).mergeSort
      fun a b => decide (a ≤ b)

/-! ## Looking up paths -/

/-- The names of a path; a slash at its end asks for a directory. -/
def pathNames (p : Path) : List String :=
  let names := (Text.cutString '/' p.text).filter (· ≠ "")
  if p.chars.getLast? = some '/' then names ++ ["."] else names

/-- The number of bytes that a name may have. -/
def maxNameLength : Nat := 255

/-- The number of bytes that a path may have. -/
def maxPathLength : Nat := 4095

/-- The path is one that the system takes. -/
def checkPath (p : Path) : Except FileError Unit := do
  if p.isEmpty then throw .notFound
  if p.chars.contains '\x00' then throw .nulInPath
  if maxPathLength < p.text.utf8ByteSize then throw .nameTooLong

/-- Where a walk over names ends: at a location, or at a link with names left. -/
inductive Halt where
  | arrived (l : Location)
  | atLink (dir : Location) (target : Path) (rest : List String)

/-- Walks names from a location up to the first link. -/
def advance (d : Disk) : Location → List String → Except FileError Halt
  | l, [] => .ok (.arrived l)
  | l, name :: rest =>
    match d.lookup? l with
    | some .dir =>
      if name = "." then advance d l rest
      else if name = ".." then advance d l.dropLast rest
      else if maxNameLength < name.utf8ByteSize then .error .nameTooLong
      else
        match d.lookup? (l ++ [name]) with
        | none => .error .notFound
        | some (.link target) => .ok (.atLink l target rest)
        | some _ => advance d (l ++ [name]) rest
    | some _ => .error .notDirectory
    | none => .error .notFound

/-- Walks names from a location through at most `links` links. -/
def follow (d : Disk) : Nat → Location → List String → Except FileError Location
  | links, l, names =>
    match d.advance l names with
    | .error e => .error e
    | .ok (.arrived l) => .ok l
    | .ok (.atLink dir target rest) =>
      match links with
      | 0 => .error .tooManyLinks
      | links + 1 =>
        d.follow links (if target.isAbsolute then [] else dir) (pathNames target ++ rest)

/-- The number of links that one path may lead through. -/
def linkLimit : Nat := 40

/-- The location that a path leads to, seen from a working directory. -/
def locate (d : Disk) (cwd : Location) (p : Path) : Except FileError Location := do
  checkPath p
  d.follow linkLimit (if p.isAbsolute then [] else cwd) (pathNames p)

/-- What stands where a path leads to. -/
def node (d : Disk) (cwd : Location) (p : Path) : Except FileError (Location × Node) := do
  let l ← d.locate cwd p
  match d.lookup? l with
  | some n => return (l, n)
  | none => throw .notFound

/-- An entry of a directory, which need not be there. -/
structure Slot where
  dir : Location
  name : String
  /-- The path of the entry ends in a slash. -/
  hasSlash : Bool

namespace Slot

/-- The entry stands for a directory that is looked at through another one, or for the root. -/
def isRelative (e : Slot) : Bool := e.name = "." || e.name = ".."

def location (e : Slot) : Location := e.dir ++ [e.name]

end Slot

/-- The entry that a path names. No link is followed at its last name. -/
def slot (d : Disk) (cwd : Location) (p : Path) : Except FileError Slot := do
  checkPath p
  let names := (Text.cutString '/' p.text).filter (· ≠ "")
  let name := names.getLast?.getD "."
  let l ← d.follow linkLimit (if p.isAbsolute then [] else cwd) names.dropLast
  match d.lookup? l with
  | some .dir =>
    if maxNameLength < name.utf8ByteSize then throw .nameTooLong
    else return ⟨l, name, p.chars.getLast? = some '/'⟩
  | _ => throw .notDirectory

def isFile (d : Disk) (cwd : Location) (p : Path) : Bool :=
  match d.node cwd p with
  | .ok (_, .file ..) => true
  | _ => false

def isDir (d : Disk) (cwd : Location) (p : Path) : Bool :=
  match d.node cwd p with
  | .ok (_, .dir) => true
  | _ => false

def pathExists (d : Disk) (cwd : Location) (p : Path) : Bool := (d.node cwd p).isOk

def readText (d : Disk) (cwd : Location) (p : Path) : Except FileError String := do
  match ← d.node cwd p with
  | (_, .file (.text s) _) => return s
  | (_, .file (.binary _) _) => throw .notText
  | _ => throw .isDirectory

/-! ## Changing a disk -/

/-- Makes one directory. -/
def makeDir (d : Disk) (cwd : Location) (p : Path) : Except FileError Disk := do
  let e ← d.slot cwd p
  if e.isRelative then throw .alreadyExists
  match d.lookup? e.location with
  | some _ => throw .alreadyExists
  | none => return d.put e.location .dir

/-- Makes the first of the paths a directory, and before it those after it that are missing. -/
def makeDirs (d : Disk) (cwd : Location) : List Path → Except FileError Disk
  | [] => .error .notFound
  | p :: ancestors =>
    match d.makeDir cwd p with
    | .ok d => .ok d
    | .error .notFound =>
      match d.makeDirs cwd ancestors with
      | .error e => .error e
      | .ok d =>
        match d.makeDir cwd p with
        | .ok d => .ok d
        | .error e => if d.isDir cwd p then .ok d else .error e
    | .error e => if d.isDir cwd p then .ok d else .error e

/-- The directory that an entry of the path is written to. -/
def parentDir (p : Path) : Path :=
  match p.parent? with
  | some q => if q.isEmpty then ⟨"."⟩ else q
  | none => ⟨"."⟩

/-- Moves a file to where the path says, in place of a file or a link. -/
def replaceFile (d : Disk) (cwd : Location) (p : Path) (n : Node) : Except FileError Disk := do
  if p.chars.contains '\x00' then throw .invalidArgument
  let e ← d.slot cwd p
  if e.isRelative then throw .busy
  if e.hasSlash then throw .notDirectory
  match d.lookup? e.location with
  | some .dir => throw .isDirectory
  | _ => return d.put e.location n

/-- Writes a text, making directories as needed. Directories that were made stay even when writing the
text fails. -/
def writeText (d : Disk) (cwd : Location) (p : Path) (s : String) : Except FileError Unit × Disk :=
  match d.makeDirs cwd (parentDir p).ancestors with
  | .error e => (.error e, d)
  | .ok d =>
    match d.replaceFile cwd p (.file (.text s) none) with
    | .error e => (.error e, d)
    | .ok d => (.ok (), d)

/-- Deletes a file or a link. -/
def deleteFile (d : Disk) (cwd : Location) (p : Path) : Except FileError Disk := do
  let e ← d.slot cwd p
  if e.isRelative then throw .isDirectory
  match d.lookup? e.location with
  | some .dir => throw .isDirectory
  | some _ => if e.hasSlash then throw .notDirectory else return d.remove e.location
  | none => throw .notFound

/-- Puts a node at a location, and directories on the way to it. -/
def plant (d : Disk) (l : Location) (n : Node) : Disk :=
  let d := (List.range l.length).foldl (fun d k =>
    let dir := l.take k
    if (d.lookup? dir).isSome then d else d.put dir .dir) d
  d.put l n

/-- The paths below a location, relative to it and in increasing order; directories end in a slash. -/
def listing (d : Disk) (l : Location) : List String :=
  (d.entries.filterMap fun (m, n) =>
    if l.isPrefixOf m ∧ l ≠ m then
      some (String.intercalate "/" (m.drop l.length) ++ (if n = .dir then "/" else ""))
    else none).mergeSort fun a b => decide (a ≤ b)

/-- The texts of files that were not so on an earlier disk. -/
def writtenSince (d before : Disk) : List (Path × String) :=
  d.entries.filterMap fun (l, n) =>
    match n with
    | .file (.text s) _ => if before.lookup? l = some n then none else some (l.path, s)
    | _ => none

end Disk

end ScriptWorks
