import ScriptWorks.Config.Document
import ScriptWorks.FileSystem.Host

/-!
# Configurations that extend others

Loading a configuration file together with the files that it extends.
-/

namespace ScriptWorks

/-- Why a configuration file cannot be loaded. -/
inductive LoadFault where
  | unreadable (path : Path) (cause : FileError)
  | malformed (path : Path) (text : String) (fault : ConfigFault)
  | baseNotFound (path : Path) (base : String)
  | circular (path : Path)
deriving Inhabited

namespace LoadFault

/-- The byte offset of a fault in a configuration text. -/
def offset? (file : SourceText) (fault : ConfigFault) : Option Nat :=
  match fault.place with
  | (0, _) => none
  | (line + 1, column) => file.offsetOf? line (column - 1)

def diagnostic : LoadFault → Diagnostic
  | .unreadable p cause => .global 5083 s!"Cannot read file '{p.text}': {cause.message}."
  | .malformed p text fault =>
    let file : SourceText := ⟨p.text, text⟩
    match offset? file fault with
    | some start => .spanning file start 1 1005 fault.message
    | none => .inFile file 1005 fault.message
  | .baseNotFound p base => .global 6053 s!"File '{base}' not found (extended from '{p.text}')."
  | .circular p =>
    .global 18000 s!"Circularity detected while resolving configuration: {p.text}"

end LoadFault

namespace Config

/-- Loads one file, its path options made independent of its directory. -/
def load (h : Host) (p : Path) : Except LoadFault Config :=
  match h.readText p with
  | .error e => .error (.unreadable p e)
  | .ok text =>
    match parse text with
    | .error fault => .error (.malformed p text fault)
    | .ok c =>
      let dir := dirOf p
      .ok { c with compilerOptions := anchorOptions dir c.compilerOptions, specDir := dir }

/-- The first of the paths that is a file. -/
def firstFile? (h : Host) (ps : List Path) : Option Path := ps.find? h.isFile

/-- Where a package is looked for from one directory. -/
def packageCandidates (dir : Path) (name : String) : List Path :=
  let package := (dir.child "node_modules").child name
  [package, (dir.child "node_modules").child (name ++ ".json"), package.child "tsconfig.json"]

/-- Where the base of a configuration in `dir` is looked for, in this order. -/
def baseCandidates (dir : Path) (name : String) : List Path :=
  if name.toList.head? = some '.' || (⟨name⟩ : Path).isAbsolute then
    [dir.child name, dir.child (name ++ ".json")]
  else dir.ancestors.flatMap (packageCandidates · name)

/-- The file that an `extends` member names. -/
def basePath? (h : Host) (dir : Path) (name : String) : Option Path :=
  firstFile? h (baseCandidates dir name)

/-- Loads a file and what it extends; the normal paths of the files so far are in `visited`. -/
def loadChain (h : Host) : Nat → List Path → Path → Except LoadFault Config
  | 0, _, p => .error (.circular p.normalize)
  | fuel + 1, visited, p =>
    let key := p.normalize
    if visited.contains key then .error (.circular key)
    else
      match load h p with
      | .error e => .error e
      | .ok c =>
        match c.extends? with
        | none => .ok c
        | some name =>
          match basePath? h (dirOf p) name with
          | none => .error (.baseNotFound p name)
          | some q =>
            match loadChain h fuel (key :: visited) q with
            | .error e => .error e
            | .ok base => .ok (merge base { c with extends? := none })

/-- One chain cannot hold more files. Each has a path of its own, which is a number with no more digits
than a path may have bytes: one digit for each byte, and 0 is none of them. -/
def chainLimit : Nat := Nat.pow 257 Disk.maxPathLength

/-- Loads a file and every configuration it extends; the extending file wins. -/
def loadWithExtends (h : Host) (p : Path) : Except LoadFault Config := loadChain h chainLimit [] p

end Config

end ScriptWorks
