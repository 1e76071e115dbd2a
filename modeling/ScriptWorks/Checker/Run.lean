import ScriptWorks.Checker.Output
import ScriptWorks.FileSystem.Process
import ScriptWorks.Json.Printer
import ScriptWorks.Options.Basic

/-!
# Running a type checker

A checker is a program that is started with a configuration made for the purpose: the root files one
by one, the options that are not about writing scripts, and `noEmit`.
-/

namespace ScriptWorks.Checker

/-- Names under which checkers are looked for, in this order. -/
def programNames : List String := ["tsgo", "tsc"]

/-- The checker on the search path. -/
def locate (h : Host) : Option Path := programNames.findSome? h.which?

/-- Options about writing scripts only. -/
def emitKeys : List String :=
  ["outDir", "outFile", "rootDir", "declaration", "declarationDir", "declarationMap",
    "emitDeclarationOnly", "sourceMap", "inlineSourceMap", "composite", "incremental",
    "tsBuildInfoFile", "noEmitOnError"]

/-- The directories of type declarations at and above a directory. -/
def typeRoots (h : Host) (start : Path) : List Path :=
  (start.ancestors.map fun dir => (dir.child "node_modules").child "@types").filter h.isDir

/-- The options for a checker. -/
def checkOptions (h : Host) (options : Options) (start : Path) : Dict Json :=
  let kept := options.toJson.filter fun m => !emitKeys.contains m.1
  let silent := Dict.insert kept "noEmit" (.bool true)
  match Dict.get? silent "typeRoots", typeRoots h start with
  | some _, _ | none, [] => silent
  | none, roots => Dict.insert silent "typeRoots" (.ofStrings (roots.map Path.text))

/-- The configuration for a checker. Declarations of types are looked for from `start` upwards. -/
def config (h : Host) (rootFiles : List Path) (options : Options) (start : Path) : Json :=
  .ofMembers [("compilerOptions", .obj (checkOptions h options start)),
    ("files", .ofStrings (rootFiles.map Path.text))]

/-- A run of a checker: its configuration and the directory it ran in. -/
structure Run where
  config : Json
  cwd : Path
deriving Inhabited

/-- The arguments of a checker beside the path of the configuration. -/
def arguments : List String := ["--project", "--pretty", "false"]

/-- The first line with something on it, without blanks around it. -/
def firstLine (texts : List String) : Option String :=
  ((texts.flatMap fun s => Text.lines s.toList).map Text.trim).find? (· ≠ []) |>.map String.ofList

/-- What a run says: its diagnostics, or why they cannot be trusted. -/
def verdict (h : Host) (program cwd : Path) (b : Behaviour) : Except String (List Diagnostic) :=
  let stdout := b.stdout.lossy
  let found := diagnostics h stdout cwd
  if found.isEmpty && !b.status.isSuccess then
    let detail := (firstLine [b.stderr.lossy, stdout]).getD "no output"
    .error s!"{program.text} exited with {b.status.text}: {detail}"
  else .ok found

/-- The path of a configuration in the directory that is made for it. -/
def configIn (dir : Path) : Path := dir.child "tsconfig.json"

/-- Makes a directory for the configuration and writes it there. -/
def place (h : Host) : Except String Path :=
  match h.temp with
  | .missing reason => .error s!"failed to create temp directory: {reason}"
  | .unwritable dir cause => .error s!"failed to write {(configIn dir).text}: {cause.message}"
  | .ready dir => .ok (configIn dir)

/-- Runs a checker over root files. Without root files there is nothing to run. -/
def run (h : Host) (program : Path) (rootFiles : List Path) (options : Options) :
    Except String (List Diagnostic) × Option Run :=
  match rootFiles with
  | [] => (.ok [], none)
  | first :: _ =>
    let cwd := first.parent?.getD ⟨"."⟩
    match place h with
    | .error reason => (.error reason, none)
    | .ok _ =>
      match h.run program cwd with
      | .error e => (.error s!"failed to run {program.text}: {e.message}", none)
      | .ok result =>
        (verdict h program cwd result.behaviour, some ⟨config h rootFiles options cwd, result.cwd⟩)

end ScriptWorks.Checker
