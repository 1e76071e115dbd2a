import ScriptWorks.Request.Compile
import ScriptWorks.Diagnostic.Problem
import ScriptWorks.Resolution
import ScriptWorks.Source.Kind

/-!
# Compilations

A compilation is first prepared: sources are read and everything is computed that is to be written.
Then it is committed: files are written in order, up to the first that cannot be.
-/

namespace ScriptWorks

/-- What a compilation came to. -/
structure Compilation where
  success : Bool
  diagnostics : List Problem
  /-- The files that were written. -/
  outputFiles : List OutputFile
deriving DecidableEq, Inhabited

def OutputFile.toJson (f : OutputFile) : Json :=
  .obj [("path", .str f.path.text), ("content", .str f.content)]

namespace Compilation

def summary (c : Compilation) : Summary := .ofProblems c.diagnostics

/-- The record of a compilation. Times are not measured. -/
def toJson (c : Compilation) : Json :=
  .obj [("success", .bool c.success), ("diagnostics", .arr (c.diagnostics.map Problem.toJson)),
    ("outputFiles", .arr (c.outputFiles.map OutputFile.toJson)), ("durationMs", .ofNat 0),
    ("summary", c.summary.toJson)]

end Compilation

/-- A compilation of which nothing is written yet. -/
structure Draft where
  diagnostics : List Problem := []
  files : List OutputFile := []
  /-- It is no success, whatever its diagnostics are. -/
  incomplete : Bool := false
deriving DecidableEq, Inhabited

namespace Problem

/-- The report of a breakdown of the engine. -/
def breakdown (target : Path) (reason : Breakdown) : Problem :=
  .synthetic target.text "internal" s!"Internal compiler error: {reason}"

/-- The report of a file that cannot be written. -/
def writeFailed (p : Path) (e : FileError) : Problem :=
  .synthetic p.text "TS5033" s!"Could not write file '{p.text}': {e.message}."

end Problem

namespace Draft

/-- A draft that is no success and writes nothing. -/
def failed (diagnostics : List Problem) : Draft := { diagnostics, incomplete := true }

variable {ω π : Type} [FileSystem ω]

/-! ## Preparing -/

/-- The script's path for a file of its own: in the output directory if there is one. That is seen
from the directory of the configuration file. -/
def scriptPath (w : ω) (p : Path) (r : Resolved) : Path :=
  let script := p.scriptPath
  match r.options.text? .outDir, script.fileName? with
  | some dir, some name =>
    let dir : Path := ⟨dir⟩
    let dir := match r.configPath with
      | some config => (config.parent?.getD ⟨""⟩).join dir
      | none => (FileSystem.host w).absolute dir
    dir.child name
  | _, _ => script

/-- The files of a transpiled source; the source map only if it is asked for. -/
def outputs (script : Path) (options : Options) (code : String) (map : Option String) :
    List OutputFile :=
  ⟨script, code⟩ ::
    if options.isOn .sourceMap then (map.map (⟨Program.mapPath script, ·⟩)).toList else []

/-- Prepares the compilation of one file. -/
def ofFile (e : Engine ω π) (r : CompileRequest) (p : Path) : Work ω (Except Failure Draft) := do
  let w ← get
  if !FileSystem.isFile w p then return .error (.sourceNotFound p)
  let resolved := e.resolve w p (r.overrides (FileSystem.host w))
  if resolved.hasErrors then
    return .ok (failed (resolved.diagnostics.map (Problem.ofDiagnostic e.tag)))
  match FileSystem.readText w p with
  | .error cause => return .error (.io p cause)
  | .ok source =>
    let t ← e.transpile source p.text resolved.options
    let diagnostics := t.diagnostics.map (Problem.ofDiagnostic e.tag)
    match t.code with
    | none => return .ok (failed diagnostics)
    | some code =>
      return .ok { diagnostics
                   files := outputs (scriptPath w p resolved) resolved.options code t.sourceMap }

/-- Prepares the compilation of a project. -/
def ofProject (e : Engine ω π) (r : CompileRequest) (dir : Path) :
    Work ω (Except Failure Draft) := do
  let w ← get
  match e.resolveProject w dir (r.overrides (FileSystem.host w)) with
  | .error failure => return .error failure
  | .ok resolved =>
    if resolved.hasErrors then
      return .ok (failed (resolved.diagnostics.map (Problem.ofDiagnostic e.tag)))
    let program ← e.createProgram resolved.fileNames resolved.options
    let (found, program) ← e.preEmit program
    let (emission, _) ← e.emit program
    return .ok { diagnostics := (found ++ emission.diagnostics).map (Problem.ofDiagnostic e.tag)
                 files := emission.files
                 incomplete := emission.skipped }

/-- Prepares a compilation. Where the engine breaks down, that is what the draft reports. -/
def prepare (e : Engine ω π) (r : CompileRequest) (target : CompileTarget) (w : ω) :
    Except Failure Draft × ω :=
  let work := match target with
    | .file p => ofFile e r p
    | .project dir => ofProject e r dir
  match work.run w with
  | .ok draft w => (draft, w)
  | .error reason w => (.ok (failed [.breakdown target.path reason]), w)

/-! ## Committing -/

/-- Writes files in order up to the first that cannot be written. Returns those that were, and the
report of the one that could not be. -/
def writeAll : List OutputFile → ω → (List OutputFile × Option Problem) × ω
  | [], w => (([], none), w)
  | f :: fs, w =>
    match FileSystem.writeText w f.path f.content with
    | (.error e, w) => (([], some (.writeFailed f.path e)), w)
    | (.ok (), w) =>
      let ((written, problem), w) := writeAll fs w
      ((f :: written, problem), w)

/-- Writes the files of a draft. -/
def commit (d : Draft) (w : ω) : Compilation × ω :=
  let ((written, problem), w) := writeAll d.files w
  let diagnostics := d.diagnostics ++ problem.toList
  ({ success := !d.incomplete && !hasErrors diagnostics, diagnostics, outputFiles := written }, w)

end Draft

namespace Compilation

variable {ω π : Type} [FileSystem ω]

/-- Compiles a target. -/
def ofTarget (e : Engine ω π) (r : CompileRequest) (target : CompileTarget) (w : ω) :
    Except Failure Compilation × ω :=
  match Draft.prepare e r target w with
  | (.error failure, w) => (.error failure, w)
  | (.ok draft, w) =>
    let (c, w) := draft.commit w
    (.ok c, w)

/-- Carries out a request to compile, without watching. -/
def ofRequest (e : Engine ω π) (r : CompileRequest) (w : ω) : Except Failure Compilation × ω :=
  match r.target with
  | .error fault => (.error (.invalidRequest fault), w)
  | .ok target => ofTarget e r target w

end Compilation

end ScriptWorks
