import ScriptWorks.FileSystem.Host
import ScriptWorks.Script.Transpile

/-!
# Programs

The root files of a project, each with its script, and what is written for them.
-/

namespace ScriptWorks

/-- A file that a program wants written. -/
structure OutputFile where
  path : Path
  content : String
deriving DecidableEq, Inhabited

/-- What writing a program comes to. -/
structure Emission where
  /-- Nothing is written because of an option. -/
  skipped : Bool := false
  diagnostics : List Diagnostic := []
  files : List OutputFile := []
deriving Inhabited

/-- A source of a program. -/
structure SourceUnit where
  path : Path
  output : Transpiled
deriving Inhabited

/-- The sources of a project. -/
structure Program where
  rootFiles : List Path
  options : Options
  /-- Root files that cannot be read. -/
  readErrors : List Diagnostic
  units : List SourceUnit
deriving Inhabited

namespace Program

/-- The option that nothing is written for a program with diagnostics. -/
def noEmitOnError (o : Options) : Bool :=
  (Dict.get? o.extra "noEmitOnError").bind Json.asBool? = some true

/-- Reads and transpiles one root file. -/
def readUnit (compiler : Compiler) (h : Host) (options : Options) (p : Path) :
    Except Diagnostic SourceUnit :=
  match h.readText p with
  | .ok source => .ok ⟨p, compiler.transpile source p.text options⟩
  | .error e => .error (.global 6053 s!"File '{p.text}' not found: {e.message}.")

/-- Reads and transpiles the root files. -/
def build (compiler : Compiler) (h : Host) (rootFiles : List Path) (options : Options) : Program :=
  let results := rootFiles.map (readUnit compiler h options)
  { rootFiles, options
    readErrors := results.filterMap fun
      | .error d => some d
      | .ok _ => none
    units := results.filterMap Except.toOption }

/-- What is wrong with the sources themselves. -/
def syntaxErrors (p : Program) : List Diagnostic := p.units.flatMap (·.output.diagnostics)

/-- What is known to be wrong before anything is written. -/
def preEmit (p : Program) : List Diagnostic := p.readErrors ++ p.syntaxErrors

/-- The directory of a file. -/
def dirOf (p : Path) : Path := p.parent?.getD ⟨""⟩

/-- The nearest of the ancestors of `current` in which `dir` lies. -/
def commonDir (current dir : Path) : Path :=
  (current.ancestors.find? (dir.startsWith ·)).getD ⟨""⟩

/-- The directory of all sources that are written, if there are any. -/
def sourceDir (p : Program) : Option Path :=
  match (p.units.filter (!·.path.isDeclaration)).map fun u => dirOf u.path with
  | [] => none
  | dir :: dirs => some (dirs.foldl commonDir dir)

/-- The directory whose layout the outputs keep: the option, or the directory of all sources. -/
def rootDir (p : Program) : Option Path :=
  match p.options.text? .rootDir with
  | some dir => some (⟨dir⟩ : Path).normalize
  | none => p.sourceDir

/-- The path of the script of a source, or an error for a source outside the root directory. -/
def scriptPath (outDir rootDir : Option Path) (p : Path) : Except Diagnostic Path :=
  match outDir, rootDir with
  | some out, some root =>
    match p.stripPrefix? root with
    | some rel => .ok (out.join rel.scriptPath)
    | none =>
      .error (.global 6059 s!"File '{p.text}' is not under 'rootDir' '{root.text}'. 'rootDir' is expected to contain all source files.")
  | _, _ => .ok p.scriptPath

/-- The path of the source map of a script. -/
def mapPath (script : Path) : Path := ⟨script.text ++ ".map"⟩

/-- The script and the source map of a source; nothing for declarations and unreadable sources. -/
def unitOutput (outDir rootDir : Option Path) (u : SourceUnit) :
    Except Diagnostic (Option (OutputFile × Option OutputFile)) := do
  if u.path.isDeclaration then return none
  let some code := u.output.code | return none
  let script ← scriptPath outDir rootDir u.path
  return some (⟨script, code⟩, u.output.sourceMap.map fun map => ⟨mapPath script, map⟩)

/-- The file is a source map. -/
def isMap (f : OutputFile) : Bool := f.path.extension? = some "map"

/-- Scripts first, then source maps. -/
def mapsLast (files : List OutputFile) : List OutputFile :=
  files.filter (!isMap ·) ++ files.filter isMap

/-- What is written for a program. -/
def emit (p : Program) : Emission :=
  if p.options.isOn .noEmit then { skipped := true }
  else if noEmitOnError p.options && !p.preEmit.isEmpty then { skipped := true }
  else
    let outDir := (p.options.text? .outDir).map fun dir => (⟨dir⟩ : Path).normalize
    let outputs := p.units.map (unitOutput outDir p.rootDir)
    { diagnostics := outputs.filterMap fun
        | .error d => some d
        | .ok _ => none
      files := mapsLast (outputs.flatMap fun
        | .ok (some (script, map)) => map.toList ++ [script]
        | _ => []) }

end Program

end ScriptWorks
