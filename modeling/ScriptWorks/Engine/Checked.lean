import ScriptWorks.Checker.Run
import ScriptWorks.Engine.Basic

/-!
# The engine on a host

Sources are read from the disk and transpiled one by one. With a type checker its diagnostics are
added, from one run for each program.
-/

namespace ScriptWorks

/-- A host on which checkers were run. -/
structure Workstation where
  host : Host := {}
  runs : List Checker.Run := []
deriving Inhabited

instance : FileSystem Workstation where
  host w := w.host
  pathExists w := w.host.pathExists
  isFile w := w.host.isFile
  readText w := w.host.readText
  writeText w p s :=
    let (r, host) := FileSystem.writeText w.host p s
    (r, { w with host })

/-- A program, and what a checker says of it. -/
structure CheckedProgram where
  program : Program
  checker : Option Path
  /-- What the checker said, once it was asked. -/
  verdict : Option (Except String (List Diagnostic)) := none
deriving Inhabited

namespace CheckedProgram

/-- Asks the checker, unless it was asked before. -/
def consult (checker : Path) (p : CheckedProgram) :
    Work Workstation (Except String (List Diagnostic) × CheckedProgram) := do
  match p.verdict with
  | some v => return (v, p)
  | none =>
    let w ← get
    let (v, run) := Checker.run w.host checker p.program.rootFiles p.program.options
    set { w with runs := w.runs ++ run.toList }
    return (v, { p with verdict := some v })

/-- The checker repeats syntax errors, so it is asked only about sources without any. -/
def preEmit (p : CheckedProgram) : Work Workstation (List Diagnostic × CheckedProgram) := do
  match p.checker, p.program.preEmit with
  | some checker, [] =>
    match ← p.consult checker with
    | (.ok found, p) => return (found, p)
    | (.error _, p) => return ([], p)
  | _, found => return (found, p)

def emit (p : CheckedProgram) : Work Workstation (Emission × CheckedProgram) := do
  if p.checker.isSome && Program.noEmitOnError p.program.options then
    match ← p.preEmit with
    | ([], p) => return (p.program.emit, p)
    | (_, p) => return ({ skipped := true }, p)
  else return (p.program.emit, p)

/-- Why types were not checked. -/
def uncheckedReason (p : CheckedProgram) : Option String :=
  match p.checker, p.verdict with
  | none, _ => some "no type checker (tsgo or tsc) is available"
  | some _, some (.error reason) => some reason
  | _, _ => none

end CheckedProgram

/-- The engine on a host that works with the compiler, with a type checker or without. -/
def Compiler.engine (compiler : Compiler) (checker : Option Path) :
    Engine Workstation CheckedProgram where
  readProject w p := Project.read w.host p
  createProgram rootFiles options := do
    return { program := Program.build compiler (← get).host rootFiles options, checker }
  preEmit := CheckedProgram.preEmit
  syntaxErrors p := return p.program.syntaxErrors
  emit := CheckedProgram.emit
  uncheckedReason := CheckedProgram.uncheckedReason
  transpile source fileName options := return compiler.transpile source fileName options
  syntaxTree := compiler.tree

/-- The engine with the given checker, or with the one on the search path. -/
def Compiler.defaultEngine (compiler : Compiler) (h : Host) (checker : Option Path) :
    Engine Workstation CheckedProgram :=
  compiler.engine (checker.or (Checker.locate h))

end ScriptWorks
