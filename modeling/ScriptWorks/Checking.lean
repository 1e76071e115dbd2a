import ScriptWorks.Compilation
import ScriptWorks.Request.Check

/-!
# Checking

Type checks, and checks of the syntax of one file. Nothing is written.
-/

namespace ScriptWorks

/-- What a type check came to. -/
structure TypeCheck where
  success : Bool
  diagnostics : List Problem
deriving DecidableEq, Inhabited

namespace TypeCheck

def summary (c : TypeCheck) : Summary := .ofProblems c.diagnostics

/-- The record of a type check. Times are not measured. -/
def toJson (c : TypeCheck) : Json :=
  .obj [("success", .bool c.success), ("diagnostics", .arr (c.diagnostics.map Problem.toJson)),
    ("durationMs", .ofNat 0), ("summary", c.summary.toJson)]

def failed (diagnostics : List Problem) : TypeCheck := { success := false, diagnostics }

/-- A check succeeds if there is no error among its diagnostics. -/
def ofDiagnostics (diagnostics : List Problem) : TypeCheck :=
  { success := !hasErrors diagnostics, diagnostics }

/-- The warning that types were not checked. -/
def syntaxOnly (target : Path) (reason : String) : Problem :=
  { Problem.synthetic target.text "syntax-only"
      s!"Semantic checking unavailable: {reason}. Only syntax was checked." with
    severity := .warning }

variable {ω π : Type} [FileSystem ω]

/-- The options and the root files of a check: those of a project, or a file with its nearest
configuration. -/
def scope (e : Engine ω π) (w : ω) (r : CheckRequest) : Except Failure (Resolved × List Path) :=
  if FileSystem.isFile w r.path then .ok (e.resolve w r.path r.overrides, [r.path])
  else (e.resolveProject w r.path r.overrides).map fun resolved => (resolved, resolved.fileNames)

def check (e : Engine ω π) (r : CheckRequest) : Work ω (Except Failure TypeCheck) := do
  match scope e (← get) r with
  | .error failure => return .error failure
  | .ok (resolved, roots) =>
    if resolved.hasErrors then
      return .ok (failed (resolved.diagnostics.map (Problem.ofDiagnostic e.tag)))
    let program ← e.createProgram roots resolved.options
    let (found, program) ← e.preEmit program
    return .ok (ofDiagnostics (found.map (Problem.ofDiagnostic e.tag) ++
      ((e.uncheckedReason program).map (syntaxOnly r.path)).toList))

/-- Carries out a request to check. Where the engine breaks down, that is the result. -/
def ofRequest (e : Engine ω π) (r : CheckRequest) (w : ω) : Except Failure TypeCheck × ω :=
  match (check e r).run w with
  | .ok result w => (result, w)
  | .error reason w => (.ok (failed [.breakdown r.path reason]), w)

/-- The diagnostics of a check in the format that is asked for. -/
def rendered (e : Engine ω π) (r : CheckRequest) (w : ω) : Except Failure String × ω :=
  let (result, w) := ofRequest e r w
  (result.map fun c => render c.diagnostics (r.format.getD .text), w)

end TypeCheck

/-- What a check of the syntax of a file came to. -/
structure SyntaxCheck where
  errors : List Problem
  isValid : Bool
deriving DecidableEq, Inhabited

namespace SyntaxCheck

/-- The record of a syntax check. -/
def toJson (c : SyntaxCheck) : Json :=
  .obj [("isValid", .bool c.isValid), ("errors", .arr (c.errors.map Problem.toJson))]

/-- The diagnostic for a part of a tree that is no syntax. -/
def invalidCharacter (file : SourceText) (n : SyntaxNode) : Diagnostic :=
  .spanning file n.start (n.stop - n.start) 1127 "Invalid character."

variable {ω π : Type} [FileSystem ω]

/-- Parts of the tree that are no syntax come first, then what the engine reports. -/
def check (e : Engine ω π) (p : Path) : Work ω (Except Failure SyntaxCheck) := do
  let w ← get
  if !FileSystem.isFile w p then return .error (.sourceNotFound p)
  match FileSystem.readText w p with
  | .error cause => return .error (.io p cause)
  | .ok source =>
    let tree := e.syntaxTree source p.text
    let unknown := (tree.root.ofKind .unknown).map (invalidCharacter tree.file)
    let program ← e.createProgram [p] {}
    let found ← e.syntaxErrors program
    let errors := (unknown ++ found).map (Problem.ofDiagnostic e.tag)
    return .ok { errors, isValid := errors.isEmpty }

/-- Checks the syntax of a file. Where the engine breaks down, that is the result. -/
def ofPath (e : Engine ω π) (p : Path) (w : ω) : Except Failure SyntaxCheck × ω :=
  match (check e p).run w with
  | .ok result w => (result, w)
  | .error reason w => (.ok { errors := [.breakdown p reason], isValid := false }, w)

end SyntaxCheck

end ScriptWorks
