import ScriptWorks.Small.Statement

/-!
# Scripts

Writing statements as a script: types are gone, every statement stands on a line of its own.
-/

namespace ScriptWorks.Small

open Script

/-- Texts with commas between them. -/
def commaList (ss : List String) : String := String.intercalate ", " ss

mutual

/-- The text of an expression. -/
def Expr.text : Expr → String
  | .word t => t
  | .call f args => f.text ++ "(" ++ commaList (Expr.texts args) ++ ")"
  | .signed sign e =>
    let operand := e.text
    if operand.startsWith sign && (sign = "-" || sign = "+") then s!"{sign} {operand}"
    else sign ++ operand
  | .binary op a b => s!"{a.text} {op} {b.text}"
  | .invalid _ => "<invalid>"

/-- The texts of several expressions. -/
def Expr.texts : List Expr → List String
  | [] => []
  | e :: es => e.text :: Expr.texts es

end

mutual

/-- The spans that could not be read in an expression. -/
def Expr.invalids : Expr → List Span
  | .word _ => []
  | .call f args => f.invalids ++ Expr.invalidsAll args
  | .signed _ e => e.invalids
  | .binary _ a b => a.invalids ++ b.invalids
  | .invalid s => [s]

/-- The spans that could not be read in several expressions. -/
def Expr.invalidsAll : List Expr → List Span
  | [] => []
  | e :: es => e.invalids ++ Expr.invalidsAll es

end

/-- A declared variable with its value. -/
def variableText (x : String × Option Expr) : String :=
  match x.2 with
  | some e => s!"{x.1} = {e.text}"
  | none => x.1

def exportText (exported : Bool) : String := if exported then "export " else ""

mutual

/-- The lines of a statement; nothing for types. -/
def Stmt.lines : Stmt → List String
  | .declarators exported keyword names =>
    [exportText exported ++ keyword ++ " " ++ commaList (names.map variableText) ++ ";"]
  | .function exported f params body =>
    let head := exportText exported ++ "function " ++ f ++ "(" ++ commaList params ++ ") \x7b"
    match Stmt.linesAll body with
    | [] => [head ++ "\x7d"]
    | ls => head :: ls.map ("    " ++ ·) ++ ["\x7d"]
  | .return none => ["return;"]
  | .return (some e) => [s!"return {e.text};"]
  | .expression e => [s!"{e.text};"]
  | .erased => []

/-- The lines of several statements. -/
def Stmt.linesAll : List Stmt → List String
  | [] => []
  | s :: ss => s.lines ++ Stmt.linesAll ss

end

mutual

/-- The spans that could not be read in a statement. -/
def Stmt.invalids : Stmt → List Span
  | .declarators _ _ names => names.flatMap fun x => (x.2.map Expr.invalids).getD []
  | .function _ _ _ body => Stmt.invalidsAll body
  | .return e => (e.map Expr.invalids).getD []
  | .expression e => e.invalids
  | .erased => []

/-- The spans that could not be read in several statements. -/
def Stmt.invalidsAll : List Stmt → List Span
  | [] => []
  | s :: ss => s.invalids ++ Stmt.invalidsAll ss

end

/-- The statement declares something. -/
def Stmt.isDeclaration : Stmt → Bool
  | .declarators .. | .function .. | .erased => true
  | .return _ | .expression _ => false

/-- The script of statements: every line ends in a line end. -/
def scriptText (items : List Item) : String :=
  String.join ((Stmt.linesAll (items.map Item.stmt)).map (· ++ "\n"))

/-- Something is left of the statements in the script. -/
def isEmitted (items : List Item) : Bool := !(Stmt.linesAll (items.map Item.stmt)).isEmpty

end ScriptWorks.Small
