import ScriptWorks.Json.Parser
import ScriptWorks.Text.Blank

/-!
# Assignments

`KEY=VALUE` on the command line. The value is JSON if it reads as such, else a string.
-/

namespace ScriptWorks.Assignment

/-- Why a text is no assignment. -/
inductive Fault where
  | noEquals (input : String)
  | noKey (input : String)
deriving DecidableEq, Inhabited

def Fault.message : Fault → String
  | .noEquals input => s!"expected KEY=VALUE, got '{input}'"
  | .noKey input => s!"missing option name in '{input}'"

/-- The value of a text: as JSON, or else the text itself. -/
def value (text : String) : Json :=
  match Json.parse text with
  | .ok v => v
  | .error _ => .str text

/-- The key without blanks around it, and the value. -/
def parse (input : String) : Except Fault (String × Json) :=
  let cs := input.toList
  match cs.dropWhile (· ≠ '=') with
  | [] => .error (.noEquals input)
  | _ :: after =>
    let key := Text.trim (cs.takeWhile (· ≠ '='))
    if key.isEmpty then .error (.noKey input)
    else .ok (String.ofList key, value (String.ofList after))

end ScriptWorks.Assignment
