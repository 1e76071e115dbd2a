import ScriptWorks.Diagnostic.Message
import ScriptWorks.Source.Text

/-!
# Diagnostics

What compiling and checking find, located by byte offsets.
-/

namespace ScriptWorks

/-- The kind of a diagnostic. -/
inductive Category where
  | warning
  | error
  | suggestion
  | message
  | other (n : Nat)
deriving DecidableEq, Inhabited

/-- Something found in a file, or without a place. -/
structure Diagnostic where
  file : Option SourceText := none
  start : Option Nat := none
  length : Option Nat := none
  category : Category := .error
  code : Nat
  message : Message
deriving Inhabited

namespace Diagnostic

/-- An error without a place. -/
def global (code : Nat) (message : String) : Diagnostic := { code, message := .text message }

/-- An error in a file, at no certain place. -/
def inFile (file : SourceText) (code : Nat) (message : String) : Diagnostic :=
  { file := some file, code, message := .text message }

/-- An error at a place in a file. -/
def spanning (file : SourceText) (start length code : Nat) (message : String) : Diagnostic :=
  { file := some file, start := some start, length := some length, code, message := .text message }

end Diagnostic

end ScriptWorks
