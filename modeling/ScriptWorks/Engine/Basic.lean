import ScriptWorks.Config.Project
import ScriptWorks.Program.Basic

/-!
# Engines

What the toolchain needs from a compiler, in a world of states `ω` and with programs of type `π`.
-/

namespace ScriptWorks

/-- Why an engine broke down. -/
abbrev Breakdown := String

/-- A computation of an engine: it may change the world, and may break down. -/
abbrev Work (ω α : Type) := EStateM Breakdown ω α

/-- A compiler. -/
structure Engine (ω π : Type) where
  /-- What stands before the number of a diagnostic. -/
  tag : String := "TS"
  /-- The name of a project's configuration file. -/
  configFileName : String := "tsconfig.json"
  readProject : ω → Path → Project
  createProgram : List Path → Options → Work ω π
  /-- All that is known before anything is written. -/
  preEmit : π → Work ω (List Diagnostic × π)
  syntaxErrors : π → Work ω (List Diagnostic)
  emit : π → Work ω (Emission × π)
  /-- Why types were not checked, if they were not. -/
  uncheckedReason : π → Option String
  transpile : String → String → Options → Work ω Transpiled
  syntaxTree : String → String → SyntaxTree

end ScriptWorks
