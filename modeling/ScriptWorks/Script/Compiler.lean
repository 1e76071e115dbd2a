import ScriptWorks.Options.Target
import ScriptWorks.Source.Text

/-!
# Compilers

What the engine leaves to a compiler: reading a source, taking its types away, and printing what is
left. Nothing is said here of how that is done.
-/

namespace ScriptWorks

namespace Script

/-- A character that ends a line. -/
def isLineEnd (c : Char) : Bool := c = '\n' || c = '\r' || c = '\u2028' || c = '\u2029'

/-- From `start` up to, not including, `stop`. -/
structure Span where
  start : Nat
  stop : Nat
deriving DecidableEq, Inhabited

/-- Something that a source should not say. -/
structure Fault where
  span : Span
  message : String
deriving DecidableEq, Inhabited

/-- What the name of a file says about its language. -/
structure Dialect where
  /-- There may be elements of a markup language. -/
  elements : Bool
  /-- There are declarations only. -/
  ambient : Bool
deriving DecidableEq, Inhabited

/-- What reading a source gives, with spans that count from some `start` on. -/
structure Reading (α : Type) where
  start : Nat
  /-- Faults after which reading went on. -/
  faults : List Fault
  /-- The module, or the fault that ended reading. -/
  result : Except Fault α
deriving Inhabited

/-- An item of a module. -/
structure ModuleItem where
  isDeclaration : Bool
  span : Span
  /-- What could not be read in it. -/
  invalids : List Span
deriving Inhabited

end Script

/-- A compiler of modules to scripts. -/
structure Compiler where
  /-- Modules as they are read. -/
  Module : Type
  /-- Which place of a script comes from which place of its source. -/
  Mappings : Type
  read : SourceText → Script.Dialect → LanguageLevel → Script.Reading Module
  items : Module → List Script.ModuleItem
  /-- The module without types; nothing if what is left is none. -/
  strip : Module → Option Module
  /-- Prints a module, and records the mappings if there is to be a source map. -/
  print : SourceText → Module → LanguageLevel → Bool → Except String (Content × Mappings)
  /-- Writes a source map. -/
  writeMap : SourceText → Mappings → Except String Content

end ScriptWorks
