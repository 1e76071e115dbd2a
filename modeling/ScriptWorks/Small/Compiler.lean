import ScriptWorks.Engine.Checked
import ScriptWorks.Json.Printer
import ScriptWorks.Small.Print

/-!
# A small compiler

A compiler that can be run. It reads a small part of the language: variables with numbers, words,
strings and calls for values, functions, and declarations of types.
-/

namespace ScriptWorks

namespace Small

def Item.toModuleItem (i : Item) : Script.ModuleItem where
  isDeclaration := i.stmt.isDeclaration
  span := i.span
  invalids := i.stmt.invalids

/-- The text of a source map. -/
def sourceMapText (sources : List String) (mappings : String) : String :=
  (Json.obj [("version", .ofNat 3), ("sources", .ofStrings sources), ("names", .arr []),
    ("mappings", .str mappings)]).compact

end Small

/-- The compiler of the small part, for sources whose mappings are known. Of those of a module it keeps
whether there are any. -/
def Compiler.smallMapping (mappings : String) : Compiler where
  Module := List Small.Item
  Mappings := Bool
  read file dialect _ := Small.parse dialect.ambient file.text
  items is := is.map Small.Item.toModuleItem
  strip := some
  print _ is _ _ := .ok (.text (Small.scriptText is), Small.isEmitted is)
  writeMap file emitted :=
    .ok (.text (if emitted then Small.sourceMapText [file.name] mappings
      else Small.sourceMapText [] ""))

/-- The compiler of the small part. Its source maps name sources and map nothing. -/
def Compiler.small : Compiler := .smallMapping ""

/-! ## What is run -/

namespace Script

/-- Turns a source of the small part into a script. -/
def transpile : String → String → Options → Transpiled := Compiler.small.transpile

/-- The outline of a source of the small part. -/
def tree : String → String → SyntaxTree := Compiler.small.tree

end Script

namespace Engine

/-- The engine on a host that works with the small compiler, with a type checker or without. -/
abbrev onHost (checker : Option Path) : Engine Workstation CheckedProgram :=
  Compiler.small.engine checker

/-- The engine that works with the small compiler, and with the given checker or the one on the search
path. -/
def default : Host → Option Path → Engine Workstation CheckedProgram := Compiler.small.defaultEngine

end Engine

end ScriptWorks
