import ScriptWorks.Path.Basic

/-!
# Kinds of source files

Which files are TypeScript sources, which of them only declare, and where the script of a source goes.
-/

namespace ScriptWorks.Path

/-- Extensions of TypeScript sources. -/
def sourceExtensions : List String := ["ts", "tsx", "mts", "cts"]

/-- The path has a TypeScript extension. -/
def isSource (p : Path) : Bool := p.extension?.any (sourceExtensions.contains ·)

/-- Ends of the names of declaration files. -/
def declarationEnds : List String := [".d.ts", ".d.mts", ".d.cts"]

/-- The path names a declaration file. -/
def isDeclaration (p : Path) : Bool :=
  p.fileName?.any fun name => declarationEnds.any fun e => e.toList.isSuffixOf name.toList

/-- The extension of the script that a source compiles to. -/
def scriptExtension (p : Path) : String :=
  match p.extension? with
  | some "mts" => "mjs"
  | some "cts" => "cjs"
  | _ => "js"

/-- The path of the script that a source compiles to. -/
def scriptPath (p : Path) : Path := p.withExtension p.scriptExtension

end ScriptWorks.Path
