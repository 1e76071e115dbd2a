import ScriptWorks.Diagnostic.Basic
import ScriptWorks.Options.Basic
import ScriptWorks.Script.Compiler
import ScriptWorks.Script.Tree
import ScriptWorks.Source.Kind

/-!
# Transpiling

From a source to its script, its source map and its syntax tree.
-/

namespace ScriptWorks

/-- What a source becomes. -/
structure Transpiled where
  /-- Nothing if there is no script. -/
  code : Option String := none
  sourceMap : Option String := none
  diagnostics : List Diagnostic := []
deriving Inhabited

namespace Script

/-- The number of a syntax error. -/
def syntaxErrorCode : Nat := 1005

/-- The number of an error for a module that cannot be written as a script. -/
def printErrorCode : Nat := 5033

/-- How a file is read. -/
def dialectOf (fileName : String) : Dialect where
  elements := ".tsx".toList.isSuffixOf fileName.toList
  ambient := (⟨fileName⟩ : Path).isDeclaration

/-- The level of the language that scripts are written for. -/
def levelOf (options : Options) : LanguageLevel :=
  ((options.text? .target).bind LanguageLevel.ofWord?).getD .es2020

/-- The bytes of a file that a span stands for. -/
def Span.within (start : Nat) (s : Span) : Span where
  start := s.start - start
  stop := max (s.stop - start) (s.start - start)

def Fault.diagnostic (file : SourceText) (start : Nat) (f : Fault) : Diagnostic :=
  let span := f.span.within start
  .spanning file span.start (span.stop - span.start) syntaxErrorCode f.message

/-- All faults of a source, the one that ended reading last. -/
def Reading.allFaults {α : Type} (r : Reading α) : List Fault :=
  match r.result with
  | .ok _ => r.faults
  | .error f => r.faults ++ [f]

def Reading.diagnostics {α : Type} (file : SourceText) (r : Reading α) : List Diagnostic :=
  r.allFaults.map (Fault.diagnostic file r.start)

/-- The comment at the end of a script that names its source map. -/
def mapComment (fileName : String) : String :=
  let script := ((⟨fileName⟩ : Path).scriptPath.fileName?).getD ""
  s!"//# sourceMappingURL={script}.map\n"

/-- A script with the comment that names its source map on a line of its own. -/
def withMapComment (fileName code : String) : String :=
  (if code.toList.getLast? = some '\n' then code else code ++ "\n") ++ mapComment fileName

/-- The node of an item. -/
def ModuleItem.node (start : Nat) (i : ModuleItem) : SyntaxNode :=
  let span := i.span.within start
  .mk (if i.isDeclaration then .declaration else .statement) span.start span.stop
    (i.invalids.map fun s => .mk .unknown (s.within start).start (s.within start).stop [])

end Script

namespace Compiler

open Script

variable (compiler : Compiler)

/-- Reads a file. -/
def readFile (file : SourceText) (level : LanguageLevel) : Reading compiler.Module :=
  compiler.read file (dialectOf file.name) level

/-- The script of a module, and a source map if there is to be one. -/
def write (file : SourceText) (m : compiler.Module) (level : LanguageLevel) (mapped : Bool) :
    Except String (String × Option String) := do
  let some m := compiler.strip m | throw "Expected module, got script"
  let (printed, mappings) ←
    (compiler.print file m level mapped).mapError (s!"Failed to emit code: {·}")
  let code ← printed.toText.mapError (s!"Invalid UTF-8 output: {·}")
  if mapped then
    let written ← (compiler.writeMap file mappings).mapError (s!"Failed to write source map: {·}")
    let map ← written.toText.mapError (s!"Invalid UTF-8 source map: {·}")
    return (code, some map)
  else return (code, none)

/-- Turns a source into a script. -/
def transpile (source fileName : String) (options : Options) : Transpiled :=
  let file : SourceText := ⟨fileName, source⟩
  let reading := compiler.readFile file (levelOf options)
  let diagnostics := reading.diagnostics file
  match reading.result with
  | .error _ => { diagnostics }
  | .ok m =>
    match compiler.write file m (levelOf options) (options.isOn .sourceMap) with
    | .error reason => { diagnostics := diagnostics ++ [.global printErrorCode reason] }
    | .ok (code, none) => { code := some code, diagnostics }
    | .ok (code, some map) =>
      { code := some (withMapComment fileName code), sourceMap := some map, diagnostics }

/-- The outline of a source. If it cannot be read, all from the fault on is unknown. -/
def tree (source fileName : String) : SyntaxTree :=
  let file : SourceText := ⟨fileName, source⟩
  let reading := compiler.readFile file .esNext
  let children := match reading.result with
    | .ok m => (compiler.items m).map (ModuleItem.node reading.start)
    | .error f => [.mk .unknown (f.span.within reading.start).start file.size []]
  ⟨file, .mk .sourceFile 0 file.size children⟩

end Compiler

end ScriptWorks
