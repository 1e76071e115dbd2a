import ScriptWorks.Engine.Basic
import ScriptWorks.FileSystem.Memory
import ScriptWorks.Jsonc
import ScriptWorks.Source.Kind
import ScriptWorks.Text.Search

/-!
# An engine that works by rules

For rehearsals: sources lie in memory, and a diagnostic stands wherever a rule's pattern does.
Transpiling puts a comment before a source. Marks in a source make the engine break down or produce
nothing.
-/

namespace ScriptWorks

/-- What is reported wherever a pattern stands. -/
structure Rule where
  pattern : String
  code : Nat
  message : String
  category : Category := .error
  /-- It is an error of the source itself. -/
  isSyntactic : Bool := false
deriving Inhabited

namespace Rule

/-- What a type checker says of a certain function and of a call of it. -/
def samples : List Rule := [
  { pattern := "return a+b", code := 2322
    message := "Type 'number' is not assignable to type 'string'." },
  { pattern := "add(\"5\"", code := 2345
    message := "Argument of type 'string' is not assignable to parameter of type 'number'." }]

/-- The places of a rule in a source, each with its byte offset. -/
def findings (file : SourceText) (r : Rule) : List (Nat × Diagnostic) :=
  let length := Text.byteLength r.pattern.toList
  (Text.occurrences r.pattern.toList 0 0 file.text.toList).map fun start =>
    (start, { Diagnostic.spanning file start length r.code r.message with category := r.category })

/-- What rules report of a source: by offset, then in the order of the rules. -/
def report (rules : List Rule) (file : SourceText) : List Diagnostic :=
  ((rules.flatMap (findings file)).mergeSort fun a b => a.1 ≤ b.1).map (·.2)

end Rule

/-- Files in memory, and what an engine was asked. -/
structure Rehearsal where
  memory : Memory := {}
  host : Host := {}
  /-- The options of the last source or program. -/
  lastOptions : Option Options := none
  programs : Nat := 0
  /-- The most sources that were transpiled at one time. -/
  peak : Nat := 0
deriving Inhabited

instance : FileSystem Rehearsal where
  host w := w.host
  pathExists w := w.memory.pathExists
  isFile w := w.memory.isFile
  readText w := w.memory.readText
  writeText w p s :=
    let (r, memory) := w.memory.writeText p s
    (r, { w with memory })

/-- The sources of a program that are in memory. -/
structure ScriptedProgram where
  files : List (Path × SourceText)
  options : Options
deriving Inhabited

namespace Engine.Scripted

/-- The mark in a source at which the engine breaks down. -/
def breakdownMark : String := "@@panic"

/-- The mark in a source of which there is no script. -/
def noScriptMark : String := "@@no-output"

/-- The character that is no syntax. -/
def unknownMark : Char := '§'

def readProject (w : Rehearsal) (p : Path) : Project :=
  match w.memory.get? p with
  | none => { errors := [.global 5083 s!"Cannot read file '{p.text}'."] }
  | some text =>
    match Jsonc.parse text with
    | .error e => { errors := [.global 1005 e.message] }
    | .ok v =>
      let (options, errors) := Options.ofJson (((v.member? "compilerOptions").bind Json.asObject?).getD [])
      let dir := p.parent?.getD ⟨"/"⟩
      { options
        fileNames := w.memory.paths.filter fun q => q.startsWith dir && q.extension? = some "ts"
        errors := errors.map fun e => .global 5024 e.message }

/-- Breaks down if a source says so. -/
def consider (source : String) : Work Rehearsal Unit :=
  if Text.containsText breakdownMark source then throw "scripted engine panic" else pure ()

def createProgram (rootFiles : List Path) (options : Options) : Work Rehearsal ScriptedProgram := do
  modify fun w => { w with programs := w.programs + 1, lastOptions := some options }
  let w ← get
  let files := rootFiles.filterMap fun p => (w.memory.get? p).map fun text => (p, ⟨p.text, text⟩)
  for (_, file) in files do consider file.text
  return { files, options }

def transpile (rules : List Rule) (source fileName : String) (options : Options) :
    Work Rehearsal Transpiled := do
  modify fun w => { w with lastOptions := some options, peak := max w.peak 1 }
  consider source
  let diagnostics := Rule.report rules ⟨fileName, source⟩
  if Text.containsText noScriptMark source then return { diagnostics }
  else
    return { code := some ("// compiled\n" ++ source)
             sourceMap :=
               if options.isOn .sourceMap then
                 some ("\x7b\"version\":3,\"sources\":[\"" ++ fileName ++ "\"]\x7d")
               else none
             diagnostics }

/-- One node for each character that is no syntax. -/
def unknownNodes (offset : Nat) : List Char → List SyntaxNode
  | [] => []
  | c :: cs =>
    let next := offset + c.utf8Size
    if c = unknownMark then .mk .unknown offset next [] :: unknownNodes next cs
    else unknownNodes next cs

def syntaxTree (source fileName : String) : SyntaxTree where
  file := ⟨fileName, source⟩
  root := .mk .sourceFile 0 (Text.byteLength source.toList) (unknownNodes 0 source.toList)

/-- The script of a source, with the text of the source. All scripts go to the output directory. -/
def outputFile (options : Options) (file : Path × SourceText) : OutputFile :=
  let script := file.1.scriptPath
  let path := match options.text? .outDir, script.fileName? with
    | some dir, some name => (⟨dir⟩ : Path).child name
    | _, _ => script
  ⟨path, file.2.text⟩

def emit (rules : List Rule) (p : ScriptedProgram) : Emission :=
  if p.options.isOn .noEmit then { skipped := true }
  else
    { diagnostics := p.files.flatMap fun f => Rule.report rules f.2
      files := p.files.map (outputFile p.options) }

end Engine.Scripted

/-- The engine with rules for checking and rules for writing. -/
def Engine.scripted (rules emitRules : List Rule) : Engine Rehearsal ScriptedProgram where
  readProject := Scripted.readProject
  createProgram := Scripted.createProgram
  preEmit p := return (p.files.flatMap fun f => Rule.report rules f.2, p)
  syntaxErrors p := return p.files.flatMap fun f => Rule.report (rules.filter (·.isSyntactic)) f.2
  emit p := return (Scripted.emit emitRules p, p)
  uncheckedReason _ := none
  transpile := Scripted.transpile rules
  syntaxTree := Scripted.syntaxTree

end ScriptWorks
