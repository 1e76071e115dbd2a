import ScriptWorks.Diagnostic.Problem
import ScriptWorks.Json.Printer
import ScriptWorks.Text.Blank

/-!
# Renderings of problems

Three forms: records in JSON, a line for each problem, and coloured blocks.
-/

namespace ScriptWorks

/-- The form in which problems are shown. -/
inductive OutputFormat where
  | json
  | text
  | formatted
deriving DecidableEq, Inhabited

namespace OutputFormat

def name : OutputFormat → String
  | .json => "json"
  | .text => "text"
  | .formatted => "formatted"

def all : List OutputFormat := [.json, .text, .formatted]

/-- The format with exactly this name. -/
def ofName? (s : String) : Option OutputFormat := all.find? (·.name = s)

/-- The format that a word names, in any case of ASCII letters. -/
def ofWord (s : String) : Except String OutputFormat :=
  let word := String.ofList (s.toList.map Char.toLower)
  match ofName? word with
  | some f => .ok f
  | none => .error s!"unknown output format '{word}' (expected json, text or formatted)"

end OutputFormat

namespace Problem

/-- The lines of a message. -/
def messageLines (p : Problem) : List (List Char) := Text.lines p.message.toList

/-- The message in one line: its lines without blanks around them, empty ones left out. -/
def inlineMessage (p : Problem) : String :=
  String.intercalate " " ((((p.messageLines.map Text.trim).filter (· ≠ [])).map String.ofList))

def icon : Severity → String
  | .error => "✖"
  | .warning => "⚠"
  | .info => "ℹ"

/-- The terminal's colour for a severity. -/
def colour : Severity → String
  | .error => "\x1b[31m"
  | .warning => "\x1b[33m"
  | .info => "\x1b[36m"

def dim : String := "\x1b[2m"

/-- Ends a colour. -/
def plain : String := "\x1b[0m"

/-- The first line of a block. -/
def header (p : Problem) : String :=
  s!"{colour p.severity}{icon p.severity} {p.severity.name}{plain} {p.file}:{p.line}:{p.column}"

/-- The lines of a block: header, message, code. -/
def blockLines (p : Problem) : List String :=
  p.header :: p.messageLines.map (fun l => "  " ++ String.ofList l) ++ [s!"  {dim}{p.code}{plain}"]

end Problem

/-- All problems in one text. -/
def render (ps : List Problem) : OutputFormat → String
  | .json => (Json.arr (ps.map Problem.toJson)).pretty
  | .text => String.intercalate "\n" (ps.map fun p => p.lineWith p.inlineMessage)
  | .formatted =>
    String.intercalate "\n\n" (ps.map fun p => String.intercalate "\n" p.blockLines)

end ScriptWorks
