import ScriptWorks.Diagnostic.Basic
import ScriptWorks.Json.Basic

/-!
# Problems

A problem is a diagnostic as it is reported: its place by line and column from 1, its message in one
text, its severity one of three.
-/

namespace ScriptWorks

/-- How grave a problem is. -/
inductive Severity where
  | error
  | warning
  | info
deriving DecidableEq, Inhabited

def Severity.name : Severity → String
  | .error => "error"
  | .warning => "warning"
  | .info => "info"

/-- The severity of a category; unknown categories are errors. -/
def Category.severity : Category → Severity
  | .error | .other _ => .error
  | .warning => .warning
  | .suggestion | .message => .info

/-- A diagnostic as it is reported. Line and column are 0 where there is no place. -/
structure Problem where
  file : String
  line : Nat
  column : Nat
  message : String
  code : String
  severity : Severity
deriving DecidableEq, Inhabited

namespace Problem

/-- An error of the toolchain itself. -/
def synthetic (file code message : String) : Problem := ⟨file, 0, 0, message, code, .error⟩

def isError (p : Problem) : Bool := p.severity = .error

/-- Line and column, from 1, of a diagnostic with a place. -/
def place (d : Diagnostic) : Nat × Nat :=
  match d.file, d.start with
  | some file, some start =>
    let (line, character) := file.positionOf start
    (line + 1, character + 1)
  | _, _ => (0, 0)

/-- The report of a diagnostic; `tag` stands before its number. -/
def ofDiagnostic (tag : String) (d : Diagnostic) : Problem where
  file := (d.file.map SourceText.name).getD ""
  line := (place d).1
  column := (place d).2
  message := d.message.flatten
  code := s!"{tag}{d.code}"
  severity := d.category.severity

/-- The line of a problem, with its message as it is. -/
def lineWith (p : Problem) (message : String) : String :=
  s!"{p.file}:{p.line}:{p.column} - {p.severity.name}: {message} ({p.code})"

/-- The problem in one line. -/
def display (p : Problem) : String := p.lineWith p.message

/-- The record of a problem, with its members in this order. -/
def toJson (p : Problem) : Json :=
  .obj [("file", .str p.file), ("line", .ofNat p.line), ("column", .ofNat p.column),
    ("message", .str p.message), ("code", .str p.code), ("severity", .str p.severity.name)]

end Problem

/-- The numbers of problems by severity. -/
structure Summary where
  errors : Nat := 0
  warnings : Nat := 0
  infos : Nat := 0
deriving DecidableEq, Inhabited

namespace Summary

def ofProblems (ps : List Problem) : Summary where
  errors := ps.countP (·.severity = .error)
  warnings := ps.countP (·.severity = .warning)
  infos := ps.countP (·.severity = .info)

def total (s : Summary) : Nat := s.errors + s.warnings + s.infos

def toJson (s : Summary) : Json :=
  .obj [("errorCount", .ofNat s.errors), ("warningCount", .ofNat s.warnings),
    ("infoCount", .ofNat s.infos)]

/-- A number of things, with an `s` unless it is one thing. -/
def counted (n : Nat) (noun : String) : String := if n = 1 then s!"{n} {noun}" else s!"{n} {noun}s"

/-- The numbers that are not zero, in one line. -/
def line (s : Summary) : String :=
  if s.total = 0 then "No problems found"
  else
    String.intercalate ", "
      (([(s.errors, "error"), (s.warnings, "warning"), (s.infos, "message")].filter (·.1 ≠ 0)).map
        fun (n, noun) => counted n noun)

end Summary

/-- Some of the problems is an error. -/
def hasErrors (ps : List Problem) : Bool := ps.any Problem.isError

end ScriptWorks
