import ScriptWorks.Diagnostic.Render
import ScriptWorks.Json.Decode
import ScriptWorks.Options.Basic
import ScriptWorks.Path.Basic

/-!
# Requests to check

What to check and how, as a record; and the record of a problem.
-/

namespace ScriptWorks

/-- What to check: a source file or a directory with a configuration. -/
structure CheckRequest where
  path : Path
  strict : Option Bool := none
  includeDeclarations : Option Bool := none
  format : Option OutputFormat := none
deriving DecidableEq, Inhabited

namespace CheckRequest

/-- The options that the request sets. -/
def overrides (r : CheckRequest) : Options :=
  let options : Options := match r.strict with
    | some b => ({} : Options).set .strict (.bool b)
    | none => {}
  match r.includeDeclarations with
  | some b => options.set .skipLibCheck (.bool !b)
  | none => options

def toJson (r : CheckRequest) : Json :=
  .obj [("path", .str r.path.text), ("strict", Json.ofOption .bool r.strict),
    ("includeDeclarations", Json.ofOption .bool r.includeDeclarations),
    ("format", Json.ofOption (fun f => .str f.name) r.format)]

open Json.Decode in
/-- The fields of the record. -/
def fields : List (RecordField CheckRequest) :=
  let format := oneOf (OutputFormat.all.map OutputFormat.name) OutputFormat.ofName?
  [⟨"path", fun r v => (pathText v).map fun p => { r with path := ⟨p⟩ }, true, false⟩,
    ⟨"strict", fun r v => (optional bool v).map fun b => { r with strict := b }, false, false⟩,
    ⟨"includeDeclarations",
      fun r v => (optional bool v).map fun b => { r with includeDeclarations := b }, false, false⟩,
    ⟨"format", fun r v => (optional format v).map fun f => { r with format := f }, false, false⟩]

def ofJson : Json.Decoder CheckRequest := Json.Decode.record "TypeCheckRequest" fields { path := ⟨""⟩ }

end CheckRequest

namespace Problem

def severities : List Severity := [.error, .warning, .info]

open Json.Decode in
/-- The fields of the record of a problem. -/
def fields : List (RecordField Problem) :=
  let severity := oneOf (severities.map Severity.name) fun s => severities.find? (·.name = s)
  [⟨"file", fun p v => (string v).map fun s => { p with file := s }, true, false⟩,
    ⟨"line", fun p v => (word32 v).map fun n => { p with line := n }, true, false⟩,
    ⟨"column", fun p v => (word32 v).map fun n => { p with column := n }, true, false⟩,
    ⟨"message", fun p v => (string v).map fun s => { p with message := s }, true, false⟩,
    ⟨"code", fun p v => (string v).map fun s => { p with code := s }, true, false⟩,
    ⟨"severity", fun p v => (severity v).map fun s => { p with severity := s }, true, false⟩]

def ofJson : Json.Decoder Problem :=
  Json.Decode.record "NormalizedDiagnostic" fields ⟨"", 0, 0, "", "", .error⟩

/-- The problems of a JSON list. -/
def listOfJson : Json.Decoder (List Problem) := Json.Decode.list ofJson

end Problem

end ScriptWorks
