import ScriptWorks.Failure
import ScriptWorks.FileSystem.Host
import ScriptWorks.Json.Decode
import ScriptWorks.Options.Basic

/-!
# Requests to compile

What to compile and how, as a record.
-/

namespace ScriptWorks

/-- What to compile and how. Exactly one of the paths has to be given. -/
structure CompileRequest where
  filePath : Option Path := none
  projectPath : Option Path := none
  outputDir : Option Path := none
  sourceMap : Option Bool := none
  watch : Bool := false
deriving DecidableEq, Inhabited

/-- What a request asks to compile. -/
inductive CompileTarget where
  | file (path : Path)
  | project (path : Path)
deriving DecidableEq, Inhabited

def CompileTarget.path : CompileTarget → Path
  | .file p | .project p => p

namespace CompileRequest

/-- The request for one file. -/
def ofFile (p : Path) : CompileRequest := { filePath := some p }

/-- The request for a project. -/
def ofProject (p : Path) : CompileRequest := { projectPath := some p }

def target (r : CompileRequest) : Except RequestFault CompileTarget :=
  match r.filePath, r.projectPath with
  | some p, none => .ok (.file p)
  | none, some p => .ok (.project p)
  | some _, some _ => .error .bothTargets
  | none, none => .error .noTarget

/-- The options that the request sets. -/
def overrides (h : Host) (r : CompileRequest) : Options :=
  let options : Options := match r.outputDir with
    | some dir => ({} : Options).set .outDir (.text (h.absolute dir).text)
    | none => {}
  match r.sourceMap with
  | some b => options.set .sourceMap (.bool b)
  | none => options

def toJson (r : CompileRequest) : Json :=
  let path (p : Option Path) : Json := Json.ofOption (fun p => .str p.text) p
  .obj [("filePath", path r.filePath), ("projectPath", path r.projectPath),
    ("outputDir", path r.outputDir), ("sourceMap", Json.ofOption .bool r.sourceMap),
    ("watch", .bool r.watch)]

open Json.Decode in
/-- The fields of the record. -/
def fields : List (RecordField CompileRequest) :=
  let path := optional pathText
  [⟨"filePath", fun r v => (path v).map fun p => { r with filePath := p.map Path.mk }, false, false⟩,
    ⟨"projectPath", fun r v => (path v).map fun p => { r with projectPath := p.map Path.mk }, false,
      false⟩,
    ⟨"outputDir", fun r v => (path v).map fun p => { r with outputDir := p.map Path.mk }, false,
      false⟩,
    ⟨"sourceMap", fun r v => (optional bool v).map fun b => { r with sourceMap := b }, false, false⟩,
    ⟨"watch", fun r v => (bool v).map fun b => { r with watch := b }, false, true⟩]

def ofJson : Json.Decoder CompileRequest := Json.Decode.record "CompileRequest" fields {}

end CompileRequest

end ScriptWorks
