import ScriptWorks.FileSystem.Error
import ScriptWorks.Json.Fault

/-!
# Failures

What ends an operation without a result. Diagnostics are results and not failures.
-/

namespace ScriptWorks

/-- A part of a configuration that is not allowed, and why. -/
structure Issue where
  option : String
  message : String
deriving DecidableEq, Inhabited

def Issue.display (i : Issue) : String := s!"{i.option}: {i.message}"

/-- Why a request cannot be carried out as it is. -/
inductive RequestFault where
  | bothTargets
  | noTarget
  | watchNeedsFile
deriving DecidableEq, Inhabited

def RequestFault.message : RequestFault → String
  | .bothTargets => "specify either filePath or projectPath, not both"
  | .noTarget => "one of filePath or projectPath is required"
  | .watchNeedsFile => "watch mode requires filePath"

/-- What ends an operation. -/
inductive Failure where
  | sourceNotFound (path : Path)
  | projectConfigNotFound (dir : Path) (fileName : String)
  | configNotFound (path : Path)
  | configExists (path : Path)
  | invalidConfig (issues : List Issue)
  | invalidRequest (fault : RequestFault)
  | io (path : Path) (cause : FileError)
  | watch (reason : String)
  | json (cause : Json.SyntaxError)
  | internal (reason : String)
deriving DecidableEq, Inhabited

namespace Failure

def message : Failure → String
  | .sourceNotFound p => s!"Source file not found: {p.text}"
  | .projectConfigNotFound dir name => s!"No {name} found in project directory {dir.text}"
  | .configNotFound p => s!"Configuration file not found: {p.text}"
  | .configExists p => s!"Configuration file already exists: {p.text}"
  | .invalidConfig issues =>
    "Invalid configuration: " ++ String.intercalate "; " (issues.map Issue.display)
  | .invalidRequest fault => s!"Invalid request: {fault.message}"
  | .io p cause => s!"I/O error at {p.text}: {cause.message}"
  | .watch reason => s!"Watch error: {reason}"
  | .json cause => cause.message
  | .internal reason => s!"Internal error: {reason}"

/-- Something that the operation needs is not there. -/
def isNotFound : Failure → Bool
  | .sourceNotFound _ | .projectConfigNotFound .. | .configNotFound _ => true
  | _ => false

/-- The name of the kind of failure. -/
def kind : Failure → String
  | .sourceNotFound _ => "SourceNotFound"
  | .projectConfigNotFound .. => "ProjectConfigNotFound"
  | .configNotFound _ => "ConfigNotFound"
  | .configExists _ => "ConfigExists"
  | .invalidConfig _ => "InvalidConfig"
  | .invalidRequest _ => "InvalidRequest"
  | .io .. => "Io"
  | .watch _ => "Watch"
  | .json _ => "Json"
  | .internal _ => "Internal"

end Failure

end ScriptWorks
