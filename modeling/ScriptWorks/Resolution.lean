import ScriptWorks.Engine.Basic
import ScriptWorks.Failure
import ScriptWorks.Options.Layer

/-!
# Resolution of options

The options of a compilation: those of the request over those of the nearest configuration over the
defaults.
-/

namespace ScriptWorks

/-- The options of a compilation, and where they come from. -/
structure Resolved where
  options : Options
  origins : Dict Origin
  configPath : Option Path := none
  /-- The root files of the configuration. -/
  fileNames : List Path := []
  /-- What is wrong with the configuration. -/
  diagnostics : List Diagnostic := []
deriving Inhabited

namespace Resolved

def hasErrors (r : Resolved) : Bool := !r.diagnostics.isEmpty

def origin? (r : Resolved) (key : String) : Option Origin := Dict.get? r.origins key

/-- Options over those of a configuration over the defaults. -/
def ofProject (configPath : Option Path) (project : Project) (overrides : Options) : Resolved :=
  let l := Options.layer Options.builtin project.options overrides
  { options := l.options, origins := l.origins, configPath
    fileNames := project.fileNames, diagnostics := project.errors }

end Resolved

namespace Engine

variable {ω π : Type} [FileSystem ω]

/-- The nearest configuration file at or above a path. The search for a file starts in its
directory. -/
def findConfig (e : Engine ω π) (w : ω) (start : Path) : Option Path :=
  let dir := if FileSystem.isFile w start then start.parent?.getD start else start
  (dir.ancestors.map (·.child e.configFileName)).find? (FileSystem.isFile w)

/-- Options with a certain configuration file. -/
def resolveWith (e : Engine ω π) (w : ω) (config : Path) (overrides : Options) : Resolved :=
  .ofProject (some config) (e.readProject w config) overrides

/-- Options with the nearest configuration file, if there is one. -/
def resolve (e : Engine ω π) (w : ω) (start : Path) (overrides : Options) : Resolved :=
  match e.findConfig w start with
  | some config => e.resolveWith w config overrides
  | none => .ofProject none {} overrides

/-- Options of a project, whose directory has to hold a configuration file. -/
def resolveProject (e : Engine ω π) (w : ω) (dir : Path) (overrides : Options) :
    Except Failure Resolved :=
  let config := dir.child e.configFileName
  if FileSystem.isFile w config then .ok (e.resolveWith w config overrides)
  else .error (.projectConfigNotFound dir e.configFileName)

end Engine

end ScriptWorks
