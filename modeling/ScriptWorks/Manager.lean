import ScriptWorks.Failure
import ScriptWorks.FileSystem.Host
import ScriptWorks.Jsonc
import ScriptWorks.Json.Printer
import ScriptWorks.Options.Basic

/-!
# Managing configuration files

Creating and changing configuration files. A document is checked as a whole before it is written, so
that a refused change leaves the file as it was.
-/

namespace ScriptWorks.Manager

/-- The options of a new project. -/
def defaultOptions : Json := .ofMembers [
  ("target", .str "ES2020"), ("module", .str "commonjs"), ("moduleResolution", .str "node"),
  ("lib", .ofStrings ["ES2020"]), ("outDir", .str "./dist"), ("rootDir", .str "./src"),
  ("strict", .bool true), ("esModuleInterop", .bool true), ("skipLibCheck", .bool true),
  ("forceConsistentCasingInFileNames", .bool true), ("declaration", .bool true),
  ("declarationMap", .bool true), ("sourceMap", .bool true)]

/-- The configuration of a new project. -/
def defaultConfig : Json := .ofMembers [
  ("compilerOptions", defaultOptions), ("include", .ofStrings ["src/**/*"]),
  ("exclude", .ofStrings ["node_modules", "dist"])]

/-! ## Checking a document -/

/-- What is wrong with a member of `compilerOptions`. -/
def optionIssue? (member : String × Json) : Option Issue := do
  let o ← CompilerOption.ofName? member.1
  match o.readValue member.2 with
  | .ok _ => none
  | .error e => some ⟨s!"compilerOptions.{member.1}", e.message⟩

def optionsIssues : Option Json → List Issue
  | none => []
  | some (.obj members) => members.filterMap optionIssue?
  | some _ => [⟨"compilerOptions", "must be an object"⟩]

def listIssues (root : Dict Json) (key : String) : List Issue :=
  match Dict.get? root key with
  | none => []
  | some v => if v.asStrings?.isSome then [] else [⟨key, "must be an array of strings"⟩]

def extendsIssues : Option Json → List Issue
  | none | some (.str _) => []
  | some _ => [⟨"extends", "must be a string"⟩]

def notObject : Issue := ⟨"$", "configuration must be a JSON object"⟩

/-- What is wrong with a configuration document. -/
def issues (config : Json) : List Issue :=
  match config with
  | .obj root =>
    optionsIssues (Dict.get? root "compilerOptions") ++
      ["include", "exclude", "files"].flatMap (listIssues root) ++
      extendsIssues (Dict.get? root "extends")
  | _ => [notObject]

/-! ## Changing a document -/

/-- Sets an option, or takes it away where the value is `null`. -/
def change (members : Dict Json) (setting : String × Json) : Dict Json :=
  match setting.2 with
  | .null => Dict.erase members setting.1
  | v => Dict.insert members setting.1 v

/-- Changes the options of a document. A document whose options are no object stays as it is. -/
def applyOptions (settings : Dict Json) (config : Json) : Json :=
  match config with
  | .obj root =>
    match (Dict.get? root "compilerOptions").getD (.obj []) with
    | .obj members =>
      .obj (Dict.insert root "compilerOptions" (.obj (settings.foldl change members)))
    | _ => config
  | _ => config

/-- The text of a configuration file. -/
def fileText (config : Json) : String := config.pretty ++ "\n"

/-! ## Files -/

/-- A configuration file that was written. -/
structure Written where
  path : Path
  config : Json
deriving Inhabited

variable {ω : Type} [FileSystem ω]

/-- The configuration file that a path of a file or a directory stands for. -/
def configPath (w : ω) (fileName : String) (p : Path) : Path :=
  if p.fileName? = some fileName ∨ FileSystem.isFile w p then p else p.child fileName

/-- Checks a document and writes it. -/
def write (w : ω) (p : Path) (config : Json) : Except Failure Written × ω :=
  match issues config with
  | [] =>
    match FileSystem.writeText w p (fileText config) with
    | (.ok (), w) => (.ok ⟨p, config⟩, w)
    | (.error e, w) => (.error (.io p e), w)
  | found => (.error (.invalidConfig found), w)

/-- Writes the default configuration, with some options set, where no file is yet. -/
def create (w : ω) (fileName : String) (dir : Path) (settings : Dict Json) :
    Except Failure Written × ω :=
  let p := dir.child fileName
  if FileSystem.pathExists w p then (.error (.configExists p), w)
  else write w p (applyOptions settings defaultConfig)

/-- Sets options of an existing configuration. -/
def update (w : ω) (fileName : String) (path : Path) (settings : Dict Json) :
    Except Failure Written × ω :=
  let p := configPath w fileName path
  if !FileSystem.isFile w p then (.error (.configNotFound p), w)
  else
    match FileSystem.readText w p with
    | .error e => (.error (.io p e), w)
    | .ok text =>
      match Jsonc.parse text with
      | .error e =>
        (.error (.invalidConfig [⟨fileName, s!"existing file is not valid JSON: {e.message}"⟩]), w)
      | .ok (.obj root) => write w p (applyOptions settings (.obj root))
      | .ok _ => (.error (.invalidConfig [notObject]), w)

end ScriptWorks.Manager
