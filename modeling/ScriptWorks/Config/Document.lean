import ScriptWorks.Diagnostic.Basic
import ScriptWorks.Jsonc
import ScriptWorks.Options.Basic
import ScriptWorks.Path.Normalize

/-!
# Configuration files

The contents of a project's configuration file, and how two of them are combined.
-/

namespace ScriptWorks

/-- What a configuration file says. -/
structure Config where
  compilerOptions : Dict Json := []
  includes : Option (List String) := none
  excludes : Option (List String) := none
  files : Option (List String) := none
  extends? : Option String := none
  /-- The directory to which `includes`, `excludes` and `files` are relative. -/
  specDir : Path := ⟨""⟩
deriving Inhabited

/-- Why a text is not a configuration. -/
inductive ConfigFault where
  | malformed (e : Json.SyntaxError)
  | notObject
  | optionsNotObject
  | notStrings (key : String)
  | extendsNotString
deriving DecidableEq, Inhabited

namespace ConfigFault

def message : ConfigFault → String
  | .malformed e => e.message
  | .notObject => "The root value of a 'tsconfig.json' file must be an object."
  | .optionsNotObject => "'compilerOptions' must be an object."
  | .notStrings key => s!"'{key}' must be an array of strings."
  | .extendsNotString => "'extends' must be a string."

/-- Line (from 1) and column of the fault; 0 where it has no place. -/
def place : ConfigFault → Nat × Nat
  | .malformed e => (e.line, e.column)
  | _ => (0, 0)

end ConfigFault

namespace Config

/-- A member that is a list of strings, or absent. -/
def stringList (root : Dict Json) (key : String) : Except ConfigFault (Option (List String)) :=
  match Dict.get? root key with
  | none | some .null => .ok none
  | some v =>
    match v.asStrings? with
    | some ss => .ok (some ss)
    | none => .error (.notStrings key)

/-- The member `compilerOptions`, an object or absent. -/
def optionsMember (root : Dict Json) : Except ConfigFault (Dict Json) :=
  match Dict.get? root "compilerOptions" with
  | none | some .null => .ok []
  | some (.obj members) => .ok members
  | some _ => .error .optionsNotObject

/-- The member `extends`, a string or absent. -/
def extendsMember (root : Dict Json) : Except ConfigFault (Option String) :=
  match Dict.get? root "extends" with
  | none | some .null => .ok none
  | some (.str s) => .ok (some s)
  | some _ => .error .extendsNotString

/-- The configuration that an object is. -/
def ofMembers (root : Dict Json) : Except ConfigFault Config := do
  let compilerOptions ← optionsMember root
  let includes ← stringList root "include"
  let excludes ← stringList root "exclude"
  let files ← stringList root "files"
  let extends? ← extendsMember root
  return { compilerOptions, includes, excludes, files, extends? }

/-- The configuration that a JSON value is. -/
def ofJson (v : Json) : Except ConfigFault Config :=
  match v.asObject? with
  | some root => ofMembers root
  | none => .error .notObject

/-- The configuration that a text is. -/
def parse (text : String) : Except ConfigFault Config :=
  match Jsonc.parse text with
  | .ok v => ofJson v
  | .error e => .error (.malformed e)

/-- Some of `includes`, `excludes` and `files` is set. -/
def hasSpecs (c : Config) : Bool := c.includes.isSome || c.excludes.isSome || c.files.isSome

/-- The directory of a configuration file. -/
def dirOf (p : Path) : Path :=
  match p.parent? with
  | some q => if q.isEmpty then ⟨"."⟩ else q
  | none => ⟨"."⟩

/-- A path option as a path from `dir`; other values stay. -/
def anchorValue (dir : Path) : Json → Json
  | .str raw => .str (dir.join ⟨raw⟩).normalize.text
  | v => v

/-- The options whose values are paths. -/
def pathOptions : List CompilerOption := CompilerOption.all.filter (·.kind = .path)

/-- Makes the path options independent of the directory of the file. -/
def anchorOptions (dir : Path) (options : Dict Json) : Dict Json :=
  options.map fun (k, v) => if pathOptions.any (·.name = k) then (k, anchorValue dir v) else (k, v)

/-- What `top` says wins over `base`. Lists of one file stay relative to its directory. -/
def merge (base top : Config) : Config where
  compilerOptions := Dict.overlay base.compilerOptions top.compilerOptions
  includes := top.includes.or base.includes
  excludes := top.excludes.or base.excludes
  files := top.files.or base.files
  extends? := none
  specDir := if !top.hasSpecs && base.hasSpecs then base.specDir else top.specDir

end Config

end ScriptWorks
