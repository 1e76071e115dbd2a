import ScriptWorks.Config.Files
import ScriptWorks.Text.Search

/-!
# Projects

What a configuration file amounts to: options, root files, and errors.
-/

namespace ScriptWorks

/-- What a configuration file amounts to. -/
structure Project where
  options : Options := {}
  fileNames : List Path := []
  /-- What is wrong with the configuration; nothing else is looked at then. -/
  errors : List Diagnostic := []
deriving Inhabited

namespace Project

/-- A key as it stands in a file. -/
def inQuotes (key : String) : List Char := '"' :: key.toList ++ ['"']

/-- Byte offset and length of the first place after the options' key where an option's key stands. -/
def keyPlace? (text : String) (name : String) : Option (Nat × Nat) := do
  let key := inQuotes name
  let first ← Text.find? (inQuotes "compilerOptions") text.toList
  let further ← Text.find? key (Text.dropBytes first text.toList)
  return (first + further, Text.byteLength key)

/-- The error for a refused option. It has a place if the file itself sets the option. -/
def optionError (file : SourceText) (ownKeys : List String) (e : OptionError) : Diagnostic :=
  let place := if ownKeys.contains e.option.name then keyPlace? file.text e.option.name else none
  match place with
  | some (start, length) => .spanning file start length e.code e.message
  | none => .global e.code e.message

/-- Reads the project of a configuration file. -/
def read (h : Host) (p : Path) : Project :=
  match Config.loadWithExtends h p with
  | .error e => { errors := [e.diagnostic] }
  | .ok c =>
    let (options, optionErrors) := Options.ofJson c.compilerOptions
    let text := (h.readText p).toOption.getD ""
    let ownKeys := match Config.parse text with
      | .ok own => Dict.keys own.compilerOptions
      | .error _ => []
    let (fileNames, fileErrors) := Config.rootFiles h c options p
    { options, fileNames
      errors := optionErrors.map (optionError ⟨p.text, text⟩ ownKeys) ++ fileErrors }

end Project

end ScriptWorks
