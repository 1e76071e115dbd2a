import ScriptWorks.Json.Basic
import ScriptWorks.Options.Schema

/-!
# Option values

The values of schema options, read from JSON under the rules of the schema.
-/

namespace ScriptWorks

/-- The value of a schema option. -/
inductive OptionValue where
  | bool (b : Bool)
  | text (s : String)
  | list (items : List String)
deriving DecidableEq, Inhabited

namespace OptionValue

def asBool? : OptionValue → Option Bool
  | .bool b => some b
  | _ => none

def asText? : OptionValue → Option String
  | .text s => some s
  | _ => none

def toJson : OptionValue → Json
  | .bool b => .bool b
  | .text s => .str s
  | .list items => Json.ofStrings items

/-- Reads a value by its own shape, whatever the option. -/
def ofJson? : Json → Option OptionValue
  | .bool b => some (.bool b)
  | .str s => some (.text s)
  | .arr items => (items.mapM Json.asString?).map .list
  | _ => none

end OptionValue

/-- Why a value is refused for an option. -/
inductive OptionError where
  | wrongType (option : CompilerOption) (expected : String)
  | notAllowed (option : CompilerOption) (value : String)
deriving DecidableEq, Inhabited

namespace OptionError

def option : OptionError → CompilerOption
  | .wrongType o _ => o
  | .notAllowed o _ => o

def message : OptionError → String
  | .wrongType o expected =>
    s!"Compiler option '{o.name}' requires a value of type {expected}."
  | .notAllowed o _ =>
    let allowed := match o.kind with
      | .word words => String.intercalate ", " words
      | _ => ""
    s!"Argument for '--{o.name}' option must be: {allowed}."

/-- The number under which the error is reported. -/
def code : OptionError → Nat
  | .wrongType .. => 5024
  | .notAllowed .. => 6046

end OptionError

namespace CompilerOption

/-- The words agree when the case of ASCII letters is ignored. -/
def sameWord (s t : String) : Bool := s.toList.map Char.toLower = t.toList.map Char.toLower

/-- Reads the value of an option. -/
def readValue (o : CompilerOption) (v : Json) : Except OptionError OptionValue :=
  match o.kind with
  | .bool =>
    match v.asBool? with
    | some b => .ok (.bool b)
    | none => .error (.wrongType o "boolean")
  | .path =>
    match v.asString? with
    | some s => .ok (.text s)
    | none => .error (.wrongType o "string")
  | .word allowed =>
    match v.asString? with
    | some s => if allowed.any (sameWord · s) then .ok (.text s) else .error (.notAllowed o s)
    | none => .error (.wrongType o "string")
  | .list =>
    match v.asStrings? with
    | some items => .ok (.list items)
    | none => .error (.wrongType o "list")

end CompilerOption

end ScriptWorks
