import ScriptWorks.Json.Printer

/-!
# Records from JSON

Reading a record of known fields from a JSON value. A record is an object, whose fields are read in
the order of their keys, or an array of the fields in the order of their declaration.
-/

namespace ScriptWorks.Json

/-- Why a JSON value is not the record that was expected. -/
inductive Mismatch where
  | type (found : Json) (expected : String)
  | value (found : Json) (expected : String)
  | length (n : Nat) (expected : String)
  | missing (field : String)
  | variant (name : String) (allowed : List String)
deriving Inhabited

def Mismatch.message : Mismatch → String
  | .type found expected => s!"invalid type: {found.nature}, expected {expected}"
  | .value found expected => s!"invalid value: {found.nature}, expected {expected}"
  | .length n expected => s!"invalid length {n}, expected {expected}"
  | .missing field => s!"missing field `{field}`"
  | .variant name allowed =>
    let names := String.intercalate ", " (allowed.map fun a => s!"`{a}`")
    s!"unknown variant `{name}`, expected one of {names}"

/-- A way to read a value. -/
abbrev Decoder (α : Type) := Json → Except Mismatch α

namespace Decode

def bool : Decoder Bool
  | .bool b => .ok b
  | v => .error (.type v "a boolean")

def string : Decoder String
  | .str s => .ok s
  | v => .error (.type v "a string")

/-- The text of a path. -/
def pathText : Decoder String
  | .str s => .ok s
  | v => .error (.type v "path string")

/-- A number of 32 bits. -/
def word32 : Decoder Nat
  | .num (.int n) =>
    if 0 ≤ n ∧ n.toNat < Nat.pow 2 32 then .ok n.toNat else .error (.value (.num (.int n)) "u32")
  | v => .error (.type v "u32")

/-- A value or `null`. -/
def optional {α : Type} (d : Decoder α) : Decoder (Option α)
  | .null => .ok none
  | v => (d v).map some

/-- One of several names, alone or as the key of an object that holds `null`. -/
def oneOf {α : Type} (names : List String) (ofName? : String → Option α) : Decoder α
  | .str s =>
    match ofName? s with
    | some a => .ok a
    | none => .error (.variant s names)
  | .obj [(s, v)] =>
    match ofName? s, v with
    | none, _ => .error (.variant s names)
    | some a, .null => .ok a
    | some _, v => .error (.type v "unit")
  | .obj members => .error (.value (.obj members) "map with a single key")
  | v => .error (.type v "string or map")

def list {α : Type} (d : Decoder α) : Decoder (List α)
  | .arr items => items.mapM d
  | v => .error (.type v "a sequence")

/-- A field of a record `ρ`: how its value is put into the record, and what stands for it where the
object, or the array, does not have it. -/
structure RecordField (ρ : Type) where
  name : String
  store : ρ → Json → Except Mismatch ρ
  required : Bool
  optionalInArray : Bool := false

/-- Stores the member of an object in the field of its name. -/
def storeMember {ρ : Type} (fields : List (RecordField ρ)) (r : ρ) (member : String × Json) :
    Except Mismatch ρ :=
  match fields.find? (·.name = member.1) with
  | some f => f.store r member.2
  | none => .ok r

/-- Stores the items of an array in the fields, in order; `n` fields are stored already. -/
def storeItems {ρ : Type} (what : String) (n total : Nat) :
    List (RecordField ρ) → List Json → ρ → Except Mismatch ρ
  | [], [], r => .ok r
  | [], _ :: _, _ => .error (.length total "fewer elements in array")
  | f :: fs, [], r =>
    if f.optionalInArray then storeItems what (n + 1) total fs [] r else .error (.length n what)
  | f :: fs, v :: vs, r => do
    let r ← f.store r v
    storeItems what (n + 1) total fs vs r

/-- A record with the given fields; `empty` holds what absent fields are. -/
def record {ρ : Type} (typeName : String) (fields : List (RecordField ρ)) (empty : ρ) : Decoder ρ
  | .obj members => do
    let r ← members.foldlM (storeMember fields) empty
    match fields.find? fun f => f.required && !(Dict.keys members).contains f.name with
    | some f => .error (.missing f.name)
    | none => .ok r
  | .arr items =>
    storeItems s!"struct {typeName} with {fields.length} elements" 0 items.length fields items empty
  | v => .error (.type v s!"struct {typeName}")

end Decode

end ScriptWorks.Json
