import ScriptWorks.Number.Binary64

/-!
# JSON values

Objects are lists of members in increasing order of their keys, each key once. `Dict` holds the
operations that keep this order; they serve every table with text keys.
-/

namespace ScriptWorks

/-- A table with text keys, in increasing order of the keys. -/
abbrev Dict (α : Type) := List (String × α)

namespace Dict

variable {α : Type}

/-- The value stored under a key. -/
def get? (d : Dict α) (k : String) : Option α := (d.find? (·.1 = k)).map (·.2)

/-- Stores a value under a key; what was there before is replaced. -/
def insert : Dict α → String → α → Dict α
  | [], k, v => [(k, v)]
  | (k', v') :: d, k, v =>
    if k = k' then (k, v) :: d
    else if k < k' then (k, v) :: (k', v') :: d
    else (k', v') :: insert d k v

/-- Removes a key. -/
def erase (d : Dict α) (k : String) : Dict α := d.filter (·.1 ≠ k)

/-- The entries of `e` replace those of `d`; all others are kept. -/
def overlay (d e : Dict α) : Dict α := e.foldl (fun d p => insert d p.1 p.2) d

/-- The table of a list of pairs; of two values for one key the last counts. -/
def ofList (ps : List (String × α)) : Dict α := overlay [] ps

/-- The keys, in order. -/
def keys (d : Dict α) : List String := d.map (·.1)

/-- The keys strictly increase. -/
def Sorted (d : Dict α) : Prop := d.keys.Pairwise (· < ·)

end Dict

/-- A JSON number: an integer of at most 64 bits, or a floating point number. -/
inductive Json.Number where
  | int (n : Int)
  | float (x : Binary64)
deriving DecidableEq, Inhabited

/-- A JSON value. -/
inductive Json where
  | null
  | bool (b : Bool)
  | num (n : Json.Number)
  | str (s : String)
  | arr (items : List Json)
  | obj (members : List (String × Json))
deriving Inhabited

namespace Json

def asBool? : Json → Option Bool
  | .bool b => some b
  | _ => none

def asString? : Json → Option String
  | .str s => some s
  | _ => none

def asArray? : Json → Option (List Json)
  | .arr items => some items
  | _ => none

def asObject? : Json → Option (Dict Json)
  | .obj members => some members
  | _ => none

/-- An array of strings. -/
def asStrings? (v : Json) : Option (List String) := v.asArray?.bind (·.mapM asString?)

/-- The member of an object under a key. -/
def member? (v : Json) (k : String) : Option Json := v.asObject?.bind (Dict.get? · k)

/-- An object with the given members. -/
def ofMembers (ps : List (String × Json)) : Json := .obj (Dict.ofList ps)

def ofNat (n : Nat) : Json := .num (.int n)

def ofStrings (ss : List String) : Json := .arr (ss.map .str)

/-- `null` for an absent value. -/
def ofOption {α : Type} (f : α → Json) : Option α → Json
  | none => .null
  | some a => f a

end Json

end ScriptWorks
