import ScriptWorks.Json.Basic

/-!
# TOML documents

Values and tables. A table keeps how it was made, since that decides what may still be added to it.
-/

namespace ScriptWorks

/-- How a table was made. -/
inductive Toml.Form where
  /-- By braces, or the document itself. -/
  | inline
  /-- By a header of its own. -/
  | header
  /-- By a longer header. -/
  | implied
  /-- By a key with dots. -/
  | dotted
deriving DecidableEq, Inhabited

/-- A TOML value. Of a point in time the text is kept, of a float whether it is within the range of
the binary format. -/
inductive Toml where
  | string (s : String)
  | integer (n : Int)
  | float (inRange : Bool)
  | boolean (b : Bool)
  | moment (text : String)
  | array (items : List Toml)
  | table (form : Toml.Form) (members : List (String × Toml))
  /-- The tables made by headers in doubled brackets. -/
  | tables (items : List Toml)
deriving Inhabited

namespace Toml

mutual

/-- Every number in the value is within its range: integers have at most 128 bits, and no float is
too large. -/
def inRange : Toml → Bool
  | .integer n => -2 ^ 127 ≤ n && n < 2 ^ 128
  | .float fits => fits
  | .array items | .tables items => itemsInRange items
  | .table _ members => membersInRange members
  | _ => true

def itemsInRange : List Toml → Bool
  | [] => true
  | v :: vs => v.inRange && itemsInRange vs

def membersInRange : List (String × Toml) → Bool
  | [] => true
  | (_, v) :: ms => v.inRange && membersInRange ms

end

/-- Changes the table that keys lead to. Tables on the way that are not there are made in the form
`made`. Keys with dots enter no table with a header, and nothing is added to a table in braces. -/
def change (made : Form) (f : Toml → Option Toml) : List String → Toml → Option Toml
  | [], t => f t
  | k :: ks, .table form members => do
    let next ← match Dict.get? members k with
      | none => change made f ks (.table made [])
      | some (.table .inline _) => none
      | some (.table inner ms) =>
        if made = .dotted ∧ inner = .header then none else change made f ks (.table inner ms)
      | some (.tables items) => do
        let last ← change made f ks (← items.getLast?)
        pure (.tables (items.dropLast ++ [last]))
      | some _ => none
    return .table form (Dict.insert members k next)
  | _ :: _, _ => none

/-- Opens the table of a header. It may be there already, but only by a longer header. -/
def openTable (k : String) : Toml → Option Toml
  | .table form members =>
    match Dict.get? members k with
    | none => some (.table form (Dict.insert members k (.table .header [])))
    | some (.table .implied inner) =>
      some (.table form (Dict.insert members k (.table .header inner)))
    | some _ => none
  | _ => none

/-- Appends a table to those of a header in doubled brackets. -/
def appendTable (k : String) : Toml → Option Toml
  | .table form members =>
    let fresh : Toml := .table .header []
    match Dict.get? members k with
    | none => some (.table form (Dict.insert members k (.tables [fresh])))
    | some (.tables items) => some (.table form (Dict.insert members k (.tables (items ++ [fresh]))))
    | some _ => none
  | _ => none

/-- Adds a value under a key that is not there yet. A key after dots belongs to a table made by
dots, and only there. -/
def addEntry (afterDots : Bool) (k : String) (v : Toml) : Toml → Option Toml
  | .table form members =>
    if (form == .dotted) != afterDots || (Dict.get? members k).isSome then none
    else some (.table form (Dict.insert members k v))
  | _ => none

/-- Applies `f` to the last key of a path, in the table that the other keys lead to. -/
def changeLast (made : Form) (f : String → Toml → Option Toml) (path : List String) (t : Toml) :
    Option Toml := do
  change made (f (← path.getLast?)) path.dropLast t

/-- Adds a value under a key with dots or without. -/
def insertAt (path : List String) (v : Toml) (t : Toml) : Option Toml :=
  changeLast .dotted (fun k => addEntry (1 < path.length) k v) path t

end Toml

end ScriptWorks
