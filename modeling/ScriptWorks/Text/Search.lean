import ScriptWorks.Text.Utf8

/-!
# Searching

Where a text occurs in another one.
-/

namespace ScriptWorks.Text

/-- The byte offset of the first place from which the text goes on with `needle`. -/
def find? (needle : List Char) : List Char → Option Nat
  | [] => if needle = [] then some 0 else none
  | c :: cs =>
    if needle.isPrefixOf (c :: cs) then some 0 else (find? needle cs).map (· + c.utf8Size)

/-- The text from a byte offset on. -/
def dropBytes : Nat → List Char → List Char
  | 0, cs => cs
  | _, [] => []
  | n, c :: cs => dropBytes (n - c.utf8Size) cs

/-- The byte offsets of all places, from `offset` on, at which `needle` stands; places do not overlap.
`skip` is the number of characters still inside the last one. The empty text stands before every
character and at the end. -/
def occurrences (needle : List Char) (offset skip : Nat) : List Char → List Nat
  | [] => if needle = [] then [offset] else []
  | c :: cs =>
    match skip with
    | k + 1 => occurrences needle (offset + c.utf8Size) k cs
    | 0 =>
      if needle.isPrefixOf (c :: cs) then
        offset :: occurrences needle (offset + c.utf8Size) (needle.length - 1) cs
      else occurrences needle (offset + c.utf8Size) 0 cs

/-- The text contains `needle`. -/
def containsText (needle s : String) : Bool := (find? needle.toList s.toList).isSome

end ScriptWorks.Text
