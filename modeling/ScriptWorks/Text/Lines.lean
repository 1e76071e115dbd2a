/-!
# Lines

Cutting a text at a separator, and into lines.
-/

namespace ScriptWorks.Text

/-- Cuts at every `sep`; the pieces are one more than the separators. -/
def cut (sep : Char) : List Char → List (List Char)
  | [] => [[]]
  | c :: cs =>
    if c = sep then [] :: cut sep cs
    else
      match cut sep cs with
      | [] => [[c]]
      | piece :: pieces => (c :: piece) :: pieces

/-- Puts the pieces together again with `sep` between them. -/
def glue (sep : Char) : List (List Char) → List Char
  | [] => []
  | [piece] => piece
  | piece :: pieces => piece ++ sep :: glue sep pieces

theorem cut_ne_nil (sep : Char) (cs : List Char) : cut sep cs ≠ [] := by
  cases cs with
  | nil => simp [cut]
  | cons c cs => by_cases h : c = sep <;> simp [cut, h]; split <;> simp

@[simp] theorem glue_cut (sep : Char) (cs : List Char) : glue sep (cut sep cs) = cs := by
  induction cs with
  | nil => rfl
  | cons c cs ih =>
    by_cases h : c = sep
    · obtain ⟨piece, pieces, hp⟩ := List.exists_cons_of_ne_nil (cut_ne_nil sep cs)
      rw [hp] at ih
      simp [cut, h, hp, glue, ih]
    · obtain ⟨piece, pieces, hp⟩ := List.exists_cons_of_ne_nil (cut_ne_nil sep cs)
      rw [hp] at ih
      simp only [cut, h, ↓reduceIte, hp]
      cases pieces <;> simp_all [glue]

/-- One carriage return at the end belongs to the line's end. -/
def dropCarriageReturn (line : List Char) : List Char :=
  match line.getLast? with
  | some '\r' => line.dropLast
  | _ => line

/-- The lines of a text. What follows the last line end counts only if it is not empty, and is kept as
it is. -/
def lines (cs : List Char) : List (List Char) :=
  let pieces := cut '\n' cs
  pieces.dropLast.map dropCarriageReturn ++ (pieces.getLast?.filter (· ≠ [])).toList

/-- The pieces of a string between the separators. -/
def cutString (sep : Char) (s : String) : List String :=
  (cut sep s.toList).map String.ofList

end ScriptWorks.Text
