import Mathlib.Data.List.DropRight
import ScriptWorks.Proofs.Path.Tidy
import ScriptWorks.Text.Blank

/-!
# Texts

Facts about blanks at the ends of a text, about lines, which are found again in the text that is put
together from them, and about the digits of numbers.
-/

namespace ScriptWorks.Text

variable {cs ds : List Char}

/-! ## Blanks at the ends -/

theorem trimEnd_eq_rdropWhile (cs : List Char) : trimEnd cs = cs.rdropWhile isBlank := rfl

theorem trimEnd_eq_nil_iff : trimEnd cs = [] ↔ ∀ c ∈ cs, isBlank c = true := by
  rw [trimEnd_eq_rdropWhile, List.rdropWhile_eq_nil_iff]

theorem trimEnd_of_getLast? (h : ∀ c ∈ cs.getLast?, isBlank c = false) : trimEnd cs = cs := by
  rw [trimEnd_eq_rdropWhile, List.rdropWhile_eq_self_iff]
  intro hne
  rw [h _ (List.getLast?_eq_some_getLast hne)]
  exact Bool.false_ne_true

/-- Only a blank text loses its first character. -/
theorem head?_trimEnd (h : trimEnd cs ≠ []) : (trimEnd cs).head? = cs.head? := by
  obtain ⟨ds, hds⟩ : trimEnd cs <+: cs := List.rdropWhile_prefix isBlank cs
  obtain ⟨c, rest, hc⟩ := List.exists_cons_of_ne_nil h
  rw [hc] at hds ⊢
  rw [← hds]
  rfl

theorem trimEnd_append (h : trimEnd ds ≠ []) : trimEnd (cs ++ ds) = cs ++ trimEnd ds := by
  have hne : (ds.reverse.dropWhile isBlank).isEmpty = false := by
    rw [List.isEmpty_eq_false_iff]
    exact fun hnil => h (congrArg List.reverse hnil)
  simp [trimEnd, dropEndWhile, List.dropWhile_append, hne]

theorem trimStart_append (h : ∀ c ∈ cs, isBlank c = true) : trimStart (cs ++ ds) = trimStart ds :=
  List.dropWhile_append_of_pos h

theorem trimStart_of_head? (h : ∀ c ∈ cs.head?, isBlank c = false) : trimStart cs = cs := by
  cases cs with
  | nil => rfl
  | cons c cs => exact List.dropWhile_cons_of_neg (by simp [h c rfl])

/-- The longest run ends where the first character that is not in its class comes. -/
theorem takeWhile_append_of_head? {p : Char → Bool} (hcs : ∀ c ∈ cs, p c = true)
    (hds : ∀ d ∈ ds.head?, p d = false) : (cs ++ ds).takeWhile p = cs := by
  rw [List.takeWhile_append_of_pos hcs]
  cases ds with
  | nil => simp
  | cons d ds => rw [List.takeWhile_cons_of_neg (by simp [hds d rfl]), List.append_nil]

/-- A text that is not blank is blanks and then a text that starts with something else. -/
theorem exists_indentation (h : trimEnd cs ≠ []) : ∃ blanks text, cs = blanks ++ text ∧
    (∀ c ∈ blanks, isBlank c = true) ∧ (∀ c ∈ text.head?, isBlank c = false) ∧
    trimEnd text ≠ [] := by
  refine ⟨cs.takeWhile isBlank, cs.dropWhile isBlank, List.takeWhile_append_dropWhile.symm,
    List.all_eq_true.mp List.all_takeWhile, fun c hc => ?_, fun hnil => h ?_⟩
  · have hnot := List.head?_dropWhile_not isBlank cs
    rw [hc] at hnot
    exact hnot
  · rw [trimEnd_eq_nil_iff] at hnil ⊢
    intro c hc
    rw [← List.takeWhile_append_dropWhile (p := isBlank) (l := cs), List.mem_append] at hc
    exact hc.elim (List.all_eq_true.mp List.all_takeWhile c) (hnil c)

/-- Cutting blanks off the end leaves those at the start. -/
theorem takeWhile_trimEnd (h : trimEnd cs ≠ []) :
    (trimEnd cs).takeWhile isBlank = cs.takeWhile isBlank := by
  obtain ⟨blanks, text, rfl, hblanks, htext, hne⟩ := exists_indentation h
  rw [trimEnd_append hne, takeWhile_append_of_head? hblanks htext,
    takeWhile_append_of_head? hblanks (by rwa [head?_trimEnd hne])]

/-- The blanks at the ends may be cut off in either order. -/
theorem trimStart_trimEnd (h : trimEnd cs ≠ []) : trimStart (trimEnd cs) = trim cs := by
  obtain ⟨blanks, text, rfl, hblanks, htext, hne⟩ := exists_indentation h
  rw [trimEnd_append hne, trimStart_append hblanks, trim, trimStart_append hblanks,
    trimStart_of_head? htext, trimStart_of_head? (by rwa [head?_trimEnd hne])]

/-! ## Lines -/

/-- A text that is read as one line. -/
structure IsLine (cs : List Char) : Prop where
  ne_nil : cs ≠ []
  noLineEnd : '\n' ∉ cs
  noReturn : cs.getLast? ≠ some '\r'

theorem IsLine.dropCarriageReturn_eq (h : IsLine cs) : dropCarriageReturn cs = cs := by
  unfold dropCarriageReturn
  split
  · rename_i hlast
    exact absurd hlast h.noReturn
  · rfl

/-- Lines are found again in the text that has line ends between them. -/
theorem lines_glue {ps : List (List Char)} (h : ∀ p ∈ ps, IsLine p) : lines (glue '\n' ps) = ps := by
  by_cases hps : ps = []
  · rw [hps]
    rfl
  · obtain ⟨init, last, rfl⟩ := List.eq_nil_or_concat' ps |>.resolve_left hps
    have hlast := h last (List.mem_append_right _ (List.mem_singleton_self last))
    have hinit : init.map dropCarriageReturn = init :=
      (List.map_congr_left fun p hp =>
        (h p (List.mem_append_left _ hp)).dropCarriageReturn_eq).trans (List.map_id init)
    rw [lines, cut_glue hps fun p hp => (h p hp).noLineEnd]
    simp [hinit, Option.filter, hlast.ne_nil]

/-! ## Numbers -/

theorem isDigit_of_mem_repr {n : Nat} {c : Char} (h : c ∈ (Nat.repr n).toList) : c.isDigit = true := by
  rw [Nat.toList_repr] at h
  exact Nat.isDigit_of_mem_toDigits (by decide) (by decide) h

theorem toList_repr_ne_nil (n : Nat) : (Nat.repr n).toList ≠ [] := by
  rw [Nat.toList_repr]
  exact Nat.toDigits_ne_nil

/-- The digits of a number have its value. -/
theorem ofDigitChars_repr (n : Nat) : Nat.ofDigitChars 10 (Nat.repr n).toList 0 = n := by
  rw [Nat.toList_repr]
  exact Nat.ofDigitChars_ten_toDigits

/-- Of all numbers only zero has the digit zero first. -/
theorem exists_repr_eq_cons (n : Nat) :
    ∃ c cs, (Nat.repr n).toList = c :: cs ∧ (c = '0' → n = 0) := by
  rw [Nat.toList_repr]
  induction n using Nat.strongRecOn with
  | ind n ih =>
      by_cases hn : n < 10
      · exact ⟨n.digitChar, [], Nat.toDigits_of_lt_base hn, Nat.digitChar_eq_zero.mp⟩
      · obtain ⟨c, cs, hdigits, hzero⟩ := ih (n / 10) (by omega)
        refine ⟨c, cs ++ [(n % 10).digitChar], ?_, fun hc => ?_⟩
        · rw [Nat.toDigits_of_base_le (by decide) (by omega), hdigits, List.cons_append]
        · have hdiv := hzero hc
          omega

end ScriptWorks.Text
