import Mathlib.Data.List.Induction
import ScriptWorks.Proofs.Source.Position

/-!
# Lines and columns of bytes

Where columns count bytes, the line and column after some bytes of a text are those of the characters
that the bytes are from: the line ends before, and the bytes since the last one.
-/

namespace ScriptWorks.Text

/-! ## The bytes of a character -/

/-- The byte of a line end is in no other character. -/
theorem newline_mem_utf8EncodeChar {c : Char} :
    (10 : UInt8) ∈ String.utf8EncodeChar c ↔ c = '\n' := by
  constructor
  · intro h
    have hvalue : c.val.toNat = 10 := by
      have hlt := c.val.toNat_lt
      revert h
      fun_cases String.utf8EncodeChar c
      all_goals
        intro h
        simp only [List.mem_cons, List.not_mem_nil, or_false, ← UInt8.toNat_inj, UInt8.toNat_ofNat',
          UInt8.reduceToNat] at h
        omega
    exact Char.ext (UInt32.toNat_inj.mp hvalue)
  · rintro rfl
    decide

theorem length_bytes (cs : List Char) : (bytes cs).length = byteLength cs := by
  induction cs with
  | nil => rfl
  | cons c cs ih =>
      rw [bytes, List.flatMap_cons, List.length_append, String.length_utf8EncodeChar, byteLength_cons,
        ← ih]
      rfl

theorem bytes_append (cs ds : List Char) : bytes (cs ++ ds) = bytes cs ++ bytes ds :=
  List.flatMap_append

/-! ## The last line -/

/-- What stands after the last line end. -/
def lastLine (cs : List Char) : List Char := (cs.reverse.takeWhile (· ≠ '\n')).reverse

theorem lastLine_concat (cs : List Char) (c : Char) :
    lastLine (cs ++ [c]) = if c = '\n' then [] else lastLine cs ++ [c] := by
  by_cases hc : c = '\n' <;> simp [lastLine, hc]

/-- Bytes without a line end only move the column. -/
theorem lineColumnAfter_append {bs : List UInt8} (h : (10 : UInt8) ∉ bs) (before : List UInt8) :
    lineColumnAfter (before ++ bs) =
      ((lineColumnAfter before).1, (lineColumnAfter before).2 + bs.length) := by
  induction bs generalizing before with
  | nil => simp
  | cons b bs ih =>
      rw [List.mem_cons, not_or] at h
      have hstep : lineColumnAfter (before ++ [b]) =
          ((lineColumnAfter before).1, (lineColumnAfter before).2 + 1) := by
        rw [lineColumnAfter, List.foldl_append, List.foldl_cons, List.foldl_nil, if_neg (Ne.symm h.1)]
        rfl
      rw [List.append_cons, ih h.2, hstep, List.length_cons, Nat.add_assoc, Nat.add_comm 1]

theorem lineColumnAfter_concat_newline (before : List UInt8) :
    lineColumnAfter (before ++ [10]) = ((lineColumnAfter before).1 + 1, 0) := by
  rw [lineColumnAfter, List.foldl_append]
  rfl

/-- After whole characters the line counts the line ends and the column the bytes since the last. -/
theorem lineColumnAfter_bytes (cs : List Char) :
    lineColumnAfter (bytes cs) = (cs.count '\n' + 1, byteLength (lastLine cs)) := by
  induction cs using List.reverseRecOn with
  | nil => rfl
  | append_singleton cs c ih =>
      have hlast : bytes [c] = String.utf8EncodeChar c := List.flatMap_singleton _ _
      rw [bytes_append, hlast, lastLine_concat]
      by_cases hc : c = '\n'
      · subst hc
        have hbytes : String.utf8EncodeChar '\n' = [10] := by decide
        rw [hbytes, lineColumnAfter_concat_newline, ih]
        simp
      · rw [lineColumnAfter_append (fun h => hc (newline_mem_utf8EncodeChar.mp h)), ih]
        simp [hc, List.count_eq_zero_of_not_mem, Ne.symm hc]

/-- After some bytes of a character, but for a line end, the column counts them. -/
theorem lineColumnAfter_inside (before after : List Char) {c : Char} (hc : c ≠ '\n') {k : Nat}
    (hk : k ≤ c.utf8Size) :
    lineColumnAfter ((bytes (before ++ c :: after)).take (byteLength before + k)) =
      (before.count '\n' + 1, byteLength (lastLine before) + k) := by
  have hbytes : bytes (before ++ c :: after) =
      bytes before ++ (String.utf8EncodeChar c ++ bytes after) := by
    rw [bytes_append]
    rfl
  have hlength := String.length_utf8EncodeChar c
  have hnone : (10 : UInt8) ∉ (String.utf8EncodeChar c).take k :=
    fun h => hc (newline_mem_utf8EncodeChar.mp (List.mem_of_mem_take h))
  rw [hbytes, ← length_bytes before, List.take_length_add_append,
    List.take_append_of_le_length (by omega), lineColumnAfter_append hnone, lineColumnAfter_bytes,
    List.length_take, hlength, Nat.min_eq_left hk]

/-! ## Whole characters -/

/-- How many characters have all their bytes among the first `o` bytes. -/
def charsWithin : Nat → List Char → Nat
  | _, [] => 0
  | o, c :: cs => if c.utf8Size ≤ o then charsWithin (o - c.utf8Size) cs + 1 else 0

/-- The bytes that are not those of whole characters are the first ones of the next character. -/
theorem exists_partial {cs : List Char} {o : Nat} (ho : o ≤ byteLength cs) :
    ∃ k, o = byteLength (cs.take (charsWithin o cs)) + k ∧
      (k ≠ 0 → ∃ c, cs[charsWithin o cs]? = some c ∧ k < c.utf8Size) := by
  induction cs generalizing o with
  | nil => exact ⟨0, by simpa using ho, fun h => absurd rfl h⟩
  | cons c cs ih =>
      rw [byteLength_cons] at ho
      by_cases hc : c.utf8Size ≤ o
      · obtain ⟨k, hk, hnext⟩ := ih (o := o - c.utf8Size) (by omega)
        refine ⟨k, ?_, ?_⟩
        · rw [charsWithin, if_pos hc, List.take_succ_cons, byteLength_cons, Nat.add_assoc, ← hk,
            Nat.add_sub_of_le hc]
        · simpa only [charsWithin, if_pos hc, List.getElem?_cons_succ] using hnext
      · rw [charsWithin, if_neg hc]
        exact ⟨o, by simp, fun _ => ⟨c, rfl, by omega⟩⟩

theorem split_of_getElem? {cs : List Char} {n : Nat} {c : Char} (h : cs[n]? = some c) :
    cs = cs.take n ++ c :: cs.drop (n + 1) := by
  obtain ⟨hn, rfl⟩ := List.getElem?_eq_some_iff.mp h
  rw [List.getElem_cons_drop, List.take_append_drop]

/-- The line after some bytes is that of the character they end in, and the column counts the bytes
since its start. -/
theorem lineColumnAfter_take {cs : List Char} {o : Nat} (ho : o ≤ byteLength cs) :
    lineColumnAfter ((bytes cs).take o) =
      ((cs.take (charsWithin o cs)).count '\n' + 1,
        byteLength (lastLine (cs.take (charsWithin o cs))) +
          (o - byteLength (cs.take (charsWithin o cs)))) := by
  obtain ⟨k, hk, hnext⟩ := exists_partial ho
  generalize charsWithin o cs = m at *
  have hsub : o - byteLength (cs.take m) = k := by omega
  rw [hsub]
  by_cases hzero : k = 0
  · have hbytes : bytes cs = bytes (cs.take m) ++ bytes (cs.drop m) := by
      rw [← bytes_append, List.take_append_drop]
    subst hzero
    rw [Nat.add_zero] at hk
    rw [hk, ← length_bytes, hbytes, List.take_left]
    exact lineColumnAfter_bytes _
  · obtain ⟨c, hc, hlt⟩ := hnext hzero
    have hne : c ≠ '\n' := by
      rintro rfl
      exact absurd (show k < 1 from hlt) (by omega)
    have hinside := lineColumnAfter_inside (cs.take m) (cs.drop (m + 1)) hne (Nat.le_of_lt hlt)
    rwa [← split_of_getElem? hc, ← hk] at hinside

/-- One byte further, the line is that of the character which the byte is from. -/
theorem lineColumnAfter_take_succ {cs : List Char} {o : Nat} {c : Char} (ho : o + 1 ≤ byteLength cs)
    (hc : cs[charsWithin o cs]? = some c) (hne : c ≠ '\n') :
    lineColumnAfter ((bytes cs).take (o + 1)) =
      ((cs.take (charsWithin o cs)).count '\n' + 1,
        byteLength (lastLine (cs.take (charsWithin o cs))) +
          (o - byteLength (cs.take (charsWithin o cs))) + 1) := by
  obtain ⟨k, hk, hnext⟩ := exists_partial (Nat.le_of_succ_le ho)
  generalize charsWithin o cs = n at *
  have hlt : k < c.utf8Size := by
    by_cases hzero : k = 0
    · exact hzero ▸ c.utf8Size_pos
    · obtain ⟨c', hc', hlt⟩ := hnext hzero
      rwa [← Option.some.inj (hc'.symm.trans hc)]
  have hinside := lineColumnAfter_inside (cs.take n) (cs.drop (n + 1)) hne
    (show k + 1 ≤ c.utf8Size from hlt)
  rw [← split_of_getElem? hc, ← Nat.add_assoc, ← hk] at hinside
  rw [hinside, hk, Nat.add_sub_cancel_left, Nat.add_assoc]

theorem charsWithin_le {o o' : Nat} (h : o ≤ o') (cs : List Char) :
    charsWithin o cs ≤ charsWithin o' cs := by
  induction cs generalizing o o' with
  | nil => exact Nat.le_refl 0
  | cons c cs ih =>
      by_cases hc : c.utf8Size ≤ o
      · rw [charsWithin, if_pos hc, charsWithin, if_pos (Nat.le_trans hc h)]
        exact Nat.succ_le_succ (ih (Nat.sub_le_sub_right h _))
      · rw [charsWithin, if_neg hc]
        exact Nat.zero_le _

end ScriptWorks.Text
