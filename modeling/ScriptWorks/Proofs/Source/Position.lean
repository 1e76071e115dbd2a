import ScriptWorks.Proofs.Path.Tidy
import ScriptWorks.Source.Text

/-!
# Positions and offsets

The position of an offset between two characters is the number of line ends before it and the number of
characters since the last of them. Positions grow with the offset, and an offset is found again from its
position.
-/

namespace ScriptWorks

namespace Text

theorem byteLength_ofList (cs : List Char) : (String.ofList cs).utf8ByteSize = byteLength cs := by
  induction cs with
  | nil => rfl
  | cons c cs ih =>
      have hsplit : String.ofList (c :: cs) = String.singleton c ++ String.ofList cs := by
        rw [String.singleton_eq_ofList, ← String.ofList_append]
        rfl
      rw [hsplit, String.utf8ByteSize_append, String.utf8ByteSize_singleton, ih, byteLength_cons]

/-- The bytes that the characters of a text take are its bytes. -/
theorem byteLength_toList (s : String) : byteLength s.toList = s.utf8ByteSize := by
  rw [← byteLength_ofList, String.ofList_toList]

theorem length_le_byteLength (cs : List Char) : cs.length ≤ byteLength cs := by
  induction cs with
  | nil => exact Nat.le_refl 0
  | cons c cs ih =>
      have hc := c.utf8Size_pos
      rw [List.length_cons, byteLength_cons]
      omega

/-- As many bytes of one text are the same characters. -/
theorem eq_of_byteLength_eq {before before' after after' : List Char}
    (h : before ++ after = before' ++ after') (hlength : byteLength before = byteLength before') :
    before = before' := by
  have hnil : ∀ more, byteLength more = 0 → more = [] := fun more hmore =>
    List.eq_nil_of_length_eq_zero (Nat.le_zero.mp (hmore ▸ length_le_byteLength more))
  obtain ⟨more, rfl⟩ | ⟨more, rfl⟩ :=
    List.prefix_or_prefix_of_prefix (List.prefix_append before after)
      (h ▸ List.prefix_append before' after')
  · rw [byteLength_append] at hlength
    rw [hnil more (by omega), List.append_nil]
  · rw [byteLength_append] at hlength
    rw [hnil more (by omega), List.append_nil]

end Text

namespace SourceText

open Text (byteLength byteLength_append byteLength_cons byteLength_nil)

variable {before after line rest : List Char}

/-! ## The position after characters -/

/-- The line ends among the characters, and the characters after the last of them. -/
def positionAfter (before : List Char) : Nat × Nat :=
  (before.count '\n', (before.reverse.takeWhile (· ≠ '\n')).length)

theorem positionAfter_concat_newline (before : List Char) :
    positionAfter (before ++ ['\n']) = ((positionAfter before).1 + 1, 0) := by
  simp [positionAfter]

theorem positionAfter_concat {c : Char} (hc : c ≠ '\n') (before : List Char) :
    positionAfter (before ++ [c]) = ((positionAfter before).1, (positionAfter before).2 + 1) := by
  simp [positionAfter, hc, List.count_eq_zero_of_not_mem, Ne.symm hc]

/-- Characters without a line end only move the position along its line. -/
theorem positionAfter_append (h : '\n' ∉ line) (before : List Char) :
    positionAfter (before ++ line) = ((positionAfter before).1, (positionAfter before).2 + line.length) := by
  induction line generalizing before with
  | nil => rw [List.append_nil]; rfl
  | cons c line ih =>
      rw [List.mem_cons, not_or] at h
      rw [List.append_cons, ih h.2, positionAfter_concat (Ne.symm h.1), List.length_cons]
      simp only [Nat.add_assoc, Nat.add_comm 1]

theorem positionAfter_of_notMem (h : '\n' ∉ line) : positionAfter line = (0, line.length) := by
  simpa [positionAfter] using positionAfter_append h []

theorem positionAfter_newline (h : '\n' ∉ line) (before : List Char) :
    positionAfter (before ++ '\n' :: line) = ((positionAfter before).1 + 1, line.length) := by
  rw [List.append_cons, positionAfter_append h, positionAfter_concat_newline]
  simp

/-- Only line ends at the start count, once there is a line end behind it. -/
theorem positionAfter_cons (h : '\n' ∈ before) (c : Char) :
    positionAfter (c :: before) =
      ((positionAfter before).1 + (if c = '\n' then 1 else 0), (positionAfter before).2) := by
  obtain ⟨tail, htail, rfl | ⟨init, rfl⟩⟩ := Text.exists_last '\n' before
  · exact absurd h htail
  · rw [← List.cons_append, positionAfter_newline htail, positionAfter_newline htail]
    by_cases hc : c = '\n' <;> simp [positionAfter, hc]

theorem positionAfter_cons_newline (before : List Char) :
    positionAfter ('\n' :: before) = ((positionAfter before).1 + 1, (positionAfter before).2) := by
  by_cases h : '\n' ∈ before
  · rw [positionAfter_cons h, if_pos rfl]
  · rw [positionAfter_of_notMem h]
    exact positionAfter_newline h []

/-- A position is not greater than the number of bytes before it. -/
theorem positionAfter_le (before : List Char) :
    (positionAfter before).1 + (positionAfter before).2 ≤ byteLength before := by
  refine Nat.le_trans ?_ (Text.length_le_byteLength before)
  obtain ⟨tail, htail, rfl | ⟨init, rfl⟩⟩ := Text.exists_last '\n' before
  · rw [positionAfter_of_notMem htail]
    exact Nat.le_of_eq (Nat.zero_add _)
  · rw [positionAfter_newline htail, List.length_append, List.length_cons]
    have hinit : (positionAfter init).1 ≤ init.length := List.count_le_length
    omega

/-- More characters have a later position. -/
theorem positionAfter_lt (h : after ≠ []) (before : List Char) :
    Prod.Lex (· < ·) (· < ·) (positionAfter before) (positionAfter (before ++ after)) := by
  by_cases hline : '\n' ∈ after
  · refine Prod.lex_def.mpr (.inl ?_)
    have hcount := List.count_pos_iff.mpr hline
    simp only [positionAfter, List.count_append]
    omega
  · refine Prod.lex_def.mpr (.inr ?_)
    have hlength := List.length_pos_iff.mpr h
    rw [positionAfter_append hline]
    exact ⟨rfl, by omega⟩

/-! ## Positions of offsets -/

/-- An offset after characters, or past the end, has the position after the characters. -/
theorem positionFrom_append (done : List Char) (bytes : Nat) {offset : Nat}
    (h : offset = byteLength before ∨ after = [] ∧ byteLength before ≤ offset) :
    positionFrom (positionAfter done).1 bytes (positionAfter done).2 (before ++ after) offset =
      positionAfter (done ++ before) := by
  induction before generalizing done bytes offset with
  | nil =>
      rw [List.append_nil, List.nil_append]
      rcases h with rfl | ⟨rfl, -⟩
      · cases after <;> simp [positionFrom]
      · rfl
  | cons c before ih =>
      have hc := c.utf8Size_pos
      rw [byteLength_cons] at h
      have hoffset : c.utf8Size ≤ offset := by
        rcases h with h | ⟨-, h⟩ <;> omega
      have hrest : offset - c.utf8Size = byteLength before ∨
          after = [] ∧ byteLength before ≤ offset - c.utf8Size :=
        h.imp (fun h => by omega) fun h => ⟨h.1, by omega⟩
      rw [List.cons_append, positionFrom, if_neg (by omega), if_neg (by omega), List.append_cons]
      by_cases hline : c = '\n'
      · subst hline
        have hnext := ih (done ++ ['\n']) 0 hrest
        rw [positionAfter_concat_newline] at hnext
        rwa [if_pos rfl]
      · have hnext := ih (done ++ [c]) (bytes + c.utf8Size) hrest
        rw [positionAfter_concat hline] at hnext
        rwa [if_neg hline]

variable {s : SourceText}

theorem positionOf_eq (h : s.text.toList = before ++ after) :
    s.positionOf (byteLength before) = positionAfter before := by
  rw [positionOf, h]
  exact positionFrom_append [] 0 (.inl rfl)

theorem positionOf_of_le {offset : Nat} (h : byteLength s.text.toList ≤ offset) :
    s.positionOf offset = positionAfter s.text.toList := by
  have hend := positionFrom_append [] 0 (.inr ⟨(rfl : ([] : List Char) = []), h⟩)
  rwa [List.append_nil] at hend

/-! ## Offsets of positions -/

theorem offsetInLine_append (h : '\n' ∉ line) (passed : Nat) (rest : List Char) (n : Nat) :
    offsetInLine passed (line ++ rest) (line.length + n) =
      offsetInLine (passed + byteLength line) rest n := by
  induction line generalizing passed with
  | nil => simp
  | cons c line ih =>
      rw [List.mem_cons, not_or] at h
      rw [List.cons_append, List.length_cons, Nat.add_right_comm, offsetInLine,
        if_neg (Ne.symm h.1), ih h.2, byteLength_cons, Nat.add_assoc]

/-- Lines that end before the one that is looked for are passed. -/
theorem offsetFrom_append (before : List Char) (passed : Nat) (rest : List Char) (n character : Nat) :
    offsetFrom passed (before ++ rest) (before.count '\n' + (n + 1)) character =
      offsetFrom (passed + byteLength before) rest (n + 1) character := by
  induction before generalizing passed with
  | nil => simp
  | cons c before ih =>
      have hcount : (if c = '\n' then (c :: before).count '\n' + n else (c :: before).count '\n' + n + 1) =
          before.count '\n' + (n + 1) := by
        by_cases hc : c = '\n' <;> simp [hc] <;> omega
      rw [← Nat.add_assoc, List.cons_append, offsetFrom, hcount, ih, byteLength_cons, Nat.add_assoc]

/-- From the position after characters on, a position is looked for in what follows them. -/
theorem offsetFrom_positionAfter (before : List Char) (passed : Nat) (rest : List Char) (n : Nat) :
    offsetFrom passed (before ++ rest) (positionAfter before).1 ((positionAfter before).2 + n) =
      offsetInLine (passed + byteLength before) rest n := by
  obtain ⟨tail, htail, rfl | ⟨init, rfl⟩⟩ := Text.exists_last '\n' before
  · rw [positionAfter_of_notMem htail, offsetFrom]
    exact offsetInLine_append htail passed rest n
  · rw [positionAfter_newline htail, List.append_assoc, List.cons_append]
    have hpassed := offsetFrom_append init passed ('\n' :: (tail ++ rest)) 0 (tail.length + n)
    rw [Nat.zero_add, offsetFrom, if_pos rfl, offsetFrom, offsetInLine_append htail] at hpassed
    rw [byteLength_append, byteLength_cons]
    simpa [positionAfter, Nat.add_assoc] using hpassed

theorem offsetOf?_positionAfter (h : s.text.toList = before ++ after) :
    s.offsetOf? (positionAfter before).1 (positionAfter before).2 = some (byteLength before) := by
  have hfrom := offsetFrom_positionAfter before 0 after 0
  rw [← h, Nat.add_zero, Nat.zero_add] at hfrom
  rw [offsetOf?, hfrom]
  cases after <;> rfl

theorem of_offsetInLine {cs : List Char} {passed n offset : Nat}
    (h : offsetInLine passed cs n = some offset) :
    ∃ line rest, cs = line ++ rest ∧ '\n' ∉ line ∧
      (n = line.length ∧ offset = passed + byteLength line ∨
        (∃ after, rest = '\n' :: after) ∧ n = line.length + 1 ∧
          offset = passed + byteLength line + 1) := by
  induction cs generalizing passed n with
  | nil =>
      cases n with
      | zero => exact ⟨[], [], rfl, by simp, .inl ⟨rfl, (Option.some.inj h).symm⟩⟩
      | succ n => cases h
  | cons c cs ih =>
      cases n with
      | zero => exact ⟨[], c :: cs, rfl, by simp, .inl ⟨rfl, (Option.some.inj h).symm⟩⟩
      | succ n =>
          rw [offsetInLine] at h
          by_cases hc : c = '\n'
          · subst hc
            cases n with
            | succ n => cases h
            | zero =>
                refine ⟨[], _, rfl, by simp, .inr ⟨⟨cs, rfl⟩, rfl, ?_⟩⟩
                simpa using (Option.some.inj h).symm
          · rw [if_neg hc] at h
            obtain ⟨line, rest, rfl, hline, hfound⟩ := ih h
            refine ⟨c :: line, rest, rfl, ?_, ?_⟩
            · simpa [Ne.symm hc] using hline
            · rw [List.length_cons, byteLength_cons, ← Nat.add_assoc]
              exact hfound.imp (fun h => ⟨by omega, h.2⟩) fun h => ⟨h.1, by omega, h.2.2⟩

/-- A position is looked for on its line. -/
theorem of_offsetFrom {cs : List Char} {passed line character offset : Nat}
    (h : offsetFrom passed cs line character = some offset) :
    ∃ before rest, cs = before ++ rest ∧ positionAfter before = (line, 0) ∧
      offsetInLine (passed + byteLength before) rest character = some offset := by
  induction cs generalizing passed line with
  | nil =>
      cases line with
      | zero => exact ⟨[], [], rfl, rfl, by rwa [offsetFrom] at h⟩
      | succ line => cases h
  | cons c cs ih =>
      cases line with
      | zero => exact ⟨[], _, rfl, rfl, by rwa [offsetFrom] at h⟩
      | succ line =>
          rw [offsetFrom] at h
          obtain ⟨before, rest, rfl, hbefore, hrest⟩ := ih h
          refine ⟨c :: before, rest, rfl, ?_, by rwa [byteLength_cons, ← Nat.add_assoc]⟩
          by_cases hc : c = '\n'
          · subst hc
            rw [positionAfter_cons_newline, hbefore, if_pos rfl]
          · rw [if_neg hc] at hbefore
            have hline : '\n' ∈ before := by
              refine List.count_pos_iff.mp ?_
              have hcount : before.count '\n' = line + 1 := congrArg Prod.fst hbefore
              omega
            rw [positionAfter_cons hline, hbefore, if_neg hc, Nat.add_zero]

/-- The character behind the line end of a line. -/
def IsPastLine (s : SourceText) (line character : Nat) : Prop :=
  ∃ before after, s.text.toList = before ++ '\n' :: after ∧
    (line, character) = ((positionAfter before).1, (positionAfter before).2 + 1)

/-- What is found for a position is its offset, or, behind the line end of its line, the start of the
next line. -/
theorem exists_of_offsetOf? {line character offset : Nat}
    (h : s.offsetOf? line character = some offset) :
    ∃ before after, s.text.toList = before ++ after ∧
      (positionAfter before = (line, character) ∧ offset = byteLength before ∨
        (∃ rest, after = '\n' :: rest) ∧
          (line, character) = ((positionAfter before).1, (positionAfter before).2 + 1) ∧
          offset = byteLength before + 1) := by
  obtain ⟨lines, rest, htext, hlines, hrest⟩ := of_offsetFrom h
  obtain ⟨tail, after, rfl, htail, hfound⟩ := of_offsetInLine hrest
  refine ⟨lines ++ tail, after, by rw [htext, List.append_assoc], ?_⟩
  rw [positionAfter_append htail, hlines, byteLength_append]
  simp only [Nat.zero_add] at hfound ⊢
  exact hfound.imp (fun h => ⟨by rw [h.1], h.2⟩) fun h => ⟨h.1, by rw [h.2.1], h.2.2⟩

/-- On its own line and the ones after it, a cut of the text is found at its position only. -/
theorem offsetOf?_eq_iff {line character : Nat}
    (h : s.text.toList = before ++ after) (hline : (positionAfter before).1 ≤ line) :
    s.offsetOf? line character = some (byteLength before) ↔
      (line, character) = positionAfter before := by
  constructor
  · intro hoffset
    obtain ⟨before', after', htext, ⟨hposition, hlength⟩ | ⟨⟨rest, rfl⟩, hposition, hlength⟩⟩ :=
      exists_of_offsetOf? hoffset
    · rw [← hposition, Text.eq_of_byteLength_eq (h.symm.trans htext) hlength]
    · rw [List.append_cons] at htext
      have hbefore : before = before' ++ ['\n'] :=
        Text.eq_of_byteLength_eq (h.symm.trans htext) (by rw [hlength, byteLength_append]; rfl)
      rw [hbefore, positionAfter_concat_newline, (Prod.mk.inj hposition).1] at hline
      omega
  · intro hposition
    obtain ⟨rfl, rfl⟩ := Prod.mk.inj hposition
    exact offsetOf?_positionAfter h

/-- Behind its line end a line has a position that is found, and has another one itself. -/
theorem IsPastLine.exists_offset {line character : Nat} (h : s.IsPastLine line character) :
    ∃ offset, s.offsetOf? line character = some offset ∧ s.positionOf offset = (line + 1, 0) := by
  obtain ⟨before, after, htext, hposition⟩ := h
  obtain ⟨rfl, rfl⟩ := Prod.mk.inj hposition
  refine ⟨byteLength before + 1, ?_, ?_⟩
  · have hfrom := offsetFrom_positionAfter before 0 ('\n' :: after) 1
    rw [← htext, Nat.zero_add] at hfrom
    rw [offsetOf?, hfrom]
    rfl
  · rw [List.append_cons] at htext
    have hend := positionOf_eq htext
    rwa [byteLength_append, positionAfter_concat_newline] at hend

/-- Everywhere else the offset of a position has that position. -/
theorem positionOf_of_offsetOf? {line character offset : Nat} (hline : ¬ s.IsPastLine line character)
    (h : s.offsetOf? line character = some offset) : s.positionOf offset = (line, character) := by
  obtain ⟨before, after, htext, ⟨hposition, rfl⟩ | ⟨⟨rest, rfl⟩, hposition, -⟩⟩ := exists_of_offsetOf? h
  · rw [positionOf_eq htext, hposition]
  · exact absurd ⟨before, rest, htext, hposition⟩ hline

/-- At a cut of the text the position counts the line ends before it and the characters after the last
of them; the cut is found again from it, later cuts have later positions, and all offsets past the end
have the position of the end. -/
theorem positions_count_lines_and_characters (s : SourceText) (before after : String)
    (h : s.text = before ++ after) :
    s.positionOf before.utf8ByteSize =
        (before.toList.count '\n', (before.toList.reverse.takeWhile (· ≠ '\n')).length) ∧
      s.offsetOf? (s.positionOf before.utf8ByteSize).1 (s.positionOf before.utf8ByteSize).2 =
        some before.utf8ByteSize ∧
      (s.positionOf before.utf8ByteSize).1 + (s.positionOf before.utf8ByteSize).2 ≤
        before.utf8ByteSize ∧
      (∀ before' after', s.text = before' ++ after' → before.utf8ByteSize < before'.utf8ByteSize →
        Prod.Lex (· < ·) (· < ·) (s.positionOf before.utf8ByteSize)
          (s.positionOf before'.utf8ByteSize)) ∧
      ∀ offset, s.text.utf8ByteSize ≤ offset →
        s.positionOf offset = s.positionOf s.text.utf8ByteSize := by
  have hcut : ∀ {cut rest : String}, s.text = cut ++ rest →
      s.text.toList = cut.toList ++ rest.toList := fun h => by rw [h, String.toList_append]
  have hposition : ∀ {cut rest : String}, s.text = cut ++ rest →
      s.positionOf cut.utf8ByteSize = positionAfter cut.toList := fun h => by
    rw [← Text.byteLength_toList, positionOf_eq (hcut h)]
  rw [hposition h]
  refine ⟨rfl, ?_, ?_, fun before' after' h' hlt => ?_, fun offset hoffset => ?_⟩
  · rw [offsetOf?_positionAfter (hcut h), Text.byteLength_toList]
  · rw [← Text.byteLength_toList]
    exact positionAfter_le before.toList
  · rw [hposition h']
    rw [← Text.byteLength_toList, ← Text.byteLength_toList] at hlt
    have hprefix : before.toList <+: s.text.toList := ⟨_, (hcut h).symm⟩
    have hprefix' : before'.toList <+: s.text.toList := ⟨_, (hcut h').symm⟩
    rcases List.prefix_or_prefix_of_prefix hprefix hprefix' with ⟨more, hmore⟩ | ⟨more, hmore⟩
    · rw [← hmore]
      refine positionAfter_lt ?_ before.toList
      rintro rfl
      rw [← hmore, List.append_nil] at hlt
      exact Nat.lt_irrefl _ hlt
    · rw [← hmore, byteLength_append] at hlt
      omega
  · rw [← Text.byteLength_toList] at hoffset
    rw [positionOf_of_le hoffset, hposition (String.append_empty.symm : s.text = s.text ++ "")]

/-- An empty line, characters of more than one byte and a line end at the end of the text. -/
theorem positions_count_lines_and_characters_of_accents :
    let s : SourceText := ⟨"a.ts", "é\n\nxé\n"⟩
    s.text = "é\n\nx" ++ "é\n" ∧ s.positionOf 5 = (2, 1) ∧ s.offsetOf? 2 1 = some 5 ∧
      Prod.Lex (· < ·) (· < ·) (s.positionOf 5) (s.positionOf 8) ∧
      s.positionOf 999 = s.positionOf 8 := by
  intro s
  have htext : s.text = "é\n\nx" ++ "é\n" := by decide +kernel
  have hsize : "é\n\nx".utf8ByteSize = 5 ∧ "é\n\nxé\n".utf8ByteSize = 8 := by decide +kernel
  have hcount : ("é\n\nx".toList.count '\n', ("é\n\nx".toList.reverse.takeWhile (· ≠ '\n')).length) =
    (2, 1) := by decide +kernel
  obtain ⟨hposition, hoffset, -, hlater, hend⟩ :=
    positions_count_lines_and_characters s "é\n\nx" "é\n" htext
  rw [hcount, hsize.1] at hposition
  have hlast := hlater "é\n\nxé\n" "" (by decide +kernel) (by decide +kernel)
  rw [hsize.1, hposition] at hoffset
  rw [hsize.1, hsize.2] at hlast
  have hpast := hend 999 (by decide +kernel)
  exact ⟨htext, hposition, hoffset, hlast, hpast.trans (congrArg s.positionOf hsize.2)⟩

end SourceText

end ScriptWorks
