import ScriptWorks.Config.Extends
import ScriptWorks.Proofs.Jsonc.Lines

/-!
# Places of faults

The syntax error of a configuration has a line and a column of the stripped text, in bytes, and its
diagnostic takes them for a line and a number of characters of the text. The two agree where as many
characters come before the fault on its line as bytes are left of them.
-/

namespace ScriptWorks

open Text (byteLength)

/-! ## Where reading stopped -/

namespace Jsonc

variable {cs : List Char}

/-- The number of the character at which reading stopped: the one that the last byte read is from, or,
where the text ended too early, the one after it. -/
def stoppedAt (cs : List Char) (fault : Json.Fault) (read : Nat) : Nat :=
  Text.charsWithin (if fault.category = .eof then read else read - 1) cs

/-- The character at which reading stopped is not on a line after the one that is reported. -/
theorem positionAfter_front_le {fault : Json.Fault} {read : Nat} (hread : read ≤ byteLength (strip cs)) :
    (SourceText.positionAfter (front cs (stoppedAt (strip cs) fault read))).1 + 1 ≤
      (Text.lineColumnAfter ((Text.bytes (strip cs)).take read)).1 := by
  have hle : stoppedAt (strip cs) fault read ≤ Text.charsWithin read (strip cs) := by
    refine Text.charsWithin_le ?_ _
    split <;> omega
  rw [Text.lineColumnAfter_take hread, SourceText.positionAfter, count_front]
  exact Nat.succ_le_succ ((List.take_sublist_take_left hle).count_le _)

theorem lineColumnAfter_of_stoppedAt {fault : Json.Fault} {read : Nat} {c : Char}
    (hread : read ≤ byteLength cs) (hfault : fault.category ≠ .eof)
    (hc : cs[stoppedAt cs fault read]? = some c) (hne : c ≠ '\n') :
    ((Text.lineColumnAfter ((Text.bytes cs).take read)).1,
        (Text.lineColumnAfter ((Text.bytes cs).take read)).2 - 1) =
      ((cs.take (stoppedAt cs fault read)).count '\n' + 1,
        byteLength (Text.lastLine (cs.take (stoppedAt cs fault read))) +
          (read - 1 - byteLength (cs.take (stoppedAt cs fault read)))) := by
  have hstopped : stoppedAt cs fault read = Text.charsWithin (read - 1) cs := by
    rw [stoppedAt, if_neg hfault]
  rw [hstopped] at hc ⊢
  cases read with
  | zero =>
      have hnone : Text.charsWithin 0 cs = 0 := by
        cases cs with
        | nil => rfl
        | cons d cs => rw [Text.charsWithin, if_neg (Nat.not_le.mpr d.utf8Size_pos)]
      rw [Nat.zero_sub, hnone]
      rfl
  | succ read => rw [Text.lineColumnAfter_take_succ hread hc hne]; rfl

end Jsonc

namespace LoadFault

open SourceText (positionAfter)

theorem start_malformed (p : Path) (text : String) {e : Json.SyntaxError} {line : Nat}
    (h : e.line = line + 1) :
    (LoadFault.malformed p text (.malformed e)).diagnostic.start =
      (⟨p.text, text⟩ : SourceText).offsetOf? line (e.column - 1) := by
  have hoffset : offset? ⟨p.text, text⟩ (.malformed e) =
      (⟨p.text, text⟩ : SourceText).offsetOf? line (e.column - 1) := by
    simp only [offset?, ConfigFault.place, h]
  rw [← hoffset, diagnostic]
  cases offset? ⟨p.text, text⟩ (.malformed e) <;> rfl

/-- The diagnostic of a syntax error starts at the character at which reading stopped exactly if the
reported line and column are its line and character in the text. But for the end of the text and for a
line end in a string, that is the case exactly if as many characters come before it on its line as bytes
are left before the last one read. -/
theorem starts_at_fault_iff (p : Path) (text : String) {fault : Json.Fault} {read : Nat}
    (h : Jsonc.faultIn? (Jsonc.strip text.toList) = some (fault, read)) :
    let stripped := Jsonc.strip text.toList
    let n := Jsonc.stoppedAt stripped fault read
    let before := Jsonc.front text.toList n
    ∃ e, Config.parse text = .error (.malformed e) ∧
      ((LoadFault.malformed p text (.malformed e)).diagnostic.start = some (byteLength before) ↔
        (e.line, e.column - 1) = ((positionAfter before).1 + 1, (positionAfter before).2)) ∧
      (fault.category ≠ .eof → ∀ c, stripped[n]? = some c → c ≠ '\n' →
        ((LoadFault.malformed p text (.malformed e)).diagnostic.start = some (byteLength before) ↔
          (positionAfter before).2 = byteLength (Text.lastLine (stripped.take n)) +
            (read - 1 - byteLength (stripped.take n)))) := by
  intro stripped n before
  obtain ⟨hread, e, he, hplace⟩ := Jsonc.exists_error_of_faultIn? h
  have hline : e.line = _ := congrArg Prod.fst hplace
  have hcolumn : e.column = _ := congrArg Prod.snd hplace
  obtain ⟨after, hafter⟩ := Jsonc.front_prefix text.toList n
  have hle : (positionAfter before).1 + 1 ≤ e.line := hline ▸ Jsonc.positionAfter_front_le hread
  obtain ⟨line, hsucc⟩ : ∃ line, e.line = line + 1 := ⟨e.line - 1, by omega⟩
  have hstart : (LoadFault.malformed p text (.malformed e)).diagnostic.start = some (byteLength before) ↔
      (e.line, e.column - 1) = ((positionAfter before).1 + 1, (positionAfter before).2) := by
    rw [start_malformed p text hsucc, SourceText.offsetOf?_eq_iff hafter.symm (by omega), hsucc]
    simp [Prod.ext_iff]
  refine ⟨e, by rw [Config.parse, he], hstart, fun hfault c hc hne => hstart.trans ?_⟩
  have hstopped := Jsonc.lineColumnAfter_of_stoppedAt hread hfault hc hne
  rw [← hline, ← hcolumn] at hstopped
  rw [hstopped, Prod.mk.injEq, positionAfter, Jsonc.count_front]
  exact ⟨fun h => h.2.symm, fun h => ⟨rfl, h.symm⟩⟩

/-- A comma is missing on a line without comments. -/
theorem starts_at_fault_iff_of_missing_comma :
    Jsonc.faultIn? (Jsonc.strip "[ // a\n1 2]".toList) = some (.expectedListEnd, 6) ∧
    ∃ e, Config.parse "[ // a\n1 2]" = .error (.malformed e) ∧
      (LoadFault.malformed ⟨"a.json"⟩ "[ // a\n1 2]" (.malformed e)).diagnostic.start = some 9 := by
  have h : Jsonc.faultIn? (Jsonc.strip "[ // a\n1 2]".toList) = some (.expectedListEnd, 6) := by
    decide +kernel
  obtain ⟨e, he, -, hstart⟩ := starts_at_fault_iff ⟨"a.json"⟩ "[ // a\n1 2]" h
  have hplace := (hstart (by decide) '2' (by decide +kernel) (by decide)).mpr (by decide +kernel)
  refine ⟨h, e, he, hplace.trans (by decide +kernel)⟩

/-- A comment before the fault on its line, a character of two bytes before it, the end of the text and a
line end in a string. -/
theorem faults_are_shown_elsewhere :
    let start := fun text => match Config.parse text with
      | .error fault => (LoadFault.malformed ⟨"a.json"⟩ text fault).diagnostic.start
      | .ok _ => none
    let offset := fun text => (Jsonc.faultIn? (Jsonc.strip text.toList)).map fun (fault, read) =>
      byteLength (Jsonc.front text.toList (Jsonc.stoppedAt (Jsonc.strip text.toList) fault read))
    start "/*a*/]" = some 0 ∧ offset "/*a*/]" = some 5 ∧
      start "[\"é\" x]" = some 7 ∧ offset "[\"é\" x]" = some 6 ∧
      start "[" = some 0 ∧ offset "[" = some 1 ∧
      start "[\"\n\"]" = some 3 ∧ offset "[\"\n\"]" = some 2 := by
  decide +kernel

end LoadFault

end ScriptWorks
