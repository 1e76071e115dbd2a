import Mathlib.Data.List.Infix
import ScriptWorks.Proofs.Checker.Sections

/-!
# Reading printed lines back

A line that a checker prints for a diagnostic is read back as that diagnostic, unless its text holds such
a line again: then the line is cut there.
-/

namespace ScriptWorks

namespace Checker

/-- The line of a diagnostic with a place. -/
def locatedLine (file : String) (line column : Nat) (word : String) (code : Nat) (text : String) :
    String := s!"{file}({line},{column}): {word} TS{code}: {text}"

/-- Somewhere in the text there is what could follow a file. -/
def HoldsLocated (s : String) : Prop :=
  ∃ before rest found, s.toList = before ++ rest ∧ Located rest found

/-- It is enough to look at what the text ends with. -/
theorem holdsLocated_iff {s : String} :
    HoldsLocated s ↔ ∃ rest ∈ s.toList.tails, (place? rest).isSome = true := by
  simp only [HoldsLocated, List.mem_tails, Option.isSome_iff_exists, place?_eq_some_iff]
  constructor
  · rintro ⟨before, rest, found, hs, hlocated⟩
    exact ⟨rest, ⟨before, hs.symm⟩, found, hlocated⟩
  · rintro ⟨rest, ⟨before, hs⟩, found, hlocated⟩
    exact ⟨before, rest, found, hs.symm, hlocated⟩

instance (s : String) : Decidable (HoldsLocated s) := decidable_of_iff _ holdsLocated_iff.symm

theorem isNumeral_repr (n : Nat) : IsNumeral (Nat.repr n).toList :=
  ⟨Text.toList_repr_ne_nil n,
    fun _ hc => Text.isDecimalDigit_of_isDigit (Text.isDigit_of_mem_repr hc)⟩

theorem spellsWord32_repr {n : Nat} (h : n < Nat.pow 2 32) : SpellsWord32 (Nat.repr n).toList n :=
  ⟨fun _ hc => Text.isDigit_of_mem_repr hc, Text.ofDigitChars_repr n, h⟩

/-! ## Printed lines -/

variable {file word text : String} {line column code : Nat} {category : Category}

/-- What stands between the bracket behind the file and the text. -/
def middle (line column : Nat) (word : String) (code : Nat) : List Char :=
  (Nat.repr line).toList ++ (",".toList ++ ((Nat.repr column).toList ++ ("): ".toList ++
    (word.toList ++ (" TS".toList ++ ((Nat.repr code).toList ++ ": ".toList))))))

theorem toList_locatedLine : (locatedLine file line column word code text).toList =
    file.toList ++ '(' :: (middle line column word code ++ text.toList) := by
  simp [locatedLine, middle, toString]

theorem located_middle (hword : (word, category) ∈ categories) :
    Located ('(' :: (middle line column word code ++ text.toList))
      (((Nat.repr line).toList, (Nat.repr column).toList), category, (Nat.repr code).toList, text) := by
  have hannounced : Announced (word.toList ++ (" TS".toList ++ ((Nat.repr code).toList ++
      (": ".toList ++ text.toList)))) (category, (Nat.repr code).toList, text) :=
    .intro hword (isNumeral_repr code)
  simpa [middle] using Located.intro (isNumeral_repr line) (isNumeral_repr column) hannounced

/-- Neither a bracket nor a line end stands there. -/
theorem notMem_middle (hword : (word, category) ∈ categories) {c : Char} (hc : c ∈ ['(', '\n']) :
    c ∉ middle line column word code := by
  simp only [List.mem_cons, List.not_mem_nil, or_false] at hc
  have hdigits : ∀ n, c ∉ (Nat.repr n).toList := by
    intro n hmem
    have hdigit := Text.isDigit_of_mem_repr hmem
    rcases hc with rfl | rfl <;> exact absurd hdigit (by decide)
  have hwords : ∀ p ∈ categories, c ∉ p.1.toList := by
    rcases hc with rfl | rfl <;> decide +kernel
  have hmarks : ∀ mark ∈ [",", "): ", " TS", ": "], c ∉ mark.toList := by
    rcases hc with rfl | rfl <;> decide +kernel
  simp only [middle, List.mem_append, not_or]
  exact ⟨hdigits line, hmarks _ (by simp), hdigits column, hmarks _ (by simp), hwords _ hword,
    hmarks _ (by simp), hdigits code, hmarks _ (by simp)⟩

/-- The only place for a later cut is in the text. -/
theorem holdsLocated_of_later (hword : (word, category) ∈ categories) {file' rest' : List Char}
    {found : Found} (h : file.toList ++ '(' :: (middle line column word code ++ text.toList) =
      file' ++ rest') (hlater : file.toList.length < file'.length) (hlocated : Located rest' found) :
    HoldsLocated text := by
  obtain ⟨rest, rfl⟩ := hlocated.exists_cons
  obtain ⟨later, rfl, hbehind⟩ : ∃ later, file' = file.toList ++ later ∧
      '(' :: (middle line column word code ++ text.toList) = later ++ '(' :: rest := by
    rcases List.append_eq_append_iff.mp h with hlonger | ⟨more, hfile, -⟩
    · exact hlonger
    · rw [hfile, List.length_append] at hlater
      omega
  cases later with
  | nil => simp at hlater
  | cons bracket later =>
      rcases List.append_eq_append_iff.mp (List.cons.inj hbehind).2 with
        ⟨before, -, htext⟩ | ⟨left, hmiddle, hrest⟩
      · exact ⟨before, _, found, htext, hlocated⟩
      · cases left with
        | nil => exact ⟨[], _, found, hrest.symm, hlocated⟩
        | cons c left =>
            obtain ⟨rfl, -⟩ := List.cons.inj hrest
            have hmem : '(' ∈ middle line column word code := hmiddle ▸ by simp
            exact absurd hmem (notMem_middle hword (by simp))

theorem Located.length_lt {cs : List Char} {found : Found} (h : Located cs found) :
    found.2.2.2.toList.length < cs.length := by
  cases h with
  | intro _ _ hannounced =>
      cases hannounced
      simp
      omega

/-- Where a line holds a place, its text is shorter than what follows the file there. -/
theorem HeadLine.length_lt {line before rest : List Char} {head : Head} {found : Found}
    (h : HeadLine line head) (hline : line = before ++ rest) (hne : before ≠ [])
    (hlocated : Located rest found) : head.text.toList.length < rest.length := by
  cases h with
  | @located file rest' _ _ _ _ _ _ _ _ hline' _ hlocated' hlast =>
      have hshorter : before.length ≤ file.length :=
        Nat.le_of_not_lt fun hlt => hlast _ _ _ hline hlt hlocated
      have hlength := congrArg List.length (hline.symm.trans hline')
      rw [List.length_append, List.length_append] at hlength
      have htext := hlocated'.length_lt
      dsimp only at htext ⊢
      omega
  | global hno => exact absurd hlocated (hno _ _ _ hline hne)

/-- An output of one line. -/
theorem printed_of_line {output : String} (hline : Text.IsLine output.toList)
    (hstart : ¬ IsIndented output.toList) (hend : Text.trimEnd output.toList = output.toList) :
    printed output = (head? output.toList).toList.map (⟨·, []⟩) := by
  have hlines : Text.lines output.toList = [output.toList] :=
    Text.lines_glue (List.forall_mem_singleton.mpr hline)
  rw [printed, hlines, List.foldl_cons, List.foldl_nil,
    addLine_of_flush (by rw [hend]; exact hline.ne_nil) hstart, hend]
  cases head? output.toList <;> rfl

/-! ## Diagnostics of printed lines -/

theorem getLast?_locatedLine (htext : IsPhrase text) :
    (locatedLine file line column word code text).toList.getLast? = text.toList.getLast? := by
  rw [toList_locatedLine, ← List.cons_append, ← List.append_assoc,
    List.getLast?_append_of_ne_nil _ htext.toList_ne_nil]

section

variable (hfile : IsFlush file) (hword : (word, category) ∈ categories)

include hfile

theorem not_isIndented_locatedLine :
    ¬ IsIndented (locatedLine file line column word code text).toList := by
  have hstart := hfile.start
  obtain ⟨c, cs, hcs⟩ := List.exists_cons_of_ne_nil hfile.toList_ne_nil
  rw [hcs] at hstart
  rw [toList_locatedLine, hcs]
  simp [IsIndented, hstart c rfl]

include hword

theorem isLine_locatedLine (htext : IsPhrase text) :
    Text.IsLine (locatedLine file line column word code text).toList := by
  refine ⟨?_, ?_, fun hreturn => ?_⟩
  · rw [toList_locatedLine]
    exact List.append_ne_nil_of_left_ne_nil hfile.toList_ne_nil _
  · rw [toList_locatedLine]
    simp only [List.mem_append, List.mem_cons, not_or]
    exact ⟨hfile.noLineEnd, by decide, notMem_middle hword (by simp), htext.noLineEnd⟩
  · rw [getLast?_locatedLine htext] at hreturn
    exact absurd (htext.stop '\r' hreturn) (by decide)

theorem diagnostics_locatedLine (htext : IsPhrase text) (h : Host) (cwd : Path) :
    diagnostics h (locatedLine file line column word code text) cwd =
      (head? (locatedLine file line column word code text).toList).toList.map
        fun head => diagnostic h cwd ⟨head, []⟩ := by
  have hlast : (locatedLine file line column word code text).toList.getLast? =
      text.toList.getLast? := getLast?_locatedLine htext
  rw [diagnostics, printed_of_line (isLine_locatedLine hfile hword htext)
    (not_isIndented_locatedLine hfile) (Text.trimEnd_of_getLast? (hlast ▸ htext.stop)), List.map_map]
  rfl

theorem head?_locatedLine (hline : line < Nat.pow 2 32) (hcolumn : column < Nat.pow 2 32)
    (hcode : code < Nat.pow 2 32) (hno : ¬ HoldsLocated text) :
    head? (locatedLine file line column word code text).toList =
      some ⟨some (file, line, column), category, code, text⟩ := by
  have hline' : (locatedLine file line column word code text).toList =
      file.toList ++ '(' :: (middle line column word code ++ text.toList) := toList_locatedLine
  have hhead := HeadLine.located hline' hfile.toList_ne_nil
    (located_middle hword) (fun file' rest' found hcut hlonger hfound =>
      hno (holdsLocated_of_later hword (toList_locatedLine ▸ hcut) hlonger hfound))
    (spellsWord32_repr hline) (spellsWord32_repr hcolumn) (spellsWord32_repr hcode)
  rw [String.ofList_toList] at hhead
  exact head?_eq_some_iff.mpr hhead

end

/-- Where the text holds a place, the line does not say all of it. -/
theorem HoldsLocated.text_ne (h : HoldsLocated text) {head : Head}
    (hhead : head? (locatedLine file line column word code text).toList = some head) :
    head.text ≠ text := by
  obtain ⟨before, rest, found, hsplit, hlocated⟩ := h
  have hline : (locatedLine file line column word code text).toList =
      (file.toList ++ '(' :: (middle line column word code ++ before)) ++ rest := by
    rw [toList_locatedLine, hsplit]
    simp
  have hlength := (head?_eq_some_iff.mp hhead).length_lt hline (by simp) hlocated
  rintro rfl
  rw [hsplit, List.length_append] at hlength
  omega

theorem file_diagnostic {h : Host} {cwd : Path} {p : Printed} {name : String} {line column : Nat}
    (hplace : p.head.place = some (name, line, column)) :
    (diagnostic h cwd p).file.map SourceText.name = some (cwd.child name).normalize.text := by
  unfold diagnostic
  simp only [hplace]
  split <;> rfl

end Checker

open Checker in
/-- A line that is printed for a place in a file comes back as the one diagnostic that it was printed
for, with that file, category, number and text, if and only if its text does not hold another place and
diagnostic. -/
theorem located_lines_are_read_back (h : Host) (cwd : Path) {file word text : String}
    {line column code : Nat} {category : Category} (hfile : IsFlush file)
    (hline : line < Nat.pow 2 32) (hcolumn : column < Nat.pow 2 32) (hcode : code < Nat.pow 2 32)
    (hword : (word, category) ∈ categories) (htext : IsPhrase text) :
    (∃ d, diagnostics h (locatedLine file line column word code text) cwd = [d] ∧
      d.file.map SourceText.name = some (cwd.child file).normalize.text ∧ d.code = code ∧
      d.category = category ∧ d.message = .text text) ↔ ¬ HoldsLocated text := by
  rw [diagnostics_locatedLine hfile hword htext]
  constructor
  · rintro ⟨d, hdiagnostics, -, -, -, hmessage⟩ hholds
    cases hhead : head? (locatedLine file line column word code text).toList with
    | none =>
        rw [hhead] at hdiagnostics
        cases hdiagnostics
    | some head =>
        rw [hhead] at hdiagnostics
        obtain rfl := (List.cons.inj hdiagnostics).1
        rw [(diagnostic_of_printed h cwd _).2.2] at hmessage
        exact hholds.text_ne hhead (Message.text.inj hmessage)
  · intro hno
    rw [head?_locatedLine hfile hword hline hcolumn hcode hno]
    obtain ⟨hcategory, hnumber, hmessage⟩ :=
      diagnostic_of_printed h cwd ⟨⟨some (file, line, column), category, code, text⟩, []⟩
    exact ⟨_, rfl, file_diagnostic rfl, hnumber, hcategory, hmessage⟩

/-- A file and a text with numbers in brackets. -/
theorem located_lines_are_read_back_of_brackets :
    let file := "lib (old)/a(1).ts"
    let text := "Type 'f(1,2): g' is not assignable to type 'number'."
    (Checker.IsFlush file ∧ Checker.IsPhrase text ∧ ¬ Checker.HoldsLocated text) ∧
      Checker.locatedLine file 4294967295 7 "warning" 2322 text =
        "lib (old)/a(1).ts(4294967295,7): warning TS2322: " ++ text ∧
      ∃ d, Checker.diagnostics {} (Checker.locatedLine file 4294967295 7 "warning" 2322 text)
          ⟨"/v/w/../x"⟩ = [d] ∧
        d.file.map SourceText.name = some "/v/x/lib (old)/a(1).ts" ∧ d.code = 2322 ∧
        d.category = .warning ∧ d.message = .text text := by
  intro file text
  have hfile : Checker.IsFlush file := by decide +kernel
  have htext : Checker.IsPhrase text := by decide +kernel
  have hno : ¬ Checker.HoldsLocated text := by decide +kernel
  have hpath : ((⟨"/v/w/../x"⟩ : Path).child file).normalize.text = "/v/x/lib (old)/a(1).ts" := by
    decide +kernel
  have hline : 4294967295 < Nat.pow 2 32 := by decide
  have hcolumn : 7 < Nat.pow 2 32 := by decide
  have hcode : 2322 < Nat.pow 2 32 := by decide
  have hword : ("warning", Category.warning) ∈ Checker.categories := by decide
  obtain ⟨d, hdiagnostics, hname, hrest⟩ := (located_lines_are_read_back {} ⟨"/v/w/../x"⟩
    hfile hline hcolumn hcode hword htext).mpr hno
  exact ⟨⟨hfile, htext, hno⟩, by decide +kernel, d, hdiagnostics, hname.trans (by rw [hpath]), hrest⟩

/-- A text that quotes a printed line: what stands before the quoted place is taken for the file. -/
theorem quoted_place_is_read_instead :
    let text := "Type '\"b.ts(2,3): error TS1: c\"' is not assignable to type 'number'."
    Checker.IsFlush "a.ts" ∧ ¬ "): ".toList <:+: "a.ts".toList ∧ Checker.IsPhrase text ∧
      Checker.locatedLine "a.ts" 1 7 "error" 2322 text = "a.ts(1,7): error TS2322: " ++ text ∧
      (Checker.diagnostics {} (Checker.locatedLine "a.ts" 1 7 "error" 2322 text) ⟨"/v"⟩).map
          (fun d => (d.file.map SourceText.name, d.code, d.message.texts)) =
        [(some "/v/a.ts(1,7): error TS2322: Type '\"b.ts", 1,
          ["c\"' is not assignable to type 'number'."])] := by
  decide +kernel

end ScriptWorks
