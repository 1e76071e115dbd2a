import ScriptWorks.Checker.Output
import ScriptWorks.Proofs.Text.Basic

/-!
# Patterns of checker lines

The lines that begin a diagnostic, with and without a place, as they are written. A line with a place is
cut into a file and the rest as late as it can be, as file names may hold all that patterns are made of.
-/

namespace ScriptWorks.Checker

/-! ## Patterns -/

/-- Decimal digits, at least one. -/
def IsNumeral (digits : List Char) : Prop :=
  digits ≠ [] ∧ ∀ c ∈ digits, Text.isDecimalDigit c = true

/-- The ASCII digits of a number of 32 bits. -/
structure SpellsWord32 (digits : List Char) (n : Nat) : Prop where
  ascii : ∀ c ∈ digits, c.isDigit = true
  value : Nat.ofDigitChars 10 digits 0 = n
  small : n < Nat.pow 2 32

/-- A text is `category TScode: text`. -/
inductive Announced : List Char → Category × List Char × String → Prop
  | intro {word category code text} : (word, category) ∈ categories → IsNumeral code →
      Announced (word.toList ++ (" TS".toList ++ (code ++ (": ".toList ++ text.toList))))
        (category, code, text)

/-- What is printed behind a file: the digits of line and column, and what is announced. -/
abbrev Found := (List Char × List Char) × Category × List Char × String

/-- A text is `(line,column): category TScode: text`. -/
inductive Located : List Char → Found → Prop
  | intro {line column rest announced} : IsNumeral line → IsNumeral column →
      Announced rest announced →
      Located ("(".toList ++ (line ++ (",".toList ++ (column ++ ("): ".toList ++ rest)))))
        ((line, column), announced)

/-- What a line that begins a diagnostic says. With a place, the file is as long as it can be; without
one, the line cannot be cut into a file and a place. -/
inductive HeadLine (line : List Char) : Head → Prop
  | located {file rest lineDigits columnDigits category code text l c n} :
      line = file ++ rest → file ≠ [] →
      Located rest ((lineDigits, columnDigits), category, code, text) →
      (∀ file' rest' found, line = file' ++ rest' → file.length < file'.length →
        ¬ Located rest' found) →
      SpellsWord32 lineDigits l → SpellsWord32 columnDigits c → SpellsWord32 code n →
      HeadLine line ⟨some (String.ofList file, l, c), category, n, text⟩
  | global {category code text n} :
      (∀ file rest found, line = file ++ rest → file ≠ [] → ¬ Located rest found) →
      Announced line (category, code, text) → SpellsWord32 code n →
      HeadLine line ⟨none, category, n, text⟩

/-! ## Words and numbers -/

theorem dropWord_eq_some_iff {word : String} {cs rest : List Char} :
    dropWord word cs = some rest ↔ cs = word.toList ++ rest := by
  unfold dropWord
  rw [← String.length_toList]
  split
  case isTrue h =>
    obtain ⟨rest', rfl⟩ := List.isPrefixOf_iff_prefix.mp h
    rw [List.drop_left, Option.some.injEq, List.append_cancel_left_eq, eq_comm]
  case isFalse h =>
    refine ⟨nofun, fun hcs => absurd ?_ h⟩
    exact List.isPrefixOf_iff_prefix.mpr ⟨rest, hcs.symm⟩

/-- Digits are taken up to the first character that is none. -/
theorem takeDigits_eq_some_iff {cs digits rest : List Char} :
    takeDigits cs = some (digits, rest) ↔
      IsNumeral digits ∧ cs = digits ++ rest ∧ ∀ c ∈ rest.head?, Text.isDecimalDigit c = false := by
  unfold takeDigits
  dsimp only
  constructor
  · intro h
    have hsplit := List.takeWhile_append_dropWhile (p := Text.isDecimalDigit) (l := cs)
    have hdrop : (cs.takeWhile Text.isDecimalDigit ++ cs.dropWhile Text.isDecimalDigit).drop
        (cs.takeWhile Text.isDecimalDigit).length = cs.dropWhile Text.isDecimalDigit :=
      List.drop_left
    rw [hsplit] at hdrop
    split at h
    · cases h
    · rename_i hne
      cases h
      refine ⟨⟨fun hnil => hne (by rw [hnil]; rfl), List.all_eq_true.mp List.all_takeWhile⟩, ?_, ?_⟩
      · rw [hdrop, hsplit]
      · intro c hc
        have hnot := List.head?_dropWhile_not Text.isDecimalDigit cs
        rw [← hdrop, hc] at hnot
        exact hnot
  · rintro ⟨⟨hne, hdigits⟩, rfl, hrest⟩
    rw [Text.takeWhile_append_of_head? hdigits hrest, if_neg (by simp [hne]), List.drop_left]

theorem word32?_eq_some_iff {digits : List Char} {n : Nat} :
    word32? digits = some n ↔ SpellsWord32 digits n := by
  have hvalue : digits.foldl (fun n c => n * 10 + (c.toNat - 48)) 0 =
      Nat.ofDigitChars 10 digits 0 := by
    rw [Nat.ofDigitChars_eq_foldl]
    simp only [Nat.mul_comm 10]
    rfl
  unfold word32?
  dsimp only
  rw [hvalue]
  constructor
  · intro h
    split at h
    · rename_i hdigits
      split at h
      · rename_i hsmall
        cases h
        exact ⟨List.all_eq_true.mp hdigits, rfl, hsmall⟩
      · cases h
    · cases h
  · rintro ⟨hdigits, rfl, hsmall⟩
    rw [if_pos (List.all_eq_true.mpr hdigits)]
    exact if_pos hsmall

/-! ## Reading patterns -/

/-- No word for a category starts another one. -/
theorem findSome?_categories {word : String} {category : Category} (h : (word, category) ∈ categories)
    (rest : List Char) :
    (categories.findSome? fun (w, c) => (dropWord w (word.toList ++ rest)).map (c, ·)) =
      some (category, rest) := by
  simp only [categories, List.mem_cons, Prod.mk.injEq, List.not_mem_nil, or_false] at h
  rcases h with ⟨rfl, rfl⟩ | ⟨rfl, rfl⟩ | ⟨rfl, rfl⟩ | ⟨rfl, rfl⟩ <;> rfl

theorem tail?_eq_some_iff {cs : List Char} {announced : Category × List Char × String} :
    tail? cs = some announced ↔ Announced cs announced := by
  constructor
  · intro h
    simp only [tail?, Option.bind_eq_bind, Option.bind_eq_some_iff, pure, Option.some.injEq] at h
    obtain ⟨⟨category, rest⟩, hcategory, rest', hcode, ⟨code, rest''⟩, hdigits, text, htext, rfl⟩ := h
    obtain ⟨⟨word, _⟩, hmem, hword⟩ := List.exists_of_findSome?_eq_some hcategory
    obtain ⟨_, hdrop, ⟨⟩⟩ := Option.map_eq_some_iff.mp hword
    obtain ⟨hnumeral, rfl, -⟩ := takeDigits_eq_some_iff.mp hdigits
    obtain rfl := dropWord_eq_some_iff.mp hdrop
    obtain rfl := dropWord_eq_some_iff.mp hcode
    obtain rfl := dropWord_eq_some_iff.mp htext
    obtain ⟨text, rfl⟩ : ∃ s : String, text = s.toList := ⟨_, String.toList_ofList.symm⟩
    rw [String.ofList_toList]
    exact .intro hmem hnumeral
  · rintro ⟨hmem, hnumeral⟩
    rename_i word category code text
    have hcode : ∀ rest, dropWord " TS" (" TS".toList ++ rest) = some rest :=
      fun rest => dropWord_eq_some_iff.mpr rfl
    have hdigits : takeDigits (code ++ (": ".toList ++ text.toList)) =
        some (code, ": ".toList ++ text.toList) := by
      refine takeDigits_eq_some_iff.mpr ⟨hnumeral, rfl, ?_⟩
      rintro _ ⟨⟩
      decide
    have htext : dropWord ": " (": ".toList ++ text.toList) = some text.toList :=
      dropWord_eq_some_iff.mpr rfl
    simp only [tail?, findSome?_categories hmem, Option.bind_eq_bind, Option.bind_some, hcode, hdigits,
      htext, pure, String.ofList_toList]

theorem place?_eq_some_iff {cs : List Char} {found : Found} :
    place? cs = some found ↔ Located cs found := by
  constructor
  · intro h
    simp only [place?, Option.bind_eq_bind, Option.bind_eq_some_iff, pure, Option.some.injEq] at h
    obtain ⟨_, hopen, ⟨line, _⟩, hline, _, hcomma, ⟨column, _⟩, hcolumn, rest, hclose, announced,
      hrest, rfl⟩ := h
    obtain rfl := dropWord_eq_some_iff.mp hopen
    obtain ⟨hlineNumeral, rfl, -⟩ := takeDigits_eq_some_iff.mp hline
    obtain rfl := dropWord_eq_some_iff.mp hcomma
    obtain ⟨hcolumnNumeral, rfl, -⟩ := takeDigits_eq_some_iff.mp hcolumn
    obtain rfl := dropWord_eq_some_iff.mp hclose
    exact .intro hlineNumeral hcolumnNumeral (tail?_eq_some_iff.mp hrest)
  · rintro ⟨hline, hcolumn, hrest⟩
    have hword : ∀ (word : String) (rest : List Char), dropWord word (word.toList ++ rest) = some rest :=
      fun word rest => dropWord_eq_some_iff.mpr rfl
    have hdigits : ∀ {digits : List Char} {word : String} {rest : List Char}, IsNumeral digits →
        (∀ c ∈ (word.toList ++ rest).head?, Text.isDecimalDigit c = false) →
        takeDigits (digits ++ (word.toList ++ rest)) = some (digits, word.toList ++ rest) :=
      fun hnumeral hstop => takeDigits_eq_some_iff.mpr ⟨hnumeral, rfl, hstop⟩
    have hcomma : ∀ rest, ∀ c ∈ (",".toList ++ rest).head?, Text.isDecimalDigit c = false := by
      rintro rest _ ⟨⟩
      decide
    have hclose : ∀ rest, ∀ c ∈ ("): ".toList ++ rest).head?, Text.isDecimalDigit c = false := by
      rintro rest _ ⟨⟩
      decide
    simp only [place?, hword, hdigits hline (hcomma _), hdigits hcolumn (hclose _),
      tail?_eq_some_iff.mpr hrest, Option.bind_eq_bind, Option.bind_some, pure]

/-! ## Cutting lines -/

theorem Located.exists_cons {cs : List Char} {found : Found} (h : Located cs found) :
    ∃ rest, cs = '(' :: rest := by
  cases h
  exact ⟨_, rfl⟩

theorem Located.unique {cs : List Char} {found found' : Found} (h : Located cs found)
    (h' : Located cs found') : found = found' := by
  rw [← place?_eq_some_iff] at h h'
  exact Option.some.inj (h.symm.trans h')

theorem not_located_of_cutLast_eq_none {start cs : List Char} (h : cutLast start cs = none)
    {skipped rest : List Char} (hcs : cs = skipped ++ rest) (hne : start ++ skipped ≠ [])
    (found : Found) : ¬ Located rest found := by
  induction cs generalizing start skipped with
  | nil =>
      intro hlocated
      obtain ⟨rest', rfl⟩ := hlocated.exists_cons
      cases skipped <;> cases hcs
  | cons c cs ih =>
      unfold cutLast at h
      split at h
      · cases h
      · rename_i hlater
        cases skipped with
        | nil =>
            rw [List.append_nil] at hne
            rw [if_neg (by simp [hne]), Option.map_eq_none_iff, hcs] at h
            rw [← place?_eq_some_iff]
            intro hfound
            rw [List.nil_append, hfound] at h
            cases h
        | cons d skipped =>
            obtain ⟨rfl, rfl⟩ := List.cons.inj hcs
            exact ih hlater rfl (by simp)

/-- A line is cut where something is printed for its place, and nowhere after that. -/
theorem exists_of_cutLast_eq_some {start cs file : List Char} {found : Found}
    (h : cutLast start cs = some (file, found)) :
    ∃ skipped rest, file = start ++ skipped ∧ cs = skipped ++ rest ∧ file ≠ [] ∧
      Located rest found ∧ ∀ skipped' rest' found', cs = skipped' ++ rest' →
        skipped.length < skipped'.length → ¬ Located rest' found' := by
  induction cs generalizing start with
  | nil => cases h
  | cons c cs ih =>
      unfold cutLast at h
      split at h
      · rename_i hlater
        obtain ⟨skipped, rest, hfile, rfl, hne, hlocated, hlast⟩ := ih (hlater.trans h)
        refine ⟨c :: skipped, rest, by rw [hfile]; simp, rfl, hne, hlocated, ?_⟩
        rintro (_ | ⟨d, skipped'⟩) rest' found' hcs hlength
        · cases hlength
        · exact hlast skipped' rest' found' (List.cons.inj hcs).2 (Nat.lt_of_succ_lt_succ hlength)
      · rename_i hlater
        split at h
        · cases h
        · rename_i hne
          obtain ⟨found', hfound, ⟨⟩⟩ := Option.map_eq_some_iff.mp h
          have hstart : file ≠ [] := fun hnil => hne (by rw [hnil]; rfl)
          refine ⟨[], c :: cs, (List.append_nil file).symm, rfl, hstart,
            place?_eq_some_iff.mp hfound, ?_⟩
          rintro (_ | ⟨d, skipped'⟩) rest' found' hcs hlength
          · cases hlength
          · exact not_located_of_cutLast_eq_none hlater (List.cons.inj hcs).2 (by simp) found'

theorem cutLast_eq_none_iff {line : List Char} : cutLast [] line = none ↔
    ∀ file rest found, line = file ++ rest → file ≠ [] → ¬ Located rest found := by
  refine ⟨fun h file rest found hline hne => not_located_of_cutLast_eq_none h hline hne found, ?_⟩
  intro h
  cases hcut : cutLast [] line with
  | none => rfl
  | some cut =>
      obtain ⟨file, found⟩ := cut
      obtain ⟨_, rest, rfl, hline, hne, hlocated, -⟩ := exists_of_cutLast_eq_some hcut
      exact absurd hlocated (h _ rest found hline hne)

theorem cutLast_eq_some_iff {line file : List Char} {found : Found} :
    cutLast [] line = some (file, found) ↔
      ∃ rest, line = file ++ rest ∧ file ≠ [] ∧ Located rest found ∧
        ∀ file' rest' found', line = file' ++ rest' → file.length < file'.length →
          ¬ Located rest' found' := by
  constructor
  · intro h
    obtain ⟨_, rest, rfl, hline, hne, hlocated, hlast⟩ := exists_of_cutLast_eq_some h
    exact ⟨rest, hline, hne, hlocated, hlast⟩
  · rintro ⟨rest, hline, hne, hlocated, hlast⟩
    cases hcut : cutLast [] line with
    | none => exact absurd hlocated (cutLast_eq_none_iff.mp hcut file rest found hline hne)
    | some cut =>
        obtain ⟨file', found'⟩ := cut
        obtain ⟨_, rest', rfl, hline', -, hlocated', hlast'⟩ := exists_of_cutLast_eq_some hcut
        -- Neither of the two files is longer, so they are one.
        have hlength := Nat.le_antisymm
          (Nat.le_of_not_lt fun hlt => hlast' _ _ _ hline hlt hlocated)
          (Nat.le_of_not_lt fun hlt => hlast _ _ _ hline' hlt hlocated')
        obtain ⟨rfl, rfl⟩ := List.append_inj (hline.symm.trans hline') hlength
        rw [hlocated.unique hlocated']

/-! ## Lines -/

theorem head?_eq_some_iff {line : List Char} {head : Head} :
    head? line = some head ↔ HeadLine line head := by
  constructor
  · intro h
    unfold head? at h
    split at h
    · rename_i hcut
      simp only [Option.bind_eq_bind, Option.bind_eq_some_iff, pure, Option.some.injEq,
        word32?_eq_some_iff] at h
      obtain ⟨l, hl, c, hc, n, hn, rfl⟩ := h
      obtain ⟨rest, hline, hne, hlocated, hlast⟩ := cutLast_eq_some_iff.mp hcut
      exact .located hline hne hlocated hlast hl hc hn
    · rename_i hcut
      simp only [Option.bind_eq_bind, Option.bind_eq_some_iff, pure, Option.some.injEq,
        word32?_eq_some_iff, tail?_eq_some_iff] at h
      obtain ⟨⟨category, code, text⟩, hannounced, n, hn, rfl⟩ := h
      exact .global (cutLast_eq_none_iff.mp hcut) hannounced hn
  · intro h
    cases h with
    | located hline hne hlocated hlast hl hc hn =>
        simp only [head?, cutLast_eq_some_iff.mpr ⟨_, hline, hne, hlocated, hlast⟩,
          word32?_eq_some_iff.mpr hl, word32?_eq_some_iff.mpr hc, word32?_eq_some_iff.mpr hn,
          Option.bind_eq_bind, Option.bind_some, pure]
    | global hno hannounced hn =>
        simp only [head?, cutLast_eq_none_iff.mpr hno, tail?_eq_some_iff.mpr hannounced,
          word32?_eq_some_iff.mpr hn, Option.bind_eq_bind, Option.bind_some, pure]

end ScriptWorks.Checker
