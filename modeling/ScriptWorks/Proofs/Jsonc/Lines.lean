import Mathlib.Data.List.Forall2
import ScriptWorks.Proofs.Jsonc.Insertion
import ScriptWorks.Proofs.Text.Column

/-!
# Lines of stripped texts

Every character that stripping leaves has an original in the text. Line ends are never taken away, so the
original stands on the line of the same number, and each line is stripped by itself.
-/

namespace ScriptWorks.Jsonc

variable {cs s t : List Char} {ks : List (Char × List Char)} {n : Nat}

/-! ## Kept characters -/

/-- The characters that are kept when comments are taken away, each with the text after it. -/
def kept : Region → List Char → List (Char × List Char)
  | _, [] => []
  | .escape, c :: cs => (c, cs) :: kept .string cs
  | .string, c :: cs =>
    if c = '\\' then (c, cs) :: kept .escape cs
    else if c = '"' then (c, cs) :: kept .code cs
    else (c, cs) :: kept .string cs
  | .code, c :: cs =>
    if c = '"' then (c, cs) :: kept .string cs
    else if c = '/' then
      match cs with
      | [] => [(c, [])]
      | d :: ds =>
        if d = '/' then kept .lineComment ds
        else if d = '*' then kept .blockComment ds
        else (c, d :: ds) :: kept .code (d :: ds)
    else (c, cs) :: kept .code cs
  | .lineComment, c :: cs =>
    if c = '\n' then (c, cs) :: kept .code cs else kept .lineComment cs
  | .blockComment, c :: cs =>
    if c = '\n' then (c, cs) :: kept .blockComment cs
    else if c = '*' then
      match cs with
      | [] => []
      | d :: ds => if d = '/' then kept .code ds else kept .blockComment (d :: ds)
    else kept .blockComment cs

theorem kept_quote (s : List Char) : kept .code ('"' :: s) = ('"', s) :: kept .string s := by
  rw [kept.eq_def]
  rfl

theorem kept_char {c : Char} (hquote : c ≠ '"') (hslash : c ≠ '/') (s : List Char) :
    kept .code (c :: s) = (c, s) :: kept .code s := by
  rw [kept.eq_def]
  simp only [if_neg hquote, if_neg hslash]

theorem kept_blockComment {c : Char} (hc : c ≠ '*') (s : List Char) :
    kept .blockComment (c :: s) =
      if c = '\n' then (c, s) :: kept .blockComment s else kept .blockComment s := by
  rw [kept.eq_def]
  simp only [if_neg hc]

theorem kept_star (d : Char) (s : List Char) : kept .blockComment ('*' :: d :: s) =
    if d = '/' then kept .code s else kept .blockComment (d :: s) := by
  rw [kept.eq_def]
  rfl

/-- The list has characters of the text in their order, each with the text after it, and leaves out no
line end. -/
inductive Keeps : List Char → List (Char × List Char) → Prop
  | nil : Keeps [] []
  | keep {c cs ks} : Keeps cs ks → Keeps (c :: cs) ((c, cs) :: ks)
  | drop {c cs ks} : c ≠ '\n' → Keeps cs ks → Keeps (c :: cs) ks

/-- What is kept are characters of the text, with all its line ends, and they are what is left without
comments. -/
structure Faithful (region : Region) (cs : List Char) : Prop where
  keeps : Keeps cs (kept region cs)
  map_fst : (kept region cs).map (·.1) = dropComments region cs

namespace Faithful

variable {region next : Region} {c d : Char}

theorem nil (region : Region) : Faithful region [] := by
  cases region <;> exact ⟨.nil, rfl⟩

theorem keep (h : Faithful next cs) (hkept : kept region (c :: cs) = (c, cs) :: kept next cs)
    (hdrop : dropComments region (c :: cs) = c :: dropComments next cs) :
    Faithful region (c :: cs) :=
  ⟨hkept ▸ .keep h.keeps, by rw [hkept, hdrop, List.map_cons, h.map_fst]⟩

theorem drop (hc : c ≠ '\n') (h : Faithful next cs) (hkept : kept region (c :: cs) = kept next cs)
    (hdrop : dropComments region (c :: cs) = dropComments next cs) : Faithful region (c :: cs) :=
  ⟨hkept ▸ .drop hc h.keeps, by rw [hkept, hdrop, h.map_fst]⟩

theorem mark (hc : c ≠ '\n') (hd : d ≠ '\n') (h : Faithful next cs)
    (hkept : kept region (c :: d :: cs) = kept next cs)
    (hdrop : dropComments region (c :: d :: cs) = dropComments next cs) :
    Faithful region (c :: d :: cs) :=
  ⟨hkept ▸ .drop hc (.drop hd h.keeps), by rw [hkept, hdrop, h.map_fst]⟩

theorem string (hescape : Faithful .escape cs) (hcode : Faithful .code cs)
    (hstring : Faithful .string cs) : Faithful .string (c :: cs) := by
  by_cases hc : c = '\\'
  · exact hescape.keep (by simp [kept, hc]) (by simp [dropComments, hc])
  by_cases hquote : c = '"'
  · exact hcode.keep (by simp [kept, hquote]) (by simp [dropComments, hquote])
  · exact hstring.keep (by simp [kept, hc, hquote]) (by simp [dropComments, hc, hquote])

theorem lineComment (hcode : Faithful .code cs) (h : Faithful .lineComment cs) :
    Faithful .lineComment (c :: cs) := by
  by_cases hc : c = '\n'
  · exact hcode.keep (by simp [kept, hc]) (by simp [dropComments, hc])
  · exact h.drop hc (by simp [kept, hc]) (by simp [dropComments, hc])

/-- A slash begins a comment or is kept. -/
theorem slash (hcode : Faithful .code cs)
    (hcomment : ∀ d s, cs = d :: s → Faithful .lineComment s ∧ Faithful .blockComment s) :
    Faithful .code ('/' :: cs) := by
  cases cs with
  | nil => exact hcode.keep rfl rfl
  | cons d s =>
    obtain ⟨hline, hblock⟩ := hcomment d s rfl
    by_cases hd : d = '/'
    · subst hd
      exact hline.mark (by decide) (by decide) (by rw [kept.eq_def]; rfl)
        (by rw [dropComments.eq_def]; rfl)
    by_cases hstar : d = '*'
    · subst hstar
      exact hblock.mark (by decide) (by decide) (by rw [kept.eq_def]; rfl)
        (by rw [dropComments.eq_def]; rfl)
    · exact hcode.keep (by rw [kept.eq_def]; simp [hd, hstar])
        (by rw [dropComments.eq_def]; simp [hd, hstar])

theorem code (hcode : Faithful .code cs) (hstring : Faithful .string cs)
    (hcomment : ∀ d s, cs = d :: s → Faithful .lineComment s ∧ Faithful .blockComment s) :
    Faithful .code (c :: cs) := by
  by_cases hquote : c = '"'
  · subst hquote
    exact hstring.keep (kept_quote _) (dropComments_quote _)
  by_cases hslash : c = '/'
  · exact hslash ▸ hcode.slash hcomment
  · exact hcode.keep (kept_char hquote hslash _) (dropComments_char hquote hslash _)

theorem blockComment (h : Faithful .blockComment cs)
    (hcode : ∀ d s, cs = d :: s → Faithful .code s) : Faithful .blockComment (c :: cs) := by
  by_cases hstar : c = '*'
  · subst hstar
    cases cs with
    | nil => exact h.drop (by decide) rfl rfl
    | cons d s =>
      by_cases hd : d = '/'
      · subst hd
        exact (hcode _ _ rfl).mark (by decide) (by decide) (kept_star _ _) (dropComments_star _ _)
      · exact h.drop (by decide) ((kept_star _ _).trans (if_neg hd))
          ((dropComments_star _ _).trans (if_neg hd))
  by_cases hc : c = '\n'
  · exact h.keep (by rw [kept_blockComment hstar, if_pos hc])
      (by rw [dropComments_blockComment hstar, hc]; rfl)
  · exact h.drop hc (by rw [kept_blockComment hstar, if_neg hc])
      (by rw [dropComments_blockComment hstar]; simp [hc])

end Faithful

/-- By induction on the length: a mark of two characters is taken at once. -/
theorem faithful (region : Region) (cs : List Char) : Faithful region cs := by
  induction hn : cs.length using Nat.strongRecOn generalizing region cs with
  | ind n ih =>
    cases cs with
    | nil => exact .nil region
    | cons c cs =>
      have hnext (region) : Faithful region cs :=
        ih cs.length (by rw [← hn, List.length_cons]; omega) region cs rfl
      have hmark (region d s) (hcs : cs = d :: s) : Faithful region s :=
        ih s.length (by rw [← hn, hcs, List.length_cons, List.length_cons]; omega) region s rfl
      cases region with
      | escape => exact (hnext .string).keep rfl rfl
      | string => exact .string (hnext .escape) (hnext .code) (hnext .string)
      | lineComment => exact .lineComment (hnext .code) (hnext .lineComment)
      | code =>
        exact .code (hnext .code) (hnext .string)
          fun d s hcs => ⟨hmark .lineComment d s hcs, hmark .blockComment d s hcs⟩
      | blockComment => exact .blockComment (hnext .blockComment) (hmark .code)

theorem keeps_kept (region : Region) (cs : List Char) : Keeps cs (kept region cs) :=
  (faithful region cs).keeps

theorem map_kept (region : Region) (cs : List Char) :
    (kept region cs).map (·.1) = dropComments region cs := (faithful region cs).map_fst

theorem Keeps.count_newline (h : Keeps cs ks) :
    cs.count '\n' = (ks.map (·.1)).count '\n' := by
  induction h with
  | nil => rfl
  | keep _ ih => rw [List.map_cons, List.count_cons, List.count_cons, ih]
  | drop hne _ ih => rw [List.count_cons_of_ne hne, ih]

/-- Before the original of a character there are the line ends that come before the character. -/
theorem Keeps.exists_before (h : Keeps cs ks) {c : Char} {rest : List Char}
    (hn : ks[n]? = some (c, rest)) : ∃ before, cs = before ++ c :: rest ∧
      before.count '\n' = ((ks.map (·.1)).take n).count '\n' := by
  induction h generalizing n with
  | nil => simp at hn
  | @keep d cs ks _ ih =>
      cases n with
      | zero =>
          obtain ⟨rfl, rfl⟩ : d = c ∧ cs = rest := by simpa using hn
          exact ⟨[], rfl, rfl⟩
      | succ n =>
          obtain ⟨before, hcs, hcount⟩ := ih hn
          exact ⟨d :: before, by rw [hcs, List.cons_append], by
            rw [List.map_cons, List.take_succ_cons, List.count_cons, List.count_cons, hcount]⟩
  | @drop d cs ks hne _ ih =>
      obtain ⟨before, hcs, hcount⟩ := ih hn
      exact ⟨d :: before, by rw [hcs, List.cons_append], by rw [List.count_cons_of_ne hne, hcount]⟩

/-! ## Originals -/

/-- A character is as in the text, or it is a space in place of a comma. -/
def StandsFor (c' c : Char) : Prop := c' = c ∨ c = ',' ∧ c' = ' '

theorem StandsFor.newline_iff {c' c : Char} (h : StandsFor c' c) : c' = '\n' ↔ c = '\n' := by
  rcases h with rfl | ⟨rfl, rfl⟩
  · rfl
  · decide

theorem forall₂_blankCommas (region : Region) (s : List Char) :
    List.Forall₂ StandsFor (blankCommas region s) s := by
  fun_induction blankCommas region s <;> simp_all [StandsFor]

theorem count_newline_of_forall₂ (h : List.Forall₂ StandsFor t s) : t.count '\n' = s.count '\n' := by
  induction h with
  | nil => rfl
  | @cons c' c t s hc _ ih =>
      rw [List.count_cons, List.count_cons, ih]
      simp [hc.newline_iff]

theorem forall₂_strip (cs : List Char) :
    List.Forall₂ StandsFor (strip cs) ((kept .code cs).map (·.1)) := by
  rw [map_kept]
  exact forall₂_blankCommas _ _

/-- The text before the original of the character that has the number `n` when the text is stripped. -/
def front (cs : List Char) (n : Nat) : List Char :=
  match (kept .code cs)[n]? with
  | some (_, rest) => cs.take (cs.length - rest.length - 1)
  | none => cs

theorem front_of_some {c : Char} {rest : List Char} (hn : (kept .code cs)[n]? = some (c, rest)) :
    cs = front cs n ++ c :: rest ∧
      (front cs n).count '\n' = (((kept .code cs).map (·.1)).take n).count '\n' := by
  obtain ⟨before, hcs, hcount⟩ := (keeps_kept .code cs).exists_before hn
  have hlength : cs.length - rest.length - 1 = before.length := by
    rw [hcs, List.length_append, List.length_cons]
    omega
  have hfront : front cs n = before := by
    rw [front, hn]
    simp only [hlength]
    rw [hcs, List.take_left]
  rw [hfront]
  exact ⟨hcs, hcount⟩

theorem front_prefix (cs : List Char) (n : Nat) : front cs n <+: cs := by
  cases hn : (kept .code cs)[n]? with
  | some k => exact ⟨_, (front_of_some hn).1.symm⟩
  | none => simp [front, hn]

/-- Every character of the stripped text stands for one of the text. -/
theorem exists_original {c' : Char} (hn : (strip cs)[n]? = some c') :
    ∃ c rest, cs = front cs n ++ c :: rest ∧ StandsFor c' c := by
  have hstands := List.forall₂_iff_get.mp (forall₂_strip cs)
  obtain ⟨hlt, rfl⟩ := List.getElem?_eq_some_iff.mp hn
  have hkept : n < (kept .code cs).length := by simpa [hstands.1] using hlt
  refine ⟨_, _, (front_of_some (List.getElem?_eq_getElem hkept)).1, ?_⟩
  simpa using hstands.2 n hlt (by simpa using hkept)

theorem count_front (cs : List Char) (n : Nat) :
    (front cs n).count '\n' = ((strip cs).take n).count '\n' := by
  rw [count_newline_of_forall₂ (List.forall₂_take n (forall₂_strip cs))]
  cases hn : (kept .code cs)[n]? with
  | some k => exact (front_of_some hn).2
  | none =>
      rw [front, hn, List.take_of_length_le (by simpa using hn)]
      exact (keeps_kept .code cs).count_newline

/-! ## Lines -/

theorem cut_cons_of_ne {c : Char} (hc : c ≠ '\n') {piece : List Char} {pieces : List (List Char)}
    (h : Text.cut '\n' cs = piece :: pieces) :
    Text.cut '\n' (c :: cs) = (c :: piece) :: pieces := by
  rw [Text.cut, if_neg hc, h]

theorem exists_lines (h : List.Forall₂ (List.SublistForall₂ StandsFor) (Text.cut '\n' t)
    (Text.cut '\n' cs)) : ∃ piece' pieces' piece pieces,
      Text.cut '\n' t = piece' :: pieces' ∧ Text.cut '\n' cs = piece :: pieces ∧
      List.SublistForall₂ StandsFor piece' piece ∧
      List.Forall₂ (List.SublistForall₂ StandsFor) pieces' pieces := by
  obtain ⟨piece, pieces, hpieces⟩ := List.exists_cons_of_ne_nil (Text.cut_ne_nil '\n' cs)
  rw [hpieces] at h
  obtain ⟨piece', pieces', hpiece, hrest, hpieces'⟩ := List.forall₂_cons_right_iff.mp h
  exact ⟨piece', pieces', piece, pieces, hpieces', hpieces, hpiece, hrest⟩

/-- The text is stripped line by line. -/
theorem Keeps.forall₂_cut (h : Keeps cs ks) (ht : List.Forall₂ StandsFor t (ks.map (·.1))) :
    List.Forall₂ (List.SublistForall₂ StandsFor) (Text.cut '\n' t) (Text.cut '\n' cs) := by
  induction h generalizing t with
  | nil =>
      obtain rfl := List.forall₂_nil_right_iff.mp ht
      exact .cons .nil .nil
  | @keep c cs ks _ ih =>
      obtain ⟨c', t', hc, ht', rfl⟩ := List.forall₂_cons_right_iff.mp ht
      by_cases hnewline : c = '\n'
      · rw [hc.newline_iff.mpr hnewline, hnewline, Text.cut, if_pos rfl, Text.cut, if_pos rfl]
        exact .cons .nil (ih ht')
      · obtain ⟨piece', pieces', piece, pieces, hpieces', hpieces, hpiece, hrest⟩ :=
          exists_lines (ih ht')
        rw [cut_cons_of_ne hnewline hpieces,
          cut_cons_of_ne (fun h => hnewline (hc.newline_iff.mp h)) hpieces']
        exact .cons (.cons hc hpiece) hrest
  | @drop c cs ks hne _ ih =>
      obtain ⟨piece', pieces', piece, pieces, hpieces', hpieces, hpiece, hrest⟩ :=
        exists_lines (ih ht)
      rw [cut_cons_of_ne hne hpieces, hpieces']
      exact .cons hpiece.cons_right hrest

/-! ## Errors -/

/-- Why reading a text stops, and after how many bytes; nothing where a text within it is at fault. -/
def faultIn? (cs : List Char) : Option (Json.Fault × Nat) :=
  match Json.readText cs with
  | .error (.before fault rest ahead) => some (fault, Json.offsetOf cs rest ahead)
  | _ => none

/-- The error has the line and the column after the bytes that were read of the stripped text. -/
theorem exists_error_of_faultIn? {text : String} {fault : Json.Fault} {read : Nat}
    (h : faultIn? (strip text.toList) = some (fault, read)) :
    read ≤ Text.byteLength (strip text.toList) ∧
    ∃ e, parse text = .error e ∧
      (e.line, e.column) = Text.lineColumnAfter ((Text.bytes (strip text.toList)).take read) := by
  unfold faultIn? at h
  split at h
  · rename_i fault' rest ahead hstop
    obtain ⟨rfl, rfl⟩ := Prod.mk.inj (Option.some.inj h)
    refine ⟨Nat.min_le_right _ _,
      (Json.Stop.before fault' rest ahead).toError (strip text.toList), ?_, rfl⟩
    rw [parse, Json.parse, stripString, String.toList_ofList, hstop]
    rfl
  · cases h

/-- The stripped text has the line ends of the text. Its lines come from the lines of the text by taking
characters away and putting spaces in place of commas. Each character stands on the line of its original,
and an error is reported on the line of the text that reading came to. -/
theorem strip_keeps_lines (text : String) :
    (strip text.toList).count '\n' = text.toList.count '\n' ∧
    List.Forall₂ (List.SublistForall₂ StandsFor) (Text.cut '\n' (strip text.toList))
      (Text.cut '\n' text.toList) ∧
    (∀ n c', (strip text.toList)[n]? = some c' →
      ∃ c rest, text.toList = front text.toList n ++ c :: rest ∧ StandsFor c' c ∧
        ((strip text.toList).take n).count '\n' = (front text.toList n).count '\n') ∧
    ∀ fault read, faultIn? (strip text.toList) = some (fault, read) →
      ∃ e, parse text = .error e ∧ e.line =
        (front text.toList (Text.charsWithin read (strip text.toList))).count '\n' + 1 := by
  refine ⟨?_, (keeps_kept .code text.toList).forall₂_cut (forall₂_strip _), fun n c' hn => ?_,
    fun fault read h => ?_⟩
  · rw [count_newline_of_forall₂ (forall₂_strip _), ← (keeps_kept .code text.toList).count_newline]
  · obtain ⟨c, rest, htext, hc⟩ := exists_original hn
    exact ⟨c, rest, htext, hc, (count_front _ n).symm⟩
  · obtain ⟨hread, e, he, hplace⟩ := exists_error_of_faultIn? h
    rw [Text.lineColumnAfter_take hread] at hplace
    exact ⟨e, he, by rw [count_front, (Prod.mk.inj hplace).1]⟩

/-- The comment before the fault goes over two lines. -/
theorem strip_keeps_lines_of_long_comment :
    faultIn? (strip "[\n/* a\nb */\n1, , 2]".toList) = some (.expectedValue, 8) ∧
    ∃ e, parse "[\n/* a\nb */\n1, , 2]" = .error e ∧ e.line = 4 := by
  have h : faultIn? (strip "[\n/* a\nb */\n1, , 2]".toList) = some (.expectedValue, 8) := by
    decide +kernel
  obtain ⟨e, he, hline⟩ := (strip_keeps_lines "[\n/* a\nb */\n1, , 2]").2.2.2 _ _ h
  exact ⟨h, e, he, hline.trans (by decide +kernel)⟩

end ScriptWorks.Jsonc
