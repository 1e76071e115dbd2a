import ScriptWorks.Proofs.Jsonc.Removal

/-!
# The texts with a value

A text has a value if and only if it is a JSON text of that value with comments and trailing commas in
it, as a lax reader takes them.
-/

namespace ScriptWorks.Jsonc

open Json

/-! ## From white space to comments and commas -/

theorem isSpace_of_mem_blank {comment : List Char} : ∀ c ∈ blank comment, isSpace c = true := by
  intro c hc
  rcases List.mem_cons.mp hc with rfl | hc
  · rfl
  · exact isSpace_of_mem_newlines c hc

theorem skipSpace_spaces {sp : List Char} (hsp : ∀ c ∈ sp, isSpace c = true) (s : List Char) :
    skipSpace (sp ++ s) = skipSpace s := List.dropWhile_append_of_pos hsp

theorem Before.parted_ne_word (b : Before) : b.parted ≠ .word := by
  cases b <;> nofun

/-- No comma was taken away at once after a separator. -/
theorem Blanked.closesNext_eq {m : Manner} {b : Before} {u t : List Char} (h : Blanked m b u t)
    (hb : b = .separator) : closesNext (dropComments .code u) = closesNext t := by
  induction h with
  | nil => rfl
  | space hc _ ih =>
      rw [dropComments_space hc, closesNext_space hc, closesNext_space hc, ih (by rw [hb]; rfl)]
  | opening hc | closing hc | separator hc =>
      simp only [List.mem_cons, List.not_mem_nil, or_false] at hc
      rcases hc with rfl | rfl <;>
        rw [dropComments_char (by decide) (by decide), closesNext_cons rfl, closesNext_cons rfl]
  | @string m b s u t hs =>
      have hcomments := (Inert.string hs).comments u
      simp only [List.cons_append, List.append_assoc, List.nil_append] at hcomments
      rw [hcomments, closesNext_cons rfl, closesNext_cons rfl]
  | word hc =>
      have hblank := isBlank_eq_false_of_isWordChar hc
      have hne : ∀ d : Char, isWordChar d = false → _ ≠ d := fun _ => ne_of_class hc
      rw [dropComments_char (hne '"' rfl) (hne '/' rfl), closesNext_cons hblank,
        closesNext_cons hblank]
  | line hs hu _ ih =>
      rw [dropComments_line hs hu, closesNext_spaces isSpace_of_mem_blank, ih (by rw [hb]; rfl)]
  | block hs _ ih =>
      rw [dropComments_block hs, closesNext_spaces isSpace_of_mem_newlines,
        closesNext_spaces isSpace_of_mem_blank, ih (by rw [hb]; rfl)]
  | comma hend => rcases hend with rfl | rfl <;> cases hb
  | loneComma | inWord => cases hb
  | @openBlock b s hs =>
      rw [dropComments_openBlock hs, ← List.append_nil (s.filter _), ← List.append_nil (blank s),
        closesNext_spaces isSpace_of_mem_newlines, closesNext_spaces isSpace_of_mem_blank]

theorem strip_bracket {c : Char} (hc : c ∈ ['[', '{', ']', '}']) (u : List Char) :
    strip (c :: u) = c :: strip u := by
  simp only [List.mem_cons, List.not_mem_nil, or_false] at hc
  rcases hc with rfl | rfl | rfl | rfl <;> exact strip_char (by decide) (by decide) (by decide) u

theorem closesNext_of_skipSpace {c : Char} {s t : List Char} (ht : skipSpace t = c :: s)
    (hc : c ∈ [']', '}']) : closesNext t = true := by
  rw [← closesNext_skipSpace, ht]
  simp only [List.mem_cons, List.not_mem_nil, or_false] at hc
  rcases hc with rfl | rfl <;> rfl

/-- A comma that was taken away is blanked. -/
theorem Blanked.strip_comma {m : Manner} {c : Char} {s u t : List Char}
    (h : Blanked m .separator u t) (ht : skipSpace t = c :: s) (hc : c ∈ [']', '}']) :
    strip (',' :: u) = ' ' :: strip u := by
  rw [Jsonc.strip_comma, h.closesNext_eq rfl, closesNext_of_skipSpace ht hc]
  rfl

/-- A comma or a colon that was kept is kept. -/
theorem Blanked.strip_separator {m : Manner} {c : Char} {u t : List Char}
    (h : Blanked m .separator u t) (hc : c ∈ [',', ':']) (ht : closesNext t = false) :
    strip (c :: u) = c :: strip u := by
  simp only [List.mem_cons, List.not_mem_nil, or_false] at hc
  rcases hc with rfl | rfl
  · rw [Jsonc.strip_comma, h.closesNext_eq rfl, ht]
    rfl
  · exact strip_char (by decide) (by decide) (by decide) u

/-- No word goes on after the white space for a comment. -/
theorem endsWord_of_blank {comment r t : List Char} (h : Spaced r t)
    (ht : EndsWord (skipSpace (blank comment ++ t))) : EndsWord r := by
  rw [skipSpace_spaces isSpace_of_mem_blank] at ht
  refine .of_skipSpace fun c hc => ?_
  obtain ⟨s, hs⟩ := List.head?_eq_some_iff.mp hc
  obtain ⟨s', hs', -⟩ := Respaced.head (.inl h) hs
  exact ht c (by rw [hs']; rfl)

theorem ne_quote_of_bracket {c : Char} (hc : c ∈ ['[', '{', ']', '}']) : c ≠ '"' := by
  rintro rfl
  exact absurd hc (by decide)

/-- What is blanked to a text of tokens is stripped to it, but for white space. -/
theorem Blanked.stripped {m : Manner} {b : Before} {u t : List Char} (h : Blanked m b u t)
    (ht : Tokenized t) (hword : b = .word → EndsWord t → EndsWord (skipSpace t)) :
    Stripped b u t := by
  have hapart : ∀ {b : Before} {t : List Char},
      b.parted = .word → EndsWord t → EndsWord (skipSpace t) :=
    fun {b} _ h => absurd h b.parted_ne_word
  induction h with
  | nil => exact .nil
  | space hc _ ih => exact (ih (ht.tail (ne_of_class hc rfl)) hapart).space hc
  | opening hc _ ih =>
      have hbracket := List.mem_append_left [']', '}'] hc
      exact (ih (ht.tail (ne_quote_of_bracket hbracket)) nofun).mark
        (List.mem_append_left [',', ':'] hc) (strip_bracket hbracket _)
  | closing hc _ ih =>
      have hbracket := List.mem_append_right ['[', '{'] hc
      exact (ih (ht.tail (ne_quote_of_bracket hbracket)) nofun).closing hc (strip_bracket hbracket _)
  | separator hc h ih =>
      obtain ⟨hopen, ht⟩ := ht.of_cons_separator hc
      exact (ih ht nofun).mark (List.mem_append_right ['[', '{'] hc) (h.strip_separator hc hopen)
  | string hs _ ih =>
      obtain ⟨b, r, hb, hsame, hr⟩ := ht.exists_body
      obtain ⟨rfl, rfl⟩ := hs.eq_of_append_eq hb hsame
      exact (ih hr nofun).string hs
  | word hc _ ih =>
      obtain ⟨hends, ht⟩ := ht.of_cons_word hc
      exact (ih ht fun _ => hends).word hc
  | line hs hu _ ih => exact (ih (ht.of_spaces isSpace_of_mem_blank) hapart).line hs hu
  | block hs _ ih =>
      have h := ih (ht.of_spaces isSpace_of_mem_blank) hapart
      refine .comment (strip_block hs _) (fun hb _ => ?_) h.spaced
      exact endsWord_of_blank h.spaced (hword hb (by rintro _ ⟨⟩; rfl))
  | comma _ hnext hc h ih =>
      exact (ih (ht.tail (by decide)) nofun).trailingComma (h.strip_comma hnext hc)
  | loneComma hnext hc h ih =>
      exact (ih (ht.tail (by decide)) nofun).trailingComma (h.strip_comma hnext hc)
  | openBlock hs => exact .openBlock hs
  | inWord hs hline hc _ ih => exact (ih ht hword).inWord hs hline

/-! ## Values -/

/-- A text has a value if and only if it is a JSON text of that value in which there are comments and
trailing commas, as a lax reader takes them. -/
theorem parse_eq_ok_iff_blanked {text : String} {v : Json} : parse text = .ok v ↔
    ∃ json : String, Blanked .lax .separator text.toList json.toList ∧ Json.parse json = .ok v := by
  have hstrip : parse text = .ok v ↔ readText (strip text.toList) = .ok v := by
    unfold parse stripString
    rw [parse_eq_ok_iff, String.toList_ofList]
  rw [hstrip]
  constructor
  · intro hread
    obtain ⟨t, hblanked, hstripped⟩ := exists_blanked (b := .separator) (parts text.toList)
      (tokenized_of_readText hread) (.of_open (closesNext_of_readText hread))
    refine ⟨String.ofList t, ?_, parse_eq_ok_iff.mpr ?_⟩
    · rwa [String.toList_ofList]
    · rw [String.toList_ofList]
      exact readText_of_respaced (.inl hstripped.spaced) hread
  · rintro ⟨json, hblanked, hjson⟩
    have hread := parse_eq_ok_iff.mp hjson
    have hstripped := hblanked.stripped (tokenized_of_readText hread) nofun
    exact readText_of_respaced (.inr hstripped.spaced) hread

/-- A comment inside a word, a comma alone between brackets and a comment that is not closed. -/
theorem parse_eq_ok_iff_blanked_of_lax :
    let text := "[tr/**/ue,[,]]/*"
    ∃ v, v.compact = "[true,[]]" ∧ parse text = .ok v ∧
      ∃ json : String, Blanked .lax .separator text.toList json.toList ∧ Json.parse json = .ok v := by
  intro text
  have hvalue : (parse text).toOption.map compact = some "[true,[]]" := by decide +kernel
  obtain ⟨v, hv, hcompact⟩ := Option.map_eq_some_iff.mp hvalue
  have hparse := toOption_eq_some.mp hv
  exact ⟨v, hcompact, hparse, parse_eq_ok_iff_blanked.mp hparse⟩

theorem Blanked.of_lone_comma {t : List Char} (h : Blanked .strict .separator ['[', ',', ']'] t) :
    t = ['[', ',', ']'] := by
  cases h with
  | space hc | closing hc | separator hc | word hc => exact absurd hc (by decide)
  | opening _ h =>
      cases h with
      | space hc | closing hc | opening hc | word hc => exact absurd hc (by decide)
      | comma hb => rcases hb with hb | hb <;> cases hb
      | separator _ h =>
          cases h with
          | space hc | separator hc | opening hc | word hc => exact absurd hc (by decide)
          | closing _ h =>
              cases h
              rfl

theorem Blanked.not_of_open_comment {b : Before} {t : List Char} :
    ¬ Blanked .strict b ['/', '*'] t := by
  generalize hu : ['/', '*'] = u
  intro h
  cases h with
  | nil | string | line | comma => cases hu
  | space hc | separator hc | opening hc | word hc | closing hc =>
      cases hu
      exact absurd hc (by decide)
  | block =>
      have hrest := (List.cons.inj (List.cons.inj hu).2).2
      simp at hrest

theorem Blanked.not_of_open_comment_after {t : List Char} :
    ¬ Blanked .strict .separator ['{', '}', '/', '*'] t := by
  intro h
  cases h with
  | space hc | closing hc | separator hc | word hc => exact absurd hc (by decide)
  | opening _ h =>
      cases h with
      | space hc | separator hc | opening hc | word hc => exact absurd hc (by decide)
      | closing _ h => exact not_of_open_comment h

theorem Blanked.of_comment_in_word {t : List Char}
    (h : Blanked .strict .separator ['1', '/', '*', '*', '/', '2'] t) : t = ['1', ' ', '2'] := by
  cases h with
  | space hc | closing hc | separator hc | opening hc => exact absurd hc (by decide)
  | word _ h =>
      generalize hu : ['/', '*', '*', '/', '2'] = u at h
      cases h with
      | nil | string | line | comma => cases hu
      | space hc | separator hc | opening hc | word hc | closing hc =>
          cases hu
          exact absurd hc (by decide)
      | @block _ _ s u t _ h =>
          have hbody := (List.cons.inj (List.cons.inj hu).2).2
          have hrest : s = [] ∧ u = ['2'] := by
            rcases s with _ | ⟨d, _ | ⟨e, s⟩⟩
            · exact ⟨rfl, by simpa using hbody.symm⟩
            · simp at hbody
            · have hlength := congrArg List.length hbody
              simp only [List.length_cons, List.length_append, List.length_nil] at hlength
              omega
          obtain ⟨rfl, rfl⟩ := hrest
          cases h with
          | space hc | closing hc | separator hc | opening hc => exact absurd hc (by decide)
          | word _ h =>
              cases h
              rfl

/-- Texts with a value that have none to a strict reader. -/
theorem strict_reader_refuses_parsed_texts :
    let refused := fun text : String => (∃ v, parse text = .ok v) ∧
      ¬ ∃ (json : String) (v : Json),
        Blanked .strict .separator text.toList json.toList ∧ Json.parse json = .ok v
    refused "[,]" ∧ refused "{}/*" ∧ refused "1/**/2" := by
  intro refused
  have hparses : ∀ text, (parse text).toOption.isSome = true → ∃ v, parse text = .ok v := by
    intro text h
    obtain ⟨v, hv⟩ := Option.isSome_iff_exists.mp h
    exact ⟨v, toOption_eq_some.mp hv⟩
  have hrefused : ∀ text : String, (Json.parse text).toOption = none →
      ∀ json : String, json.toList = text.toList → ∀ v, Json.parse json ≠ .ok v := by
    intro text hnone json hsame v hv
    rw [String.toList_inj.mp hsame] at hv
    rw [hv] at hnone
    cases hnone
  refine ⟨⟨hparses _ (by decide +kernel), ?_⟩, ⟨hparses _ (by decide +kernel), ?_⟩,
    ⟨hparses _ (by decide +kernel), ?_⟩⟩
  · rintro ⟨json, v, hblanked, hv⟩
    exact hrefused "[,]" (by decide +kernel) json hblanked.of_lone_comma v hv
  · rintro ⟨json, v, hblanked, -⟩
    exact hblanked.not_of_open_comment_after
  · rintro ⟨json, v, hblanked, hv⟩
    exact hrefused "1 2" (by decide +kernel) json hblanked.of_comment_in_word v hv

end ScriptWorks.Jsonc
