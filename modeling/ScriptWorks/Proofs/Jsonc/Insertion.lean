import ScriptWorks.Proofs.Json.Spacing
import ScriptWorks.Proofs.Jsonc.Plain

/-!
# Comments and trailing commas

A text with comments and trailing commas has the value of the JSON text that it is made from.
-/

namespace ScriptWorks.Jsonc

open Json

/-- The second text is the first with white space, comments and trailing commas inserted between tokens.
A trailing comma may stand where a value has just ended and the next token is a closing bracket. -/
inductive Laced : Bool → List Char → List Char → Prop
  | same {ended t} : Laced ended t t
  | space {ended c t u} : isSpace c = true → Laced ended t u → Laced ended t (c :: u)
  | block {ended b t u} : ¬ ['*', '/'] <:+: b → Laced ended t u →
      Laced ended t ('/' :: '*' :: (b ++ '*' :: '/' :: u))
  | line {ended b t u} : '\n' ∉ b → (∀ c ∈ u.head?, c = '\n') → Laced ended t u →
      Laced ended t ('/' :: '/' :: (b ++ u))
  | comma {c s t u} : skipSpace t = c :: s → c ∈ [']', '}'] → Laced false t u →
      Laced true t (',' :: u)
  | keep {ended c t u} : isSpace c = true → Laced ended t u → Laced ended (c :: t) (c :: u)
  | token {ended ends p t u} : Token ends p t → Laced ends t u → Laced ended (p ++ t) (p ++ u)

/-! ## Comments -/

theorem dropComments_lineComment (c : Char) (s : List Char) : dropComments .lineComment (c :: s) =
    if c = '\n' then c :: dropComments .code s else dropComments .lineComment s := by
  rw [dropComments.eq_def]

theorem dropComments_blockComment {c : Char} (hc : c ≠ '*') (s : List Char) :
    dropComments .blockComment (c :: s) =
      [c].filter (· = '\n') ++ dropComments .blockComment s := by
  rw [dropComments.eq_def]
  by_cases hnewline : c = '\n' <;> simp [hnewline, hc]

theorem dropComments_star (d : Char) (s : List Char) : dropComments .blockComment ('*' :: d :: s) =
    if d = '/' then dropComments .code s else dropComments .blockComment (d :: s) := by
  rw [dropComments.eq_def]
  rfl

theorem dropComments_inBlock {body u : List Char} (hbody : ¬ ['*', '/'] <:+: body)
    (hu : ∀ c ∈ u.head?, c = '*') : dropComments .blockComment (body ++ u) =
      body.filter (· = '\n') ++ dropComments .blockComment u := by
  induction body with
  | nil => rfl
  | cons c body ih =>
      have hrest : ¬ ['*', '/'] <:+: body :=
        fun h => hbody (h.trans (List.suffix_cons c body).isInfix)
      by_cases hc : c = '*'
      -- No slash comes after the star, be it followed by the end of the body.
      · subst hc
        have hslash : ∀ s, body ++ u ≠ '/' :: s := by
          rintro s hs
          cases body with
          | nil => exact absurd (hu '/' (by rw [← List.nil_append u, hs]; rfl)) (by decide)
          | cons d body =>
              obtain ⟨rfl, -⟩ := List.cons.inj hs
              exact hbody ⟨[], body, rfl⟩
        rw [List.filter_cons_of_neg (by decide), ← ih hrest, List.cons_append]
        cases hs : body ++ u with
        | nil => rfl
        | cons d s =>
            have hd : d ≠ '/' := by
              rintro rfl
              exact hslash s hs
            exact (dropComments_star d s).trans (if_neg hd)
      · rw [List.cons_append, dropComments_blockComment hc, ih hrest, ← List.append_assoc,
          ← List.filter_append]
        rfl

/-- Of a block comment its line ends are left. -/
theorem dropComments_block {body : List Char} (hbody : ¬ ['*', '/'] <:+: body) (s : List Char) :
    dropComments .code ('/' :: '*' :: (body ++ '*' :: '/' :: s)) =
      body.filter (· = '\n') ++ dropComments .code s := by
  have hinner : dropComments .blockComment (body ++ '*' :: '/' :: s) =
      body.filter (· = '\n') ++ dropComments .code s := by
    rw [dropComments_inBlock hbody (by rintro _ ⟨⟩; rfl), dropComments_star, if_pos rfl]
  rw [dropComments.eq_def]
  exact hinner

/-- Of a block comment that is not closed its line ends are left. -/
theorem dropComments_openBlock {body : List Char} (hbody : ¬ ['*', '/'] <:+: body) :
    dropComments .code ('/' :: '*' :: body) = body.filter (· = '\n') := by
  have hinner : dropComments .blockComment body = body.filter (· = '\n') := by
    have h := dropComments_inBlock hbody (u := []) nofun
    rwa [List.append_nil, dropComments, List.append_nil] at h
  rw [dropComments.eq_def]
  exact hinner

/-- Of a line comment nothing is left but the line end after it. -/
theorem dropComments_line {body s : List Char} (hbody : '\n' ∉ body)
    (hs : ∀ c ∈ s.head?, c = '\n') :
    dropComments .code ('/' :: '/' :: (body ++ s)) = dropComments .code s := by
  have hinner : dropComments .lineComment (body ++ s) = dropComments .code s := by
    induction body with
    | nil =>
        cases s with
        | nil => rfl
        | cons c s =>
            cases hs c rfl
            exact (dropComments_lineComment '\n' s).trans
              (dropComments_char (by decide) (by decide) s).symm
    | cons c body ih =>
        obtain ⟨hc, hbody⟩ := not_or.mp (fun h => hbody (List.mem_cons.mpr h))
        rw [List.cons_append, dropComments_lineComment, if_neg (Ne.symm hc), ih hbody]
  rw [dropComments.eq_def]
  exact hinner

/-! ## Trailing commas -/

theorem closesNext_spaces {sp : List Char} (hsp : ∀ c ∈ sp, isSpace c = true) (s : List Char) :
    closesNext (sp ++ s) = closesNext s := by
  induction sp with
  | nil => rfl
  | cons c sp ih =>
      obtain ⟨hc, hsp⟩ := List.forall_mem_cons.mp hsp
      rw [List.cons_append, closesNext_space hc, ih hsp]

theorem dropComments_space {c : Char} (hc : isSpace c = true) (s : List Char) :
    dropComments .code (c :: s) = c :: dropComments .code s := (Inert.space hc).comments s

theorem isSpace_of_mem_newlines {body : List Char} :
    ∀ c ∈ body.filter (· = '\n'), isSpace c = true := by
  intro c hc
  rw [of_decide_eq_true (List.mem_filter.mp hc).2]
  rfl

theorem strip_space {c : Char} (hc : isSpace c = true) (s : List Char) :
    strip (c :: s) = c :: strip s := (Inert.space hc).strip_append s

theorem strip_block {body : List Char} (hbody : ¬ ['*', '/'] <:+: body) (s : List Char) :
    strip ('/' :: '*' :: (body ++ '*' :: '/' :: s)) = body.filter (· = '\n') ++ strip s := by
  unfold strip
  rw [dropComments_block hbody, (Inert.spaces isSpace_of_mem_newlines).commas]

theorem strip_comma (s : List Char) : strip (',' :: s) =
    (if closesNext (dropComments .code s) then ' ' else ',') :: strip s := by
  unfold strip
  rw [dropComments_char (by decide) (by decide), blankCommas_comma]

namespace Laced

variable {t u : List Char}

/-- No comma comes before the next token unless a value has just ended. -/
theorem closesNext_eq {ended : Bool} (h : Laced ended t u) (hended : ended = false) :
    closesNext (dropComments .code u) = closesNext (dropComments .code t) := by
  induction h with
  | same => rfl
  | space hc _ ih => rw [dropComments_space hc, closesNext_space hc, ih hended]
  | block hbody _ ih =>
      rw [dropComments_block hbody, closesNext_spaces isSpace_of_mem_newlines, ih hended]
  | line hbody hu _ ih => rw [dropComments_line hbody hu, ih hended]
  | comma => cases hended
  | keep hc _ ih =>
      rw [dropComments_space hc, dropComments_space hc, closesNext_space hc, closesNext_space hc,
        ih hended]
  | token hp =>
      rw [dropComments_token hp, dropComments_token hp]
      exact closesNext_token hp _ _

/-- Stripping leaves nothing of what was inserted but white space. -/
theorem spaced_strip {ended : Bool} (h : Laced ended t u) (ht : Plain t) : Spaced t (strip u) := by
  induction h with
  | same =>
      rw [ht.strip_eq]
      exact .same
  | space hc _ ih =>
      rw [strip_space hc]
      exact .space hc (ih ht)
  | block hbody _ ih =>
      rw [strip_block hbody]
      exact .spaces isSpace_of_mem_newlines (ih ht)
  | line hbody hu _ ih =>
      unfold strip
      rw [dropComments_line hbody hu]
      exact ih ht
  | @comma c s t u hnext hc h ih =>
      have hcloses : closesNext (dropComments .code u) = true := by
        rw [h.closesNext_eq rfl, ht.comments, ← closesNext_skipSpace, hnext]
        simp only [List.mem_cons, List.not_mem_nil, or_false] at hc
        rcases hc with rfl | rfl <;> rfl
      rw [strip_comma, hcloses]
      exact .space rfl (ih ht)
  | keep hc _ ih =>
      rw [strip_space hc]
      exact .keep hc (ih (((Inert.space hc).plain_iff _).mp ht))
  | @token ended ends p t u hp h ih =>
      rcases inert_of_token hp with ⟨rfl, rfl⟩ | hinert
      · obtain ⟨hopen, ht⟩ := (plain_comma_iff t).mp ht
        have hstays : closesNext (dropComments .code u) = false := by
          rw [h.closesNext_eq rfl, ht.comments, hopen]
        rw [List.singleton_append, List.singleton_append, strip_comma, hstays]
        exact .token hp (ih ht)
      · rw [hinert.strip_append]
        exact .token hp (ih ((hinert.plain_iff t).mp ht))

end Laced

/-! ## Values -/

/-- A JSON text is left as it is, and all texts made from it by inserting comments and trailing commas
have its value. -/
theorem laced_text_has_value_of_text {text : String} {v : Json} (h : Json.parse text = .ok v) :
    stripString text = text ∧
      ∀ laced : String, Laced false text.toList laced.toList → parse laced = .ok v := by
  have hread := parse_eq_ok_iff.mp h
  have hplain := (tokenized_of_readText hread).plain
  constructor
  · unfold stripString
    rw [hplain.strip_eq, String.ofList_toList]
  · intro laced hlaced
    refine parse_eq_ok_iff.mpr ?_
    unfold stripString
    rw [String.toList_ofList]
    exact readText_of_respaced (.inl (hlaced.spaced_strip hplain)) hread

/-- Comments with quotes and brackets in them, a string with the start of a comment, and a comma before a
comment and the closing bracket. -/
theorem laced_text_has_value_of_text_of_list :
    let text := "[\"/*\",1]"
    let laced := "/*\"*/[\"/*\" // ]\n,1, /**/]//"
    ∃ v, v.compact = text ∧ Json.parse text = .ok v ∧ stripString text = text ∧
      Laced false text.toList laced.toList ∧ parse laced = .ok v := by
  intro text laced
  have hvalue : (Json.parse text).toOption.map compact = some text := by decide +kernel
  obtain ⟨v, hv, hcompact⟩ := Option.map_eq_some_iff.mp hvalue
  have hparse := toOption_eq_some.mp hv
  have hlaced : Laced false "[\"/*\",1]".toList "/*\"*/[\"/*\" // ]\n,1, /**/]//".toList := by
    have hclose : Laced false "]".toList " /**/]//".toList :=
      .space rfl (.block (b := []) (by decide) (.token (.close (by decide))
        (.line (b := []) (by decide) nofun .same)))
    have hlast : Laced true ",1]".toList "\n,1, /**/]//".toList :=
      .space rfl (.token (.mark (by decide))
        (.token (.word (w := []) (by decide) (by decide)) (.comma rfl (by decide) hclose)))
    have hfirst : Laced false "[\"/*\",1]".toList "[\"/*\" // ]\n,1, /**/]//".toList :=
      .token (.mark (by decide))
        (.token (.string (.char (by decide) (by decide) (.char (by decide) (by decide) .nil)))
          (.space rfl (.line (b := " ]".toList) (by decide) (by rintro _ ⟨⟩; rfl) hlast)))
    exact .block (b := "\"".toList) (by decide) hfirst
  obtain ⟨hstrip, hvalues⟩ := laced_text_has_value_of_text hparse
  exact ⟨v, hcompact, hparse, hstrip, hlaced, hvalues laced hlaced⟩

end ScriptWorks.Jsonc
