import ScriptWorks.Jsonc
import ScriptWorks.Proofs.Json.Token

/-!
# Texts without comments and trailing commas

Every JSON text is such a text, whatever its strings contain, and comes out of `strip` as it is.
-/

namespace ScriptWorks.Jsonc

open Json

/-! ## The next character -/

theorem isBlank_of_isSpace {c : Char} (h : isSpace c = true) : Text.isBlank c = true := by
  simp only [isSpace, Bool.or_eq_true, decide_eq_true_eq] at h
  rcases h with ((rfl | rfl) | rfl) | rfl <;> rfl

theorem isBlank_eq_false_of_isWordChar {c : Char} (h : isWordChar c = true) :
    Text.isBlank c = false := by
  have hrange : 0x2B ≤ c.val ∧ c.val ≤ 0x7A := by
    delta isWordChar Char.isAlphanum Char.isAlpha Char.isUpper Char.isLower Char.isDigit at h
    simp only [Bool.or_eq_true, Bool.and_eq_true, decide_eq_true_eq] at h
    rcases h with ((halnum | rfl) | rfl) | rfl
    · simp only [Char.reduceVal, UInt32.le_iff_toNat_le, UInt32.reduceToNat, ge_iff_le] at halnum ⊢
      omega
    all_goals decide
  simp only [UInt32.le_iff_toNat_le, UInt32.reduceToNat] at hrange
  simp only [Text.isBlank, Bool.or_eq_false_iff, Bool.and_eq_false_iff, decide_eq_false_iff_not,
    beq_eq_false_iff_ne, ne_eq, UInt32.le_iff_toNat_le, ← UInt32.toNat_inj, UInt32.reduceToNat]
  omega

theorem closesNext_space {c : Char} (hc : isSpace c = true) (s : List Char) :
    closesNext (c :: s) = closesNext s := by
  unfold closesNext Text.trimStart
  rw [List.dropWhile_cons_of_pos (isBlank_of_isSpace hc)]

theorem closesNext_cons {c : Char} (hc : Text.isBlank c = false) (s : List Char) :
    closesNext (c :: s) = (c = ']' || c = '}') := by
  unfold closesNext Text.trimStart
  rw [List.dropWhile_cons_of_neg (by simp [hc])]

/-- White space does not count. -/
theorem closesNext_skipSpace (s : List Char) : closesNext (skipSpace s) = closesNext s := by
  induction s with
  | nil => rfl
  | cons c s ih =>
      cases hc : isSpace c with
      | true => rw [skipSpace_space hc, ih, closesNext_space hc]
      | false => rw [skipSpace_of_not hc]

/-! ## What is left as it is -/

/-- Neither comments nor commas are sought in such a piece of a text. -/
structure Inert (p : List Char) : Prop where
  comments (s) : dropComments .code (p ++ s) = p ++ dropComments .code s
  commas (s) : blankCommas .code (p ++ s) = p ++ blankCommas .code s

theorem dropComments_char {c : Char} (hquote : c ≠ '"') (hslash : c ≠ '/') (s : List Char) :
    dropComments .code (c :: s) = c :: dropComments .code s := by
  rw [dropComments.eq_def]
  simp only [if_neg hquote, if_neg hslash]

theorem dropComments_quote (s : List Char) :
    dropComments .code ('"' :: s) = '"' :: dropComments .string s := by
  rw [dropComments.eq_def]
  rfl

theorem blankCommas_char {c : Char} (hquote : c ≠ '"') (hcomma : c ≠ ',') (s : List Char) :
    blankCommas .code (c :: s) = c :: blankCommas .code s := by
  simp [blankCommas, hquote, hcomma]

theorem blankCommas_comma (s : List Char) :
    blankCommas .code (',' :: s) = (if closesNext s then ' ' else ',') :: blankCommas .code s := by
  simp [blankCommas]

/-- A pass over a text that leaves strings as they are. -/
structure CopiesStrings (pass : Region → List Char → List Char) : Prop where
  nil (region) : pass region [] = []
  char {c} (s) : c ≠ '"' → c ≠ '\\' → pass .string (c :: s) = c :: pass .string s
  quote (s) : pass .string ('"' :: s) = '"' :: pass .code s
  escape (s) : pass .string ('\\' :: s) = '\\' :: pass .escape s
  escaped (c s) : pass .escape (c :: s) = c :: pass .string s

namespace CopiesStrings

variable {pass : Region → List Char → List Char} {b : List Char}

theorem body (h : CopiesStrings pass) (hb : StringBody b) (s : List Char) :
    pass .string (b ++ '"' :: s) = b ++ '"' :: pass .code s := by
  induction hb with
  | nil => exact h.quote s
  | char hquote hslash _ ih => rw [List.cons_append, h.char _ hquote hslash, ih, List.cons_append]
  | escape _ ih =>
      rw [List.cons_append, List.cons_append, h.escape, h.escaped, ih]
      rfl

theorem exists_of_cons (h : CopiesStrings pass) {c : Char} {s t : List Char}
    (hs : pass .string s = c :: t) : ∃ s', s = c :: s' := by
  cases s with
  | nil => rw [h.nil] at hs; cases hs
  | cons d s =>
      by_cases hquote : d = '"'
      · rw [hquote, h.quote] at hs
        exact ⟨s, by rw [hquote, (List.cons.inj hs).1]⟩
      by_cases hslash : d = '\\'
      · rw [hslash, h.escape] at hs
        exact ⟨s, by rw [hslash, (List.cons.inj hs).1]⟩
      · rw [h.char s hquote hslash] at hs
        exact ⟨s, by rw [(List.cons.inj hs).1]⟩

/-- A string that is closed afterwards was closed before. -/
theorem exists_of_body (h : CopiesStrings pass) (hb : StringBody b) {s t : List Char}
    (hs : pass .string s = b ++ '"' :: t) : ∃ r, s = b ++ '"' :: r := by
  induction hb generalizing s with
  | nil => exact h.exists_of_cons hs
  | char hquote hslash _ ih =>
      obtain ⟨s, rfl⟩ := h.exists_of_cons hs
      rw [h.char s hquote hslash] at hs
      obtain ⟨r, rfl⟩ := ih (List.cons.inj hs).2
      exact ⟨r, rfl⟩
  | escape _ ih =>
      obtain ⟨s, rfl⟩ := h.exists_of_cons hs
      rw [h.escape] at hs
      cases s with
      | nil => rw [h.nil] at hs; cases hs
      | cons e s =>
          rw [h.escaped] at hs
          obtain ⟨he, hs⟩ := List.cons.inj (List.cons.inj hs).2
          obtain ⟨r, rfl⟩ := ih hs
          exact ⟨r, by rw [he]; rfl⟩

end CopiesStrings

theorem copiesStrings_dropComments : CopiesStrings dropComments where
  nil region := by cases region <;> rfl
  char s hquote hslash := by simp [dropComments, hquote, hslash]
  quote s := by simp [dropComments]
  escape s := by simp [dropComments]
  escaped c s := by simp [dropComments]

theorem copiesStrings_blankCommas : CopiesStrings blankCommas where
  nil region := by cases region <;> rfl
  char s hquote hslash := by simp [blankCommas, hquote, hslash]
  quote s := by simp [blankCommas]
  escape s := by simp [blankCommas]
  escaped c s := by simp [blankCommas]

namespace Inert

theorem nil : Inert [] := ⟨fun _ => rfl, fun _ => rfl⟩

theorem append {p q : List Char} (hp : Inert p) (hq : Inert q) : Inert (p ++ q) := by
  constructor
  · intro s
    rw [List.append_assoc, hp.comments, hq.comments, List.append_assoc]
  · intro s
    rw [List.append_assoc, hp.commas, hq.commas, List.append_assoc]

theorem char {c : Char} (hquote : c ≠ '"') (hslash : c ≠ '/') (hcomma : c ≠ ',') : Inert [c] :=
  ⟨dropComments_char hquote hslash, blankCommas_char hquote hcomma⟩

theorem string {b : List Char} (hb : StringBody b) : Inert ('"' :: (b ++ ['"'])) := by
  constructor
  · intro s
    rw [List.cons_append, List.append_assoc, dropComments_quote]
    simp only [List.cons_append, List.nil_append, List.append_assoc,
      copiesStrings_dropComments.body hb]
  · intro s
    simp [blankCommas, copiesStrings_blankCommas.body hb]

theorem word {w : List Char} (hw : IsWord w) : Inert w := by
  induction w with
  | nil => exact nil
  | cons c w ih =>
      obtain ⟨hc, hw⟩ := List.forall_mem_cons.mp hw
      have hne : ∀ d : Char, isWordChar d = false → c ≠ d := fun _ => ne_of_class hc
      exact append (char (hne '"' rfl) (hne '/' rfl) (hne ',' rfl)) (ih hw)

theorem space {c : Char} (hc : isSpace c = true) : Inert [c] := by
  have hne : ∀ d : Char, isSpace d = false → c ≠ d := fun _ => ne_of_class hc
  exact char (hne '"' rfl) (hne '/' rfl) (hne ',' rfl)

end Inert

theorem Inert.spaces {sp : List Char} (hsp : ∀ c ∈ sp, isSpace c = true) : Inert sp := by
  induction sp with
  | nil => exact nil
  | cons c sp ih =>
      obtain ⟨hc, hsp⟩ := List.forall_mem_cons.mp hsp
      exact append (space hc) (ih hsp)

theorem Inert.strip_append {p : List Char} (hp : Inert p) (s : List Char) :
    strip (p ++ s) = p ++ strip s := by
  unfold strip
  rw [hp.comments, hp.commas]

/-- A text without comments and without commas before closing brackets. -/
structure Plain (cs : List Char) : Prop where
  comments : dropComments .code cs = cs
  commas : blankCommas .code cs = cs

theorem Plain.strip_eq {cs : List Char} (h : Plain cs) : strip cs = cs := by
  unfold strip
  rw [h.comments, h.commas]

theorem Inert.plain_iff {p : List Char} (hp : Inert p) (s : List Char) :
    Plain (p ++ s) ↔ Plain s := by
  constructor
  · rintro ⟨hcomments, hcommas⟩
    rw [hp.comments] at hcomments
    rw [hp.commas] at hcommas
    exact ⟨List.append_cancel_left hcomments, List.append_cancel_left hcommas⟩
  · rintro ⟨hcomments, hcommas⟩
    exact ⟨by rw [hp.comments, hcomments], by rw [hp.commas, hcommas]⟩

theorem plain_comma_iff (s : List Char) : Plain (',' :: s) ↔ closesNext s = false ∧ Plain s := by
  constructor
  · rintro ⟨hcomments, hcommas⟩
    rw [dropComments_char (by decide) (by decide)] at hcomments
    rw [blankCommas_comma] at hcommas
    obtain ⟨hcomma, hcommas⟩ := List.cons.inj hcommas
    refine ⟨?_, (List.cons.inj hcomments).2, hcommas⟩
    cases hclose : closesNext s with
    | false => rfl
    | true => rw [hclose] at hcomma; cases hcomma
  · rintro ⟨hopen, hcomments, hcommas⟩
    refine ⟨?_, ?_⟩
    · rw [dropComments_char (by decide) (by decide), hcomments]
    · rw [blankCommas_comma, hopen, hcommas]
      rfl

/-! ## Tokens -/

/-- All tokens but commas are inert. -/
theorem inert_of_token {ends : Bool} {p t : List Char} (h : Token ends p t) :
    (ends = false ∧ p = [',']) ∨ Inert p := by
  cases h with
  | @mark c _ hc =>
      by_cases hcomma : c = ','
      · exact .inl ⟨rfl, by rw [hcomma]⟩
      · refine .inr (.char ?_ ?_ hcomma) <;> rintro rfl <;> exact absurd hc (by decide)
  | close hc => refine .inr (.char ?_ ?_ ?_) <;> rintro rfl <;> exact absurd hc (by decide)
  | string hb => exact .inr (.string hb)
  | word hw => exact .inr (.word hw)

theorem dropComments_token {ends : Bool} {p t : List Char} (h : Token ends p t) (s : List Char) :
    dropComments .code (p ++ s) = p ++ dropComments .code s := by
  rcases inert_of_token h with ⟨-, rfl⟩ | hp
  · exact dropComments_char (by decide) (by decide) s
  · exact hp.comments s

/-- Whether a token is a closing bracket does not depend on what follows it. -/
theorem closesNext_token {ends : Bool} {p t : List Char} (h : Token ends p t) (s s' : List Char) :
    closesNext (p ++ s) = closesNext (p ++ s') := by
  obtain ⟨c, q, rfl, hc⟩ : ∃ c q, p = c :: q ∧ Text.isBlank c = false := by
    cases h with
    | mark hc | close hc =>
        refine ⟨_, [], rfl, ?_⟩
        simp only [List.mem_cons, List.not_mem_nil, or_false] at hc
        rcases hc with rfl | rfl | rfl | rfl <;> rfl
    | string => exact ⟨_, _, rfl, rfl⟩
    | word hw => exact ⟨_, _, rfl, isBlank_eq_false_of_isWordChar (hw _ List.mem_cons_self)⟩
  rw [List.cons_append, List.cons_append, closesNext_cons hc, closesNext_cons hc]

/-- A text of tokens and white space in which no comma and no colon comes before a closing bracket, and
no word after another one. -/
inductive Tokenized : List Char → Prop
  | nil : Tokenized []
  | space {c t} : isSpace c = true → Tokenized t → Tokenized (c :: t)
  | opening {c t} : c ∈ ['[', '{'] → Tokenized t → Tokenized (c :: t)
  | closing {c t} : c ∈ [']', '}'] → Tokenized t → Tokenized (c :: t)
  | separator {c t} : c ∈ [',', ':'] → closesNext t = false → Tokenized t → Tokenized (c :: t)
  | string {b t} : StringBody b → Tokenized t → Tokenized ('"' :: (b ++ '"' :: t))
  | word {c t} : isWordChar c = true → (EndsWord t → EndsWord (skipSpace t)) → Tokenized t →
      Tokenized (c :: t)

namespace Tokenized

variable {cs s r : List Char}

theorem plain (h : Tokenized cs) : Plain cs := by
  induction h with
  | nil => exact ⟨rfl, rfl⟩
  | space hc _ ih => exact ((Inert.space hc).plain_iff _).mpr ih
  | opening hc _ ih | closing hc _ ih =>
      simp only [List.mem_cons, List.not_mem_nil, or_false] at hc
      rcases hc with rfl | rfl <;>
        exact ((Inert.char (by decide) (by decide) (by decide)).plain_iff _).mpr ih
  | separator hc hopen _ ih =>
      simp only [List.mem_cons, List.not_mem_nil, or_false] at hc
      rcases hc with rfl | rfl
      · exact (plain_comma_iff _).mpr ⟨hopen, ih⟩
      · exact ((Inert.char (by decide) (by decide) (by decide)).plain_iff _).mpr ih
  | string hb _ ih =>
      have hplain := ((Inert.string hb).plain_iff _).mpr ih
      rwa [List.cons_append, List.append_assoc] at hplain
  | word hc _ _ ih => exact ((Inert.word (List.forall_mem_singleton.mpr hc)).plain_iff _).mpr ih

theorem of_skipSpace (h : Tokenized (skipSpace cs)) : Tokenized cs := by
  induction cs with
  | nil => exact nil
  | cons c cs ih =>
      cases hc : isSpace c with
      | true =>
          rw [skipSpace_space hc] at h
          exact .space hc (ih h)
      | false => rwa [skipSpace_of_not hc] at h

theorem of_opening {c : Char} (hcs : skipSpace cs = c :: s) (hc : c ∈ ['[', '{'])
    (h : Tokenized s) : Tokenized cs := of_skipSpace (hcs ▸ .opening hc h)

theorem of_closing {c : Char} (hcs : skipSpace cs = c :: s) (hc : c ∈ [']', '}'])
    (h : Tokenized s) : Tokenized cs := of_skipSpace (hcs ▸ .closing hc h)

theorem of_separator {c : Char} (hcs : skipSpace cs = c :: s) (hc : c ∈ [',', ':'])
    (hs : closesNext s = false) (h : Tokenized s) : Tokenized cs :=
  of_skipSpace (hcs ▸ .separator hc hs h)

theorem word_append {w : List Char} (hw : IsWord w) (hr : EndsWord (skipSpace r))
    (h : Tokenized r) : Tokenized (w ++ r) := by
  induction w with
  | nil => exact h
  | cons c w ih =>
      obtain ⟨hc, hw⟩ := List.forall_mem_cons.mp hw
      refine .word hc (fun hend => ?_) (ih hw)
      cases w with
      | nil => exact hr
      | cons d w =>
          have hd := hend d rfl
          rw [hw d List.mem_cons_self] at hd
          cases hd

theorem of_word {w : List Char} (hcs : skipSpace cs = w ++ r) (hw : IsWord w)
    (hr : EndsWord (skipSpace r)) (h : Tokenized r) : Tokenized cs :=
  of_skipSpace (hcs ▸ word_append hw hr h)

theorem of_string {x : String} (hcs : skipSpace cs = '"' :: s) (hs : readString s = .ok (x, r))
    (h : Tokenized r) : Tokenized cs := by
  obtain ⟨chars, hchars, -⟩ := readString_eq_ok_iff.mp hs
  obtain ⟨b, hb, rfl, -⟩ := hchars.exists_body
  exact of_skipSpace (hcs ▸ .string hb h)

variable {c : Char}

theorem exists_body (h : Tokenized ('"' :: s)) :
    ∃ b r, StringBody b ∧ s = b ++ '"' :: r ∧ Tokenized r := by
  cases h with
  | space hc | opening hc | closing hc | separator hc | word hc => exact absurd hc (by decide)
  | string hb h => exact ⟨_, _, hb, rfl, h⟩

theorem tail (hc : c ≠ '"') (h : Tokenized (c :: s)) : Tokenized s := by
  cases h with
  | space _ h | opening _ h | closing _ h | separator _ _ h | word _ _ h => exact h
  | string => exact absurd rfl hc

theorem of_spaces {sp : List Char} (hsp : ∀ c ∈ sp, isSpace c = true) (h : Tokenized (sp ++ s)) :
    Tokenized s := by
  induction sp with
  | nil => exact h
  | cons c sp ih =>
      obtain ⟨hc, hsp⟩ := List.forall_mem_cons.mp hsp
      exact ih hsp (h.tail (ne_of_class hc rfl))

/-- White space of any other kind than that of JSON does not come before a closing bracket. -/
theorem exists_closing (h : Tokenized s) (hs : closesNext s = true) :
    ∃ c r, skipSpace s = c :: r ∧ c ∈ [']', '}'] := by
  induction h with
  | nil => cases hs
  | space hc _ ih =>
      rw [closesNext_space hc] at hs
      rw [skipSpace_space hc]
      exact ih hs
  | closing hc =>
      refine ⟨_, _, skipSpace_of_not ?_ _, hc⟩
      simp only [List.mem_cons, List.not_mem_nil, or_false] at hc
      rcases hc with rfl | rfl <;> rfl
  | opening hc | separator hc =>
      simp only [List.mem_cons, List.not_mem_nil, or_false] at hc
      rcases hc with rfl | rfl <;> cases hs
  | string => cases hs
  | word hc =>
      have hne : ∀ d : Char, isWordChar d = false → _ ≠ d := fun _ => ne_of_class hc
      rw [closesNext_cons (isBlank_eq_false_of_isWordChar hc)] at hs
      simp [hne ']' rfl, hne '}' rfl] at hs

theorem of_cons_separator (hc : c ∈ [',', ':']) (h : Tokenized (c :: s)) :
    closesNext s = false ∧ Tokenized s := by
  simp only [List.mem_cons, List.not_mem_nil, or_false] at hc
  cases h with
  | space hs | opening hs | closing hs | word hs =>
      rcases hc with rfl | rfl <;> exact absurd hs (by decide)
  | separator _ hopen h => exact ⟨hopen, h⟩
  | string => rcases hc with hc | hc <;> exact absurd hc (by decide)

theorem of_cons_word (hc : isWordChar c = true) (h : Tokenized (c :: s)) :
    (EndsWord s → EndsWord (skipSpace s)) ∧ Tokenized s := by
  have hne : ∀ d : Char, isWordChar d = false → c ≠ d := fun _ => ne_of_class hc
  cases h with
  | space hs => rw [isWordChar_eq_false_of_isSpace hs] at hc; cases hc
  | opening hs | closing hs | separator hs =>
      simp only [List.mem_cons, List.not_mem_nil, or_false] at hs
      rcases hs with rfl | rfl <;> cases hc
  | string => cases hc
  | word _ hends h => exact ⟨hends, h⟩

end Tokenized

/-! ## JSON texts -/

/-- A value does not start with a closing bracket. -/
theorem closesNext_of_readsValue {fuel depth : Nat} {cs r : List Char} {v : Json}
    (h : ReadsValue fuel depth cs v r) : closesNext cs = false := by
  obtain ⟨c, s, hcs, hc⟩ : ∃ c s, skipSpace cs = c :: s ∧
      (isWordChar c = true ∨ c ∈ ['"', '[', '{']) := by
    cases h with
    | keyword hcs hk => exact ⟨_, _, hcs, .inl (hk.isWord _ List.mem_cons_self)⟩
    | negative hcs => exact ⟨_, _, hcs, .inl rfl⟩
    | numeral hcs hc => exact ⟨_, _, hcs, .inl (isWordChar_of_isDigit hc)⟩
    | string hcs => exact ⟨_, _, hcs, .inr (by decide)⟩
    | emptyList hcs | list hcs => exact ⟨_, _, hcs, .inr (by decide)⟩
    | emptyObject hcs | object hcs | embedded hcs => exact ⟨_, _, hcs, .inr (by decide)⟩
  rw [← closesNext_skipSpace, hcs]
  rcases hc with hc | hc
  · have hne : ∀ d : Char, isWordChar d = false → c ≠ d := fun _ => ne_of_class hc
    rw [closesNext_cons (isBlank_eq_false_of_isWordChar hc)]
    simp [hne ']' rfl, hne '}' rfl]
  · simp only [List.mem_cons, List.not_mem_nil, or_false] at hc
    rcases hc with rfl | rfl | rfl <;> rw [closesNext_cons rfl] <;> rfl

/-- What all parts of the reader take with so much fuel consists of tokens if the unread rest does, and
no value or item starts with a closing bracket. -/
structure ReadsTokens (fuel : Nat) : Prop where
  value {depth cs v r} : readValue fuel depth cs = .ok (v, r) →
    closesNext cs = false ∧ (EndsWord (skipSpace r) → Tokenized r → Tokenized cs)
  items {depth cs vs r} : readItems fuel depth cs = .ok (vs, r) →
    closesNext cs = false ∧ (Tokenized r → Tokenized cs)
  members {depth ms k cs result r} : readMembers fuel depth ms k cs = .ok (result, r) →
    Tokenized r → Tokenized cs
  embedded {depth cs v r} : readEmbedded fuel depth cs = .ok (v, r) → Tokenized r → Tokenized cs
  whole {cs v} : readWhole fuel cs = .ok v → closesNext cs = false ∧ Tokenized cs

namespace ReadsTokens

variable {fuel : Nat}

theorem value_succ (ih : ReadsTokens fuel) {depth : Nat} {cs r : List Char} {v : Json}
    (h : ReadsValue fuel depth cs v r) (hend : EndsWord (skipSpace r)) (hr : Tokenized r) :
    Tokenized cs := by
  cases h with
  | keyword hcs hk => exact .of_word hcs hk.isWord hend hr
  | negative hcs hn =>
      obtain ⟨w, hw, rfl, -⟩ := Numeral.readsWord_read true hn
      exact .of_word hcs (List.forall_mem_cons.mpr ⟨rfl, hw⟩) hend hr
  | numeral hcs hc hn =>
      obtain ⟨w, hw, rfl, -⟩ := Numeral.exists_word_of_read hc hn (.of_skipSpace hend)
      exact .of_word hcs hw hend hr
  | string hcs hx => exact .of_string hcs hx hr
  | emptyList hcs hd hs => exact .of_opening hcs (by decide) (.of_closing hs (by decide) hr)
  | list hcs hd hs hc hvs =>
      have hitems := (ih.items hvs).2 hr
      rw [← hs] at hitems
      exact .of_opening hcs (by decide) hitems.of_skipSpace
  | emptyObject hcs hd hs => exact .of_opening hcs (by decide) (.of_closing hs (by decide) hr)
  | object hcs hd hs hk he hms =>
      exact .of_opening hcs (by decide) (.of_string hs hk (ih.members hms hr))
  | embedded hcs hd hs hk hv =>
      exact .of_opening hcs (by decide) (.of_string hs hk (ih.embedded hv hr))

theorem items_succ (ih : ReadsTokens fuel) {depth : Nat} {cs r : List Char} {vs : List Json}
    (h : ReadsItems fuel depth cs vs r) :
    closesNext cs = false ∧ (Tokenized r → Tokenized cs) := by
  cases h with
  | last hv hs =>
      obtain ⟨hopen, hcs⟩ := ih.value hv
      exact ⟨hopen, fun hr => hcs (.skipSpace_of_cons hs rfl) (.of_closing hs (by decide) hr)⟩
  | more hv hs hs' hc hvs =>
      obtain ⟨hopen, hcs⟩ := ih.value hv
      obtain ⟨hnext, hitems⟩ := ih.items hvs
      rw [← hs', closesNext_skipSpace] at hnext
      rw [← hs'] at hitems
      exact ⟨hopen, fun hr => hcs (.skipSpace_of_cons hs rfl)
        (.of_separator hs (by decide) hnext (hitems hr).of_skipSpace)⟩

theorem members_succ (ih : ReadsTokens fuel) {depth : Nat} {ms result : Dict Json} {k : String}
    {cs r : List Char} (h : ReadsMembers fuel depth ms k cs result r) (hr : Tokenized r) :
    Tokenized cs := by
  cases h with
  | last hcs hv hs =>
      obtain ⟨hopen, hvalue⟩ := ih.value hv
      exact .of_separator hcs (by decide) hopen
        (hvalue (.skipSpace_of_cons hs rfl) (.of_closing hs (by decide) hr))
  | @more s v s' s'' t k' t' _ _ hcs hv hs ht hk hms =>
      have hkey := Tokenized.of_string ht hk (ih.members hms hr)
      have hnext : closesNext s'' = false := by
        rw [← closesNext_skipSpace, ht, closesNext_cons rfl]
        rfl
      obtain ⟨hopen, hvalue⟩ := ih.value hv
      exact .of_separator hcs (by decide) hopen
        (hvalue (.skipSpace_of_cons hs rfl) (.of_separator hs (by decide) hnext hkey))

theorem embedded_succ {depth : Nat} {cs r : List Char} {v : Json}
    (h : readEmbedded (fuel + 1) depth cs = .ok (v, r)) (hr : Tokenized r) : Tokenized cs := by
  obtain ⟨s, s', text, s'', hcs, hs, htext, -, hclose⟩ := readEmbedded_eq_ok_iff.mp h
  have hopen : closesNext s = false := by
    rw [← closesNext_skipSpace, hs, closesNext_cons rfl]
    rfl
  exact .of_separator hcs (by decide) hopen (.of_string hs htext (.of_closing hclose (by decide) hr))

theorem whole_succ (ih : ReadsTokens fuel) {cs : List Char} {v : Json}
    (h : readWhole (fuel + 1) cs = .ok v) : closesNext cs = false ∧ Tokenized cs := by
  obtain ⟨r, hv, hr⟩ := readWhole_eq_ok_iff.mp h
  have hend : Tokenized (skipSpace r) := hr ▸ .nil
  obtain ⟨hopen, hcs⟩ := ih.value hv
  exact ⟨hopen, hcs (.skipSpace_of_nil hr) hend.of_skipSpace⟩

end ReadsTokens

theorem readsTokens (fuel : Nat) : ReadsTokens fuel := by
  induction fuel with
  | zero => exact ⟨nofun, nofun, nofun, nofun, nofun⟩
  | succ fuel ih =>
      refine ⟨fun h => ?_, fun h => ?_, fun h => ?_, ReadsTokens.embedded_succ, ih.whole_succ⟩
      · have h := readValue_eq_ok_iff.mp h
        exact ⟨closesNext_of_readsValue h, ih.value_succ h⟩
      · exact ih.items_succ (readItems_eq_ok_iff.mp h)
      · exact ih.members_succ (readMembers_eq_ok_iff.mp h)

/-- A JSON text consists of tokens, with no comma before a closing bracket. -/
theorem tokenized_of_readText {cs : List Char} {v : Json} (h : readText cs = .ok v) :
    Tokenized cs := ((readsTokens _).whole h).2

theorem closesNext_of_readText {cs : List Char} {v : Json} (h : readText cs = .ok v) :
    closesNext cs = false := ((readsTokens _).whole h).1

end ScriptWorks.Jsonc
