import ScriptWorks.Proofs.Json.Fuel

/-!
# White space between tokens

White space between the tokens of a JSON text, be it put in or taken out, does not change what is read.
-/

namespace ScriptWorks.Json

/-- The second text is the first with white space inserted between tokens. -/
inductive Spaced : List Char → List Char → Prop
  | same {t} : Spaced t t
  | space {c t u} : isSpace c = true → Spaced t u → Spaced t (c :: u)
  | keep {c t u} : isSpace c = true → Spaced t u → Spaced (c :: t) (c :: u)
  | token {ends p t u} : Token ends p t → Spaced t u → Spaced (p ++ t) (p ++ u)

namespace Spaced

variable {t u : List Char}

theorem spaces {sp : List Char} (hsp : ∀ c ∈ sp, isSpace c = true) (h : Spaced t u) :
    Spaced t (sp ++ u) := by
  induction sp with
  | nil => exact h
  | cons c sp ih =>
      obtain ⟨hc, hsp⟩ := List.forall_mem_cons.mp hsp
      exact .space hc (ih hsp)

theorem keeps {sp : List Char} (hsp : ∀ c ∈ sp, isSpace c = true) (h : Spaced t u) :
    Spaced (sp ++ t) (sp ++ u) := by
  induction sp with
  | nil => exact h
  | cons c sp ih =>
      obtain ⟨hc, hsp⟩ := List.forall_mem_cons.mp hsp
      exact .keep hc (ih hsp)

theorem endsWord (h : Spaced t u) (ht : EndsWord t) : EndsWord u := by
  cases h with
  | same => exact ht
  | space hc =>
      rintro d hd
      cases hd
      exact isWordChar_eq_false_of_isSpace hc
  | keep => exact ht
  | @token ends p t u hp =>
      rintro d hd
      cases p with
      | nil => exact absurd rfl hp.ne_nil
      | cons a p => exact ht d hd

/-- Both texts go on alike, or with the same token. -/
theorem skipSpace_eq (h : Spaced t u) :
    skipSpace u = skipSpace t ∨ ∃ ends p t' u', Token ends p t' ∧ Spaced t' u' ∧
      skipSpace t = p ++ t' ∧ skipSpace u = p ++ u' := by
  induction h with
  | same => exact .inl rfl
  | space hc _ ih => rwa [skipSpace_space hc]
  | keep hc _ ih => rwa [skipSpace_space hc, skipSpace_space hc]
  | token hp h => exact .inr ⟨_, _, _, _, hp, h, hp.skipSpace _, hp.skipSpace _⟩

end Spaced

theorem Token.of_spaced {ends : Bool} {p t u : List Char} (hp : Token ends p t) (h : Spaced t u) :
    Token ends p u := by
  cases hp with
  | mark hc => exact .mark hc
  | close hc => exact .close hc
  | string hb => exact .string hb
  | word hw ht => exact .word hw (h.endsWord ht)

/-- One of the texts is the other with white space inserted between tokens. -/
def Respaced (t u : List Char) : Prop := Spaced t u ∨ Spaced u t

namespace Respaced

variable {t u : List Char}

theorem same : Respaced t t := .inl .same

theorem token {ends : Bool} {p : List Char} (ht : Token ends p t) (hu : Token ends p u)
    (h : Respaced t u) : Respaced (p ++ t) (p ++ u) := h.imp (.token ht) (.token hu)

/-- Both texts go on alike, or with the same token. -/
theorem skipSpace_eq (h : Respaced t u) :
    skipSpace u = skipSpace t ∨ ∃ ends p t' u', Token ends p t' ∧ Token ends p u' ∧ Respaced t' u' ∧
      skipSpace t = p ++ t' ∧ skipSpace u = p ++ u' := by
  rcases h with h | h
  · rcases h.skipSpace_eq with hsame | ⟨ends, p, t', u', hp, h', htp, hup⟩
    · exact .inl hsame
    · exact .inr ⟨ends, p, t', u', hp, hp.of_spaced h', .inl h', htp, hup⟩
  · rcases h.skipSpace_eq with hsame | ⟨ends, p, u', t', hp, h', hup, htp⟩
    · exact .inl hsame.symm
    · exact .inr ⟨ends, p, t', u', hp.of_spaced h', hp, .inr h', htp, hup⟩

theorem nil_of_skipSpace (h : Respaced t u) (ht : skipSpace t = []) : skipSpace u = [] := by
  rcases h.skipSpace_eq with hsame | ⟨ends, p, t', u', hp, -, -, htp, -⟩
  · rw [hsame, ht]
  · rw [ht] at htp
    exact absurd (List.append_eq_nil_iff.mp htp.symm).1 hp.ne_nil

/-- The next character that is not white space. -/
theorem head (h : Respaced t u) {c : Char} {s : List Char} (ht : skipSpace t = c :: s) :
    ∃ s', skipSpace u = c :: s' ∧ Respaced (c :: s) (c :: s') := by
  rcases h.skipSpace_eq with hsame | ⟨ends, p, t', u', hp, hp', h', htp, hup⟩
  · exact ⟨s, hsame.trans ht, .same⟩
  · cases p with
    | nil => exact absurd rfl hp.ne_nil
    | cons a p =>
        obtain ⟨rfl, rfl⟩ := List.cons.inj (ht.symm.trans htp)
        exact ⟨p ++ u', hup, token hp hp' h'⟩

/-- A token of one character. -/
theorem mark (h : Respaced t u) {c : Char} {s : List Char} (ht : skipSpace t = c :: s)
    (hquote : c ≠ '"') (hword : isWordChar c = false) : ∃ s', skipSpace u = c :: s' ∧ Respaced s s' := by
  rcases h.skipSpace_eq with hsame | ⟨ends, p, t', u', hp, hp', h', htp, hup⟩
  · exact ⟨s, hsame.trans ht, .same⟩
  rw [ht] at htp
  cases hp with
  | mark | close =>
      obtain ⟨rfl, rfl⟩ := List.cons.inj htp
      exact ⟨u', hup, h'⟩
  | string => exact absurd (List.cons.inj htp).1 hquote
  | word hw =>
      rw [(List.cons.inj htp).1, hw _ List.mem_cons_self] at hword
      cases hword

/-- A string, from its opening quote. -/
theorem string (h : Respaced t u) {s x r : List Char} (ht : skipSpace t = '"' :: s)
    (hs : ReadsChars s x r) :
    ∃ s' r', skipSpace u = '"' :: s' ∧ ReadsChars s' x r' ∧ Respaced r r' := by
  rcases h.skipSpace_eq with hsame | ⟨ends, p, t', u', hp, hp', h', htp, hup⟩
  · exact ⟨s, r, hsame.trans ht, hs, .same⟩
  rw [ht] at htp
  cases hp with
  | mark hc | close hc =>
      rw [← (List.cons.inj htp).1] at hc
      exact absurd hc (by decide)
  | @string b _ hb =>
      obtain ⟨b', hb', rfl, hsame⟩ := hs.exists_body
      rw [List.cons_append, List.append_assoc] at htp
      obtain ⟨rfl, rfl⟩ := hb'.eq_of_append_eq hb (List.cons.inj htp).2
      rw [List.cons_append, List.append_assoc] at hup
      exact ⟨_, u', hup, hsame u', h'⟩
  | word hw =>
      have hquote := hw _ List.mem_cons_self
      rw [← (List.cons.inj htp).1] at hquote
      cases hquote

/-- A word. -/
theorem word (h : Respaced t u) {c : Char} {w r : List Char} (ht : skipSpace t = c :: (w ++ r))
    (hw : IsWord (c :: w)) (hr : EndsWord r) :
    ∃ r', skipSpace u = c :: (w ++ r') ∧ EndsWord r' ∧ Respaced r r' := by
  rcases h.skipSpace_eq with hsame | ⟨ends, p, t', u', hp, hp', h', htp, hup⟩
  · exact ⟨r, hsame.trans ht, hr, .same⟩
  rw [ht] at htp
  have hc := hw c List.mem_cons_self
  cases hp with
  | mark hmark | close hmark =>
      rw [← (List.cons.inj htp).1] at hmark
      revert hmark hc
      simp only [List.mem_cons, List.not_mem_nil, or_false]
      rintro hc (rfl | rfl | rfl | rfl) <;> cases hc
  | string =>
      rw [(List.cons.inj htp).1] at hc
      cases hc
  | word hw' ht' =>
      rw [← List.cons_append] at htp
      obtain ⟨hsame, rfl⟩ := word_eq_of_append_eq hw hw' hr ht' htp
      obtain ⟨rfl, rfl⟩ := List.cons.inj hsame
      exact ⟨u', hup, hp'.endsWord hc, h'⟩

end Respaced

/-! ## Reading -/

/-- All parts of the reader that succeed with so much fuel read the same of a text with other white space
between tokens, and go on with such a rest. -/
structure ReadsRespaced (fuel : Nat) : Prop where
  value {fuel' depth cs u v r} : fuel ≤ fuel' → Respaced cs u →
    readValue fuel depth cs = .ok (v, r) → EndsWord r →
      ∃ r', Respaced r r' ∧ readValue fuel' depth u = .ok (v, r')
  items {fuel' depth cs u vs r} : fuel ≤ fuel' → Respaced cs u →
    readItems fuel depth cs = .ok (vs, r) →
      ∃ r', Respaced r r' ∧ readItems fuel' depth u = .ok (vs, r')
  members {fuel' depth ms k cs u result r} : fuel ≤ fuel' → Respaced cs u →
    readMembers fuel depth ms k cs = .ok (result, r) →
      ∃ r', Respaced r r' ∧ readMembers fuel' depth ms k u = .ok (result, r')
  embedded {fuel' depth cs u v r} : fuel ≤ fuel' → Respaced cs u →
    readEmbedded fuel depth cs = .ok (v, r) →
      ∃ r', Respaced r r' ∧ readEmbedded fuel' depth u = .ok (v, r')
  whole {fuel' cs u v} : fuel ≤ fuel' → Respaced cs u →
    readWhole fuel cs = .ok v → readWhole fuel' u = .ok v

theorem Respaced.readString {t u s r : List Char} {x : String} (h : Respaced t u)
    (ht : Json.skipSpace t = '"' :: s) (hs : Json.readString s = .ok (x, r)) :
    ∃ s' r', Json.skipSpace u = '"' :: s' ∧ Json.readString s' = .ok (x, r') ∧ Respaced r r' := by
  obtain ⟨chars, hchars, hx⟩ := readString_eq_ok_iff.mp hs
  obtain ⟨s', r', hu, hchars', hr⟩ := h.string ht hchars
  exact ⟨s', r', hu, readString_eq_ok_iff.mpr ⟨chars, hchars', hx⟩, hr⟩

namespace ReadsRespaced

variable {fuel fuel' : Nat}

theorem value_succ (ih : ReadsRespaced fuel) (hfuel : fuel ≤ fuel') {depth : Nat}
    {cs u r : List Char} {v : Json} (hu : Respaced cs u) (h : ReadsValue fuel depth cs v r)
    (hr : EndsWord r) : ∃ r', Respaced r r' ∧ ReadsValue fuel' depth u v r' := by
  cases h with
  | keyword hcs hk =>
      obtain ⟨r', hu', -, hr'⟩ := hu.word hcs hk.isWord hr
      exact ⟨r', hr', .keyword hu' hk⟩
  | negative hcs hn =>
      obtain ⟨w, hw, rfl, hsame⟩ := Numeral.readsWord_read true hn
      obtain ⟨r', hu', hend, hr'⟩ := hu.word hcs (List.forall_mem_cons.mpr ⟨rfl, hw⟩) hr
      exact ⟨r', hr', .negative hu' (hsame r' hend)⟩
  | numeral hcs hc hn =>
      obtain ⟨w, hw, rfl, hsame⟩ := Numeral.exists_word_of_read hc hn hr
      obtain ⟨r', hu', hend, hr'⟩ := hu.word hcs hw hr
      exact ⟨r', hr', .numeral hu' hc (hsame r' hend)⟩
  | string hcs hx =>
      obtain ⟨s', r', hu', hx', hr'⟩ := hu.readString hcs hx
      exact ⟨r', hr', .string hu' hx'⟩
  | emptyList hcs hd hs =>
      obtain ⟨s', hu', hs'⟩ := hu.mark hcs (by decide) rfl
      obtain ⟨r', hclose, hr'⟩ := hs'.mark hs (by decide) rfl
      exact ⟨r', hr', .emptyList hu' hd hclose⟩
  | list hcs hd hs hc hvs =>
      obtain ⟨s', hu', hs'⟩ := hu.mark hcs (by decide) rfl
      obtain ⟨t', ht', hitems⟩ := hs'.head hs
      obtain ⟨r', hr', hvs'⟩ := ih.items hfuel hitems hvs
      exact ⟨r', hr', .list hu' hd ht' hc hvs'⟩
  | emptyObject hcs hd hs =>
      obtain ⟨s', hu', hs'⟩ := hu.mark hcs (by decide) rfl
      obtain ⟨r', hclose, hr'⟩ := hs'.mark hs (by decide) rfl
      exact ⟨r', hr', .emptyObject hu' hd hclose⟩
  | object hcs hd hs hk he hms =>
      obtain ⟨s', hu', hs'⟩ := hu.mark hcs (by decide) rfl
      obtain ⟨t', k', hquote, hk', hrest⟩ := hs'.readString hs hk
      obtain ⟨r', hr', hms'⟩ := ih.members hfuel hrest hms
      exact ⟨r', hr', .object hu' hd hquote hk' he hms'⟩
  | embedded hcs hd hs hk hv =>
      obtain ⟨s', hu', hs'⟩ := hu.mark hcs (by decide) rfl
      obtain ⟨t', k', hquote, hk', hrest⟩ := hs'.readString hs hk
      obtain ⟨r', hr', hv'⟩ := ih.embedded hfuel hrest hv
      exact ⟨r', hr', .embedded hu' hd hquote hk' hv'⟩

theorem items_succ (ih : ReadsRespaced fuel) (hfuel : fuel ≤ fuel') {depth : Nat}
    {cs u r : List Char} {vs : List Json} (hu : Respaced cs u) (h : ReadsItems fuel depth cs vs r) :
    ∃ r', Respaced r r' ∧ ReadsItems fuel' depth u vs r' := by
  cases h with
  | last hv hs =>
      obtain ⟨s', hs', hv'⟩ := ih.value hfuel hu hv (.of_skipSpace (.skipSpace_of_cons hs rfl))
      obtain ⟨r', hclose, hr'⟩ := hs'.mark hs (by decide) rfl
      exact ⟨r', hr', .last hv' hclose⟩
  | more hv hs hs' hc hvs =>
      obtain ⟨s', hspaced, hv'⟩ := ih.value hfuel hu hv (.of_skipSpace (.skipSpace_of_cons hs rfl))
      obtain ⟨t', hcomma, ht'⟩ := hspaced.mark hs (by decide) rfl
      obtain ⟨w', hw', hitems⟩ := ht'.head hs'
      obtain ⟨r', hr', hvs'⟩ := ih.items hfuel hitems hvs
      exact ⟨r', hr', .more hv' hcomma hw' hc hvs'⟩

theorem members_succ (ih : ReadsRespaced fuel) (hfuel : fuel ≤ fuel') {depth : Nat}
    {ms result : Dict Json} {k : String} {cs u r : List Char} (hu : Respaced cs u)
    (h : ReadsMembers fuel depth ms k cs result r) :
    ∃ r', Respaced r r' ∧ ReadsMembers fuel' depth ms k u result r' := by
  cases h with
  | last hcs hv hs =>
      obtain ⟨s', hcolon, hs'⟩ := hu.mark hcs (by decide) rfl
      obtain ⟨t', ht', hv'⟩ := ih.value hfuel hs' hv (.of_skipSpace (.skipSpace_of_cons hs rfl))
      obtain ⟨r', hclose, hr'⟩ := ht'.mark hs (by decide) rfl
      exact ⟨r', hr', .last hcolon hv' hclose⟩
  | more hcs hv hs ht hk hms =>
      obtain ⟨s', hcolon, hs'⟩ := hu.mark hcs (by decide) rfl
      obtain ⟨t', ht', hv'⟩ := ih.value hfuel hs' hv (.of_skipSpace (.skipSpace_of_cons hs rfl))
      obtain ⟨w', hcomma, hw'⟩ := ht'.mark hs (by decide) rfl
      obtain ⟨q', k', hquote, hk', hrest⟩ := hw'.readString ht hk
      obtain ⟨r', hr', hms'⟩ := ih.members hfuel hrest hms
      exact ⟨r', hr', .more hcolon hv' hcomma hquote hk' hms'⟩

theorem embedded_succ (ih : ReadsRespaced fuel) (hfuel : fuel ≤ fuel') {depth : Nat}
    {cs u r : List Char} {v : Json} (hu : Respaced cs u)
    (h : readEmbedded (fuel + 1) depth cs = .ok (v, r)) :
    ∃ r', Respaced r r' ∧ readEmbedded (fuel' + 1) depth u = .ok (v, r') := by
  obtain ⟨s, t, text, t', hcs, hs, htext, hv, hclose⟩ := readEmbedded_eq_ok_iff.mp h
  obtain ⟨s', hcolon, hs'⟩ := hu.mark hcs (by decide) rfl
  obtain ⟨w, w', hquote, htext', hrest⟩ := hs'.readString hs htext
  obtain ⟨r', hclose', hr'⟩ := hrest.mark hclose (by decide) rfl
  -- The embedded text itself is the same, but is read with more fuel.
  have hv' := ih.whole hfuel .same hv
  exact ⟨r', hr', readEmbedded_eq_ok_iff.mpr ⟨s', w, text, w', hcolon, hquote, htext', hv', hclose'⟩⟩

theorem whole_succ (ih : ReadsRespaced fuel) (hfuel : fuel ≤ fuel') {cs u : List Char} {v : Json}
    (hu : Respaced cs u) (h : readWhole (fuel + 1) cs = .ok v) : readWhole (fuel' + 1) u = .ok v := by
  obtain ⟨r, hv, hr⟩ := readWhole_eq_ok_iff.mp h
  obtain ⟨r', hr', hv'⟩ := ih.value hfuel hu hv (.of_skipSpace (.skipSpace_of_nil hr))
  exact readWhole_eq_ok_iff.mpr ⟨r', hv', hr'.nil_of_skipSpace hr⟩

end ReadsRespaced

theorem readsRespaced (fuel : Nat) : ReadsRespaced fuel := by
  induction fuel with
  | zero => exact ⟨nofun, nofun, nofun, nofun, nofun⟩
  | succ fuel ih =>
      have hpred : ∀ {n}, fuel + 1 ≤ n → ∃ m, n = m + 1 ∧ fuel ≤ m :=
        fun {n} hn => ⟨n - 1, by omega, by omega⟩
      refine ⟨fun hn hu h hr => ?_, fun hn hu h => ?_, fun hn hu h => ?_, fun hn hu h => ?_,
        fun hn hu h => ?_⟩
      all_goals obtain ⟨m, rfl, hm⟩ := hpred hn
      · simp only [readValue_eq_ok_iff] at h ⊢
        exact ih.value_succ hm hu h hr
      · simp only [readItems_eq_ok_iff] at h ⊢
        exact ih.items_succ hm hu h
      · simp only [readMembers_eq_ok_iff] at h ⊢
        exact ih.members_succ hm hu h
      · exact ih.embedded_succ hm hu h
      · exact ih.whole_succ hm hu h

/-- White space between the tokens of a text does not change its value. -/
theorem readText_of_respaced {t u : List Char} {v : Json} (h : Respaced t u)
    (ht : readText t = .ok v) : readText u = .ok v :=
  readText_of_readWhole ((readsRespaced _).whole (Nat.le_refl _) h ht)

end ScriptWorks.Json
