import ScriptWorks.Json.Parser
import ScriptWorks.Proofs.Failing

/-!
# The ways of reading JSON

Each part of the reader succeeds in a few ways. The relations below have one constructor for each, so
that facts about what was read are proved by cases, and a reading is found by naming its way.
-/

namespace ScriptWorks.Json

/-- Characters that a class tells apart. -/
theorem ne_of_class {p : Char → Bool} {c d : Char} (hc : p c = true) (hd : p d = false) : c ≠ d := by
  rintro rfl
  rw [hc] at hd
  cases hd

/-! ## White space and keywords -/

theorem skipSpace_space {c : Char} (hc : isSpace c = true) (cs : List Char) :
    skipSpace (c :: cs) = skipSpace cs := List.dropWhile_cons_of_pos hc

theorem skipSpace_of_not {c : Char} (hc : isSpace c = false) (cs : List Char) :
    skipSpace (c :: cs) = c :: cs := List.dropWhile_cons_of_neg (by simp [hc])

/-- What is skipped is white space, and what follows does not start with any. -/
theorem exists_of_skipSpace_eq_cons {cs r : List Char} {c : Char} (h : skipSpace cs = c :: r) :
    isSpace c = false ∧ ∃ sp, (∀ s ∈ sp, isSpace s = true) ∧ cs = sp ++ c :: r := by
  induction cs with
  | nil => cases h
  | cons a cs ih =>
      cases ha : isSpace a with
      | true =>
          rw [skipSpace_space ha] at h
          obtain ⟨hc, sp, hsp, rfl⟩ := ih h
          exact ⟨hc, a :: sp, List.forall_mem_cons.mpr ⟨ha, hsp⟩, rfl⟩
      | false =>
          rw [skipSpace_of_not ha] at h
          cases h
          exact ⟨ha, [], List.forall_mem_nil _, rfl⟩

/-- The keywords: a letter, the letters after it, and the value. -/
inductive Keyword : Char → List Char → Json → Prop
  | null : Keyword 'n' "ull".toList .null
  | true : Keyword 't' "rue".toList (.bool true)
  | false : Keyword 'f' "alse".toList (.bool false)

theorem readKeyword_eq_ok_iff {v v' : Json} {ks cs r : List Char} :
    readKeyword v ks cs = .ok (v', r) ↔ v' = v ∧ cs = ks ++ r := by
  induction ks generalizing cs with
  | nil =>
      rw [readKeyword]
      exact ⟨fun h => by cases h; exact ⟨rfl, rfl⟩, fun ⟨hv, hcs⟩ => by rw [hv, hcs]; rfl⟩
  | cons k ks ih =>
      cases cs with
      | nil => exact ⟨nofun, nofun⟩
      | cons c cs =>
          rw [readKeyword, List.cons_append, List.cons.injEq]
          by_cases hc : c = k
          · rw [if_pos hc, ih]
            exact ⟨fun ⟨hv, hcs⟩ => ⟨hv, hc, hcs⟩, fun ⟨hv, _, hcs⟩ => ⟨hv, hcs⟩⟩
          · rw [if_neg hc]
            exact ⟨nofun, fun ⟨_, h, _⟩ => absurd h hc⟩

/-! ## Strings -/

/-- The ways in which the characters of a string are read up to its closing quote. -/
inductive ReadsChars : List Char → List Char → List Char → Prop
  | close {r} : ReadsChars ('"' :: r) [] r
  | char {c s x r} : c ≠ '"' → c ≠ '\\' → ¬ c.val < 0x20 → ReadsChars s x r →
      ReadsChars (c :: s) (c :: x) r
  | escape {e c s x r} : e ≠ 'u' → escaped? e = some c → ReadsChars s x r →
      ReadsChars ('\\' :: e :: s) (c :: x) r
  | unit {a b c d n s x r} : hexUnit? a b c d = some n → ¬ isLowSurrogate n → ¬ isHighSurrogate n →
      ReadsChars s x r → ReadsChars ('\\' :: 'u' :: a :: b :: c :: d :: s) (Char.ofNat n :: x) r
  | pair {a b c d n a' b' c' d' m s x r} : hexUnit? a b c d = some n → ¬ isLowSurrogate n →
      isHighSurrogate n → hexUnit? a' b' c' d' = some m → isLowSurrogate m → ReadsChars s x r →
      ReadsChars ('\\' :: 'u' :: a :: b :: c :: d :: '\\' :: 'u' :: a' :: b' :: c' :: d' :: s)
        (Char.ofNat (0x10000 + (n - 0xD800) * 0x400 + (m - 0xDC00)) :: x) r

theorem prepend_eq_ok_iff {c : Char} {read : Reading (List Char)} {x r : List Char} :
    prepend c read = .ok (x, r) ↔ ∃ x', read = .ok (x', r) ∧ x = c :: x' := by
  unfold prepend
  split
  · constructor
    · rintro ⟨⟩
      exact ⟨_, rfl, rfl⟩
    · rintro ⟨x', ⟨⟩, rfl⟩
      rfl
  · exact ⟨nofun, nofun⟩

theorem readsChars_of_eq_ok {cs x r : List Char} (h : readChars cs = .ok (x, r)) :
    ReadsChars cs x r := by
  fun_induction readChars cs generalizing x
  case case2 =>
    cases h
    exact .close
  case case11 hn hlow hhigh _ hslash _ hu _ _ _ _ _ _ hm hlow' _ ih =>
    obtain ⟨x', hx, rfl⟩ := prepend_eq_ok_iff.mp h
    rw [Decidable.not_not.mp hslash, Decidable.not_not.mp hu]
    exact .pair hn hlow hhigh hm hlow' (ih hx)
  case case14 hn hlow hhigh _ ih =>
    obtain ⟨x', hx, rfl⟩ := prepend_eq_ok_iff.mp h
    exact .unit hn hlow hhigh (ih hx)
  case case16 hu _ hc _ ih =>
    obtain ⟨x', hx, rfl⟩ := prepend_eq_ok_iff.mp h
    exact .escape hu hc (ih hx)
  case case19 hquote hslash hcontrol ih =>
    obtain ⟨x', hx, rfl⟩ := prepend_eq_ok_iff.mp h
    exact .char hquote hslash hcontrol (ih hx)
  -- In all other cases the reader stops.
  all_goals first
    | cases h
    | unfold hexStop at h; split at h <;> cases h

theorem readChars_eq_ok_iff {cs x r : List Char} :
    readChars cs = .ok (x, r) ↔ ReadsChars cs x r := by
  refine ⟨readsChars_of_eq_ok, fun h => ?_⟩
  induction h with
  | close =>
      unfold readChars
      exact if_pos rfl
  | char hquote hslash hcontrol _ ih =>
      unfold readChars
      simp [hquote, hslash, hcontrol, ih, prepend]
  | escape hu hc _ ih =>
      unfold readChars
      simp [hu, hc, ih, prepend]
  | unit hn hlow hhigh _ ih =>
      unfold readChars
      simp [hn, hlow, hhigh, ih, prepend]
  | pair hn hlow hhigh hm hlow' _ ih =>
      unfold readChars
      simp [hn, hlow, hhigh, hm, hlow', ih, prepend]

theorem readString_eq_ok_iff {cs r : List Char} {x : String} :
    readString cs = .ok (x, r) ↔ ∃ chars, ReadsChars cs chars r ∧ x = String.ofList chars := by
  unfold readString
  split
  · rename_i chars r' hchars
    constructor
    · rintro ⟨⟩
      exact ⟨chars, readChars_eq_ok_iff.mp hchars, rfl⟩
    · rintro ⟨chars', hchars', rfl⟩
      rw [readChars_eq_ok_iff.mpr hchars'] at hchars
      cases hchars
      rfl
  · rename_i e hchars
    constructor
    · nofun
    · rintro ⟨chars', hchars', -⟩
      rw [readChars_eq_ok_iff.mpr hchars'] at hchars
      cases hchars

/-! ## Values -/

/-- The ways in which a value is read. -/
inductive ReadsValue (fuel depth : Nat) (cs : List Char) : Json → List Char → Prop
  | keyword {c ks v r} : skipSpace cs = c :: (ks ++ r) → Keyword c ks v →
      ReadsValue fuel depth cs v r
  | negative {s n r} : skipSpace cs = '-' :: s → Numeral.read true s = .ok (n, r) →
      ReadsValue fuel depth cs (.num n) r
  | numeral {c s n r} : skipSpace cs = c :: s → c.isDigit = true →
      Numeral.read false (c :: s) = .ok (n, r) → ReadsValue fuel depth cs (.num n) r
  | string {s x r} : skipSpace cs = '"' :: s → readString s = .ok (x, r) →
      ReadsValue fuel depth cs (.str x) r
  | emptyList {s r} : skipSpace cs = '[' :: s → 1 < depth → skipSpace s = ']' :: r →
      ReadsValue fuel depth cs (.arr []) r
  | list {s c s' vs r} : skipSpace cs = '[' :: s → 1 < depth → skipSpace s = c :: s' → c ≠ ']' →
      readItems fuel (depth - 1) (c :: s') = .ok (vs, r) → ReadsValue fuel depth cs (.arr vs) r
  | emptyObject {s r} : skipSpace cs = '{' :: s → 1 < depth → skipSpace s = '}' :: r →
      ReadsValue fuel depth cs (.obj []) r
  | object {s s' k s'' ms r} : skipSpace cs = '{' :: s → 1 < depth → skipSpace s = '"' :: s' →
      readString s' = .ok (k, s'') → k ≠ embeddedKey →
      readMembers fuel (depth - 1) [] k s'' = .ok (ms, r) → ReadsValue fuel depth cs (.obj ms) r
  | embedded {s s' s'' v r} : skipSpace cs = '{' :: s → 1 < depth → skipSpace s = '"' :: s' →
      readString s' = .ok (embeddedKey, s'') →
      readEmbedded fuel (depth - 1) s'' = .ok (v, r) → ReadsValue fuel depth cs v r

/-- After its opening bracket. -/
theorem readsValue_of_list {fuel depth : Nat} {cs s r : List Char} {v : Json}
    (hcs : skipSpace cs = '[' :: s) (hdepth : 1 < depth)
    (h : (match skipSpace s with
      | [] => stop .endInList [] 0
      | ']' :: r => .ok (.arr [], r)
      | r => (readItems fuel (depth - 1) r).map fun (vs, r) => (.arr vs, r) : Reading Json) =
        .ok (v, r)) : ReadsValue fuel depth cs v r := by
  split at h
  · cases h
  · rename_i hs
    cases h
    exact .emptyList hcs hdepth hs
  · rename_i hnil hclose
    obtain ⟨a, ha, he⟩ := map_eq_ok.mp h
    cases he
    cases hs : skipSpace s with
    | nil => exact absurd hs hnil
    | cons c s' =>
        have hc : c ≠ ']' := fun he => hclose s' (he ▸ hs)
        exact .list hcs hdepth hs hc (hs ▸ ha)

/-- After its opening brace. -/
theorem readsValue_of_object {fuel depth : Nat} {cs s r : List Char} {v : Json}
    (hcs : skipSpace cs = '{' :: s) (hdepth : 1 < depth)
    (h : (match skipSpace s with
      | [] => stop .endInObject [] 0
      | '}' :: r => .ok (.obj [], r)
      | '"' :: r =>
        match readString r with
        | .error e => .error e
        | .ok (k, r) =>
          if k = embeddedKey then readEmbedded fuel (depth - 1) r
          else (readMembers fuel (depth - 1) [] k r).map fun (ms, r) => (.obj ms, r)
      | r => stop .keyNotString r 1 : Reading Json) = .ok (v, r)) :
    ReadsValue fuel depth cs v r := by
  split at h
  · cases h
  · rename_i hs
    cases h
    exact .emptyObject hcs hdepth hs
  · rename_i hs
    split at h
    · cases h
    · rename_i k s'' hk
      by_cases he : k = embeddedKey
      · rw [if_pos he] at h
        exact .embedded hcs hdepth hs (he ▸ hk) h
      · rw [if_neg he] at h
        obtain ⟨a, ha, hv⟩ := map_eq_ok.mp h
        cases hv
        exact .object hcs hdepth hs hk he ha
  · cases h

theorem readsValue_of_eq_ok {fuel depth : Nat} {cs r : List Char} {v : Json}
    (h : readValue (fuel + 1) depth cs = .ok (v, r)) : ReadsValue fuel depth cs v r := by
  unfold readValue at h
  cases hcs : skipSpace cs with
  | nil => simp only [hcs] at h; cases h
  | cons c s =>
      simp only [hcs] at h
      by_cases hn : c = 'n'
      · rw [if_pos hn] at h
        obtain ⟨rfl, rfl⟩ := readKeyword_eq_ok_iff.mp h
        exact .keyword (hn ▸ hcs) .null
      rw [if_neg hn] at h
      by_cases ht : c = 't'
      · rw [if_pos ht] at h
        obtain ⟨rfl, rfl⟩ := readKeyword_eq_ok_iff.mp h
        exact .keyword (ht ▸ hcs) .true
      rw [if_neg ht] at h
      by_cases hf : c = 'f'
      · rw [if_pos hf] at h
        obtain ⟨rfl, rfl⟩ := readKeyword_eq_ok_iff.mp h
        exact .keyword (hf ▸ hcs) .false
      rw [if_neg hf] at h
      by_cases hm : c = '-'
      · rw [if_pos hm] at h
        obtain ⟨a, ha, he⟩ := map_eq_ok.mp h
        cases he
        exact .negative (hm ▸ hcs) ha
      rw [if_neg hm] at h
      by_cases hd : c.isDigit
      · rw [if_pos hd] at h
        obtain ⟨a, ha, he⟩ := map_eq_ok.mp h
        cases he
        exact .numeral hcs hd ha
      rw [if_neg hd] at h
      by_cases hq : c = '"'
      · rw [if_pos hq] at h
        obtain ⟨a, ha, he⟩ := map_eq_ok.mp h
        cases he
        exact .string (hq ▸ hcs) ha
      rw [if_neg hq] at h
      by_cases hl : c = '['
      · rw [if_pos hl] at h
        by_cases hdepth : depth ≤ 1
        · rw [if_pos hdepth] at h
          cases h
        rw [if_neg hdepth] at h
        exact readsValue_of_list (hl ▸ hcs) (Nat.lt_of_not_le hdepth) h
      rw [if_neg hl] at h
      by_cases ho : c = '{'
      · rw [if_pos ho] at h
        by_cases hdepth : depth ≤ 1
        · rw [if_pos hdepth] at h
          cases h
        rw [if_neg hdepth] at h
        exact readsValue_of_object (ho ▸ hcs) (Nat.lt_of_not_le hdepth) h
      rw [if_neg ho] at h
      cases h

theorem ReadsValue.eq_ok {fuel depth : Nat} {cs r : List Char} {v : Json}
    (h : ReadsValue fuel depth cs v r) : readValue (fuel + 1) depth cs = .ok (v, r) := by
  unfold readValue
  cases h with
  | keyword hcs hk => cases hk <;> simp [hcs, readKeyword_eq_ok_iff]
  | negative hcs hn => simp [hcs, hn, Except.map]
  | @numeral c s n r hcs hc hn =>
      have hne : ∀ k : Char, k.isDigit = false → c ≠ k := fun _ => ne_of_class hc
      simp [hcs, hc, hn, hne 'n' rfl, hne 't' rfl, hne 'f' rfl, hne '-' rfl, Except.map]
  | string hcs hx => simp [hcs, hx, Except.map]
  | emptyList hcs hd hs => simp [hcs, Nat.not_le.mpr hd, hs]
  | list hcs hd hs hc hvs => simp [hcs, Nat.not_le.mpr hd, hs, hc, hvs, Except.map]
  | emptyObject hcs hd hs => simp [hcs, Nat.not_le.mpr hd, hs]
  | object hcs hd hs hk he hms => simp [hcs, Nat.not_le.mpr hd, hs, hk, he, hms, Except.map]
  | embedded hcs hd hs hk hv => simp [hcs, Nat.not_le.mpr hd, hs, hk, hv]

theorem readValue_eq_ok_iff {fuel depth : Nat} {cs r : List Char} {v : Json} :
    readValue (fuel + 1) depth cs = .ok (v, r) ↔ ReadsValue fuel depth cs v r :=
  ⟨readsValue_of_eq_ok, ReadsValue.eq_ok⟩

/-! ## Items and members -/

/-- The ways in which the items of a list are read. -/
inductive ReadsItems (fuel depth : Nat) (cs : List Char) : List Json → List Char → Prop
  | last {v s r} : readValue fuel depth cs = .ok (v, s) → skipSpace s = ']' :: r →
      ReadsItems fuel depth cs [v] r
  | more {v s s' c s'' vs r} : readValue fuel depth cs = .ok (v, s) → skipSpace s = ',' :: s' →
      skipSpace s' = c :: s'' → c ≠ ']' → readItems fuel depth (c :: s'') = .ok (vs, r) →
      ReadsItems fuel depth cs (v :: vs) r

theorem readItems_eq_ok_iff {fuel depth : Nat} {cs r : List Char} {vs : List Json} :
    readItems (fuel + 1) depth cs = .ok (vs, r) ↔ ReadsItems fuel depth cs vs r := by
  unfold readItems
  constructor
  · intro h
    obtain ⟨⟨v, s⟩, hv, h⟩ := bind_eq_ok.mp h
    simp only at h
    split at h
    · cases h
    · rename_i hs
      cases h
      exact .last hv hs
    · rename_i s' hs
      split at h
      · cases h
      · cases h
      · rename_i hnil hclose
        obtain ⟨⟨vs, r⟩, hvs, h⟩ := bind_eq_ok.mp h
        cases h
        cases hs' : skipSpace s' with
        | nil => exact absurd hs' hnil
        | cons c s'' =>
            have hc : c ≠ ']' := fun he => hclose s'' (he ▸ hs')
            exact .more hv hs hs' hc (hs' ▸ hvs)
    · cases h
  · intro h
    cases h with
    | last hv hs => simp [hv, hs, bind, Except.bind]
    | more hv hs hs' hc hvs => simp [hv, hs, hs', hc, hvs, bind, Except.bind]

/-- The ways in which the members of an object are read after a key. -/
inductive ReadsMembers (fuel depth : Nat) (ms : Dict Json) (k : String) (cs : List Char) :
    Dict Json → List Char → Prop
  | last {s v s' r} : skipSpace cs = ':' :: s → readValue fuel depth s = .ok (v, s') →
      skipSpace s' = '}' :: r → ReadsMembers fuel depth ms k cs (Dict.insert ms k v) r
  | more {s v s' s'' t k' t' result r} : skipSpace cs = ':' :: s →
      readValue fuel depth s = .ok (v, s') → skipSpace s' = ',' :: s'' →
      skipSpace s'' = '"' :: t → readString t = .ok (k', t') →
      readMembers fuel depth (Dict.insert ms k v) k' t' = .ok (result, r) →
      ReadsMembers fuel depth ms k cs result r

theorem readMembers_eq_ok_iff {fuel depth : Nat} {ms result : Dict Json} {k : String}
    {cs r : List Char} : readMembers (fuel + 1) depth ms k cs = .ok (result, r) ↔
      ReadsMembers fuel depth ms k cs result r := by
  unfold readMembers
  constructor
  · intro h
    split at h
    · cases h
    · rename_i hcs
      obtain ⟨⟨v, s'⟩, hv, h⟩ := bind_eq_ok.mp h
      simp only at h
      split at h
      · cases h
      · rename_i hs
        cases h
        exact .last hcs hv hs
      · rename_i hs
        split at h
        · cases h
        · rename_i ht
          obtain ⟨⟨k', t'⟩, hk, h⟩ := bind_eq_ok.mp h
          exact .more hcs hv hs ht hk h
        · cases h
        · cases h
      · cases h
    · cases h
  · intro h
    cases h with
    | last hcs hv hs => simp [hcs, hv, hs, bind, Except.bind]
    | more hcs hv hs ht hk hms => simp [hcs, hv, hs, ht, hk, hms, bind, Except.bind]

/-! ## Embedded and whole texts -/

theorem readEmbedded_eq_ok_iff {fuel depth : Nat} {cs r : List Char} {v : Json} :
    readEmbedded (fuel + 1) depth cs = .ok (v, r) ↔
      ∃ s s' text s'', skipSpace cs = ':' :: s ∧ skipSpace s = '"' :: s' ∧
        readString s' = .ok (text, s'') ∧ readWhole fuel text.toList = .ok v ∧
        skipSpace s'' = '}' :: r := by
  unfold readEmbedded
  constructor
  · intro h
    split at h
    · cases h
    · rename_i s hcs
      split at h
      · rename_i s' hs
        obtain ⟨⟨text, s''⟩, htext, h⟩ := bind_eq_ok.mp h
        simp only at h
        split at h
        · cases h
        · rename_i v' hv
          split at h
          · cases h
          · rename_i hend
            cases h
            exact ⟨s, s', text, s'', hcs, hs, htext, hv, hend⟩
          · cases h
          · cases h
      · cases h
      · cases h
      · obtain ⟨a, -, h⟩ := bind_eq_ok.mp h
        cases h
    · cases h
  · rintro ⟨s, s', text, s'', hcs, hs, htext, hv, hend⟩
    simp [hcs, hs, htext, hv, hend, bind, Except.bind]

theorem readWhole_eq_ok_iff {fuel : Nat} {cs : List Char} {v : Json} :
    readWhole (fuel + 1) cs = .ok v ↔
      ∃ r, readValue fuel nestingLimit cs = .ok (v, r) ∧ skipSpace r = [] := by
  unfold readWhole
  constructor
  · intro h
    obtain ⟨⟨v', r⟩, hv, h⟩ := bind_eq_ok.mp h
    simp only at h
    split at h
    · rename_i hr
      cases h
      exact ⟨r, hv, hr⟩
    · cases h
  · rintro ⟨r, hv, hr⟩
    simp [hv, hr, bind, Except.bind, pure, Except.pure]

/-! ## Texts -/

theorem parse_eq_ok_iff {text : String} {v : Json} :
    parse text = .ok v ↔ readText text.toList = .ok v := by
  unfold parse
  cases readText text.toList with
  | error e => exact ⟨nofun, nofun⟩
  | ok v' => exact ⟨fun h => by cases h; rfl, fun h => by cases h; rfl⟩

end ScriptWorks.Json
