import ScriptWorks.Proofs.Json.Token

/-!
# The fuel of the reader

What is read with some fuel is read with as much as `readText` has: every two steps of the reader take a
character of the text.
-/

namespace ScriptWorks.Json

/-! ## What is taken of a text -/

theorem length_lt_of_skipSpace {cs r : List Char} {c : Char} (h : skipSpace cs = c :: r) :
    r.length < cs.length := by
  obtain ⟨-, sp, -, rfl⟩ := exists_of_skipSpace_eq_cons h
  simp only [List.length_append, List.length_cons]
  omega

theorem ReadsChars.length_lt {cs x r : List Char} (h : ReadsChars cs x r) :
    x.length + r.length < cs.length := by
  induction h with
  | close => simp
  | char _ _ _ _ ih | escape _ _ _ ih | unit _ _ _ _ ih | pair _ _ _ _ _ _ ih =>
      simp only [List.length_cons]
      omega

theorem length_lt_of_readString {cs r : List Char} {x : String} (h : readString cs = .ok (x, r)) :
    x.toList.length + r.length < cs.length := by
  obtain ⟨chars, hchars, rfl⟩ := readString_eq_ok_iff.mp h
  rw [String.toList_ofList]
  exact hchars.length_lt

theorem length_le_of_readsWord {α : Type} {read : List Char → Reading α} (hread : ReadsWord read)
    {cs r : List Char} {a : α} (h : read cs = .ok (a, r)) : r.length ≤ cs.length := by
  obtain ⟨w, -, rfl, -⟩ := hread h
  simp

/-! ## Enough fuel -/

/-- All parts of the reader that succeed with so much fuel also do with twice as much as they take
characters, and a value with one more. -/
structure ReadsWithin (fuel : Nat) : Prop where
  value {depth cs v r} : readValue fuel depth cs = .ok (v, r) → r.length ≤ cs.length ∧
    ∀ n, 2 * cs.length < n + 2 * r.length → readValue n depth cs = .ok (v, r)
  items {depth cs vs r} : readItems fuel depth cs = .ok (vs, r) → r.length < cs.length ∧
    ∀ n, 2 * cs.length ≤ n + 2 * r.length → readItems n depth cs = .ok (vs, r)
  members {depth ms k cs result r} : readMembers fuel depth ms k cs = .ok (result, r) →
    r.length < cs.length ∧
      ∀ n, 2 * cs.length ≤ n + 2 * r.length → readMembers n depth ms k cs = .ok (result, r)
  embedded {depth cs v r} : readEmbedded fuel depth cs = .ok (v, r) → r.length < cs.length ∧
    ∀ n, 2 * cs.length ≤ n + 2 * r.length → readEmbedded n depth cs = .ok (v, r)
  whole {cs v} : readWhole fuel cs = .ok v →
    ∀ n, 2 * cs.length + 2 ≤ n → readWhole n cs = .ok v

namespace ReadsWithin

variable {fuel : Nat}

theorem value_succ (ih : ReadsWithin fuel) {depth : Nat} {cs r : List Char} {v : Json}
    (h : ReadsValue fuel depth cs v r) : r.length ≤ cs.length ∧
      ∀ n, 2 * cs.length ≤ n + 2 * r.length → ReadsValue n depth cs v r := by
  cases h with
  | keyword hcs hk =>
      have hlt := length_lt_of_skipSpace hcs
      rw [List.length_append] at hlt
      exact ⟨by omega, fun _ _ => .keyword hcs hk⟩
  | negative hcs hn =>
      have hlt := length_lt_of_skipSpace hcs
      have hle := length_le_of_readsWord (Numeral.readsWord_read true) hn
      exact ⟨by omega, fun _ _ => .negative hcs hn⟩
  | numeral hcs hc hn =>
      have hlt := length_lt_of_skipSpace hcs
      have hle := length_le_of_readsWord (Numeral.readsWord_read false) hn
      rw [List.length_cons] at hle
      exact ⟨by omega, fun _ _ => .numeral hcs hc hn⟩
  | string hcs hx =>
      have hlt := length_lt_of_skipSpace hcs
      have hlt' := length_lt_of_readString hx
      exact ⟨by omega, fun _ _ => .string hcs hx⟩
  | emptyList hcs hd hs =>
      have hlt := length_lt_of_skipSpace hcs
      have hlt' := length_lt_of_skipSpace hs
      exact ⟨by omega, fun _ _ => .emptyList hcs hd hs⟩
  | list hcs hd hs hc hvs =>
      have hlt := length_lt_of_skipSpace hcs
      have hlt' := length_lt_of_skipSpace hs
      obtain ⟨hle, hitems⟩ := ih.items hvs
      rw [List.length_cons] at hle hitems
      exact ⟨by omega, fun n _ => .list hcs hd hs hc (hitems n (by omega))⟩
  | emptyObject hcs hd hs =>
      have hlt := length_lt_of_skipSpace hcs
      have hlt' := length_lt_of_skipSpace hs
      exact ⟨by omega, fun _ _ => .emptyObject hcs hd hs⟩
  | object hcs hd hs hk he hms =>
      have hlt := length_lt_of_skipSpace hcs
      have hlt' := length_lt_of_skipSpace hs
      have hkey := length_lt_of_readString hk
      obtain ⟨hle, hmembers⟩ := ih.members hms
      exact ⟨by omega, fun n _ => .object hcs hd hs hk he (hmembers n (by omega))⟩
  | embedded hcs hd hs hk hv =>
      have hlt := length_lt_of_skipSpace hcs
      have hlt' := length_lt_of_skipSpace hs
      have hkey := length_lt_of_readString hk
      obtain ⟨hle, hembedded⟩ := ih.embedded hv
      exact ⟨by omega, fun n _ => .embedded hcs hd hs hk (hembedded n (by omega))⟩

theorem items_succ (ih : ReadsWithin fuel) {depth : Nat} {cs r : List Char} {vs : List Json}
    (h : ReadsItems fuel depth cs vs r) : r.length < cs.length ∧
      ∀ n, 2 * cs.length ≤ n + 1 + 2 * r.length → ReadsItems n depth cs vs r := by
  cases h with
  | last hv hs =>
      obtain ⟨hle, hvalue⟩ := ih.value hv
      have hlt := length_lt_of_skipSpace hs
      exact ⟨by omega, fun n _ => .last (hvalue n (by omega)) hs⟩
  | more hv hs hs' hc hvs =>
      obtain ⟨hle, hvalue⟩ := ih.value hv
      have hlt := length_lt_of_skipSpace hs
      have hlt' := length_lt_of_skipSpace hs'
      obtain ⟨hle', hitems⟩ := ih.items hvs
      rw [List.length_cons] at hle' hitems
      exact ⟨by omega, fun n _ => .more (hvalue n (by omega)) hs hs' hc (hitems n (by omega))⟩

theorem members_succ (ih : ReadsWithin fuel) {depth : Nat} {ms result : Dict Json} {k : String}
    {cs r : List Char} (h : ReadsMembers fuel depth ms k cs result r) : r.length < cs.length ∧
      ∀ n, 2 * cs.length ≤ n + 1 + 2 * r.length → ReadsMembers n depth ms k cs result r := by
  cases h with
  | last hcs hv hs =>
      have hlt := length_lt_of_skipSpace hcs
      obtain ⟨hle, hvalue⟩ := ih.value hv
      have hlt' := length_lt_of_skipSpace hs
      exact ⟨by omega, fun n _ => .last hcs (hvalue n (by omega)) hs⟩
  | more hcs hv hs ht hk hms =>
      have hlt := length_lt_of_skipSpace hcs
      obtain ⟨hle, hvalue⟩ := ih.value hv
      have hcomma := length_lt_of_skipSpace hs
      have hquote := length_lt_of_skipSpace ht
      have hkey := length_lt_of_readString hk
      obtain ⟨hle', hmembers⟩ := ih.members hms
      exact ⟨by omega,
        fun n _ => .more hcs (hvalue n (by omega)) hs ht hk (hmembers n (by omega))⟩

theorem embedded_succ (ih : ReadsWithin fuel) {depth : Nat} {cs r : List Char} {v : Json}
    (h : readEmbedded (fuel + 1) depth cs = .ok (v, r)) : r.length < cs.length ∧
      ∀ n, 2 * cs.length ≤ n + 1 + 2 * r.length → readEmbedded (n + 1) depth cs = .ok (v, r) := by
  obtain ⟨s, s', text, s'', hcs, hs, htext, hv, hclose⟩ := readEmbedded_eq_ok_iff.mp h
  have hlt := length_lt_of_skipSpace hcs
  have hquote := length_lt_of_skipSpace hs
  have hbody := length_lt_of_readString htext
  have hend := length_lt_of_skipSpace hclose
  refine ⟨by omega, fun n _ => readEmbedded_eq_ok_iff.mpr ?_⟩
  exact ⟨s, s', text, s'', hcs, hs, htext, ih.whole hv n (by omega), hclose⟩

theorem whole_succ (ih : ReadsWithin fuel) {cs : List Char} {v : Json}
    (h : readWhole (fuel + 1) cs = .ok v) (n : Nat) (hn : 2 * cs.length < n) :
    readWhole (n + 1) cs = .ok v := by
  obtain ⟨r, hv, hr⟩ := readWhole_eq_ok_iff.mp h
  exact readWhole_eq_ok_iff.mpr ⟨r, (ih.value hv).2 n (by omega), hr⟩

end ReadsWithin

theorem readsWithin (fuel : Nat) : ReadsWithin fuel := by
  induction fuel with
  | zero => exact ⟨nofun, nofun, nofun, nofun, nofun⟩
  | succ fuel ih =>
      refine ⟨fun h => ?_, fun h => ?_, fun h => ?_, fun h => ?_, fun h n hn => ?_⟩
      · obtain ⟨hle, hreads⟩ := ih.value_succ (readValue_eq_ok_iff.mp h)
        refine ⟨hle, fun n hn => ?_⟩
        obtain ⟨m, rfl⟩ : ∃ m, n = m + 1 := ⟨n - 1, by omega⟩
        exact (hreads m (by omega)).eq_ok
      · obtain ⟨hlt, hreads⟩ := ih.items_succ (readItems_eq_ok_iff.mp h)
        refine ⟨hlt, fun n hn => ?_⟩
        obtain ⟨m, rfl⟩ : ∃ m, n = m + 1 := ⟨n - 1, by omega⟩
        exact readItems_eq_ok_iff.mpr (hreads m hn)
      · obtain ⟨hlt, hreads⟩ := ih.members_succ (readMembers_eq_ok_iff.mp h)
        refine ⟨hlt, fun n hn => ?_⟩
        obtain ⟨m, rfl⟩ : ∃ m, n = m + 1 := ⟨n - 1, by omega⟩
        exact readMembers_eq_ok_iff.mpr (hreads m hn)
      · obtain ⟨hlt, hreads⟩ := ih.embedded_succ h
        refine ⟨hlt, fun n hn => ?_⟩
        obtain ⟨m, rfl⟩ : ∃ m, n = m + 1 := ⟨n - 1, by omega⟩
        exact hreads m hn
      · obtain ⟨m, rfl⟩ : ∃ m, n = m + 1 := ⟨n - 1, by omega⟩
        exact ih.whole_succ h m (by omega)

/-- A text that can be read at all is read with the fuel of `readText`. -/
theorem readText_of_readWhole {fuel : Nat} {cs : List Char} {v : Json}
    (h : readWhole fuel cs = .ok v) : readText cs = .ok v := (readsWithin fuel).whole h _ (by omega)

end ScriptWorks.Json
