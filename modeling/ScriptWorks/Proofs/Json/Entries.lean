import ScriptWorks.Proofs.Json.Dict
import ScriptWorks.Proofs.Json.Passing

/-!
# Where the keys of an object stand

The reader keeps the values of an object, but not the places of its keys. Here the entries of an object are
read again, each with the text from which it was read: every value of the object is that of an entry.
-/

namespace ScriptWorks.Json

/-- An entry of an object: its key, the text from the opening quote of the key on, and the text after the
colon. -/
structure Entry where
  key : String
  place : List Char
  value : List Char

/-- The entries of a text after an opening brace or a comma, as far as they can be read. -/
def entries : Nat → Nat → List Char → List Entry
  | 0, _, _ => []
  | fuel + 1, depth, cs =>
    match skipSpace cs with
    | '"' :: s =>
      match readString s with
      | .ok (k, s') =>
        match skipSpace s' with
        | ':' :: t => ⟨k, '"' :: s, t⟩ ::
          match readValue fuel depth t with
          | .ok (_, r) =>
            match skipSpace r with
            | ',' :: r' => entries fuel depth r'
            | _ => []
          | .error _ => []
        | _ => []
      | .error _ => []
    | _ => []

/-- The entries of the object with which a text goes on. -/
def objectEntries (fuel depth : Nat) (cs : List Char) : List Entry :=
  match skipSpace cs with
  | '{' :: s => entries fuel (depth - 1) s
  | _ => []

variable {fuel depth : Nat} {cs s t r : List Char} {k q : String} {v : Json} {e : Entry}

/-- The ways in which an entry is found. -/
inductive IsEntry (fuel depth : Nat) (cs : List Char) : Entry → Prop
  | here {s k s' t} : skipSpace cs = '"' :: s → readString s = .ok (k, s') →
      skipSpace s' = ':' :: t → IsEntry fuel depth cs ⟨k, '"' :: s, t⟩
  | later {s k s' t v r r' e} : skipSpace cs = '"' :: s → readString s = .ok (k, s') →
      skipSpace s' = ':' :: t → readValue fuel depth t = .ok (v, r) → skipSpace r = ',' :: r' →
      e ∈ entries fuel depth r' → IsEntry fuel depth cs e

theorem mem_entries_iff : e ∈ entries (fuel + 1) depth cs ↔ IsEntry fuel depth cs e := by
  unfold entries
  constructor
  · intro h
    split at h
    case h_2 => cases h
    next s hcs =>
    split at h
    case h_2 => cases h
    next k s' hk =>
    split at h
    case h_2 => cases h
    next t ht =>
    rcases List.mem_cons.mp h with rfl | h
    · exact .here hcs hk ht
    split at h
    case h_2 => cases h
    next v r hv =>
    split at h
    case h_2 => cases h
    next r' hr => exact .later hcs hk ht hv hr h
  · intro h
    cases h with
    | here hcs hk ht => simp [hcs, hk, ht]
    | later hcs hk ht hv hr he => simp [hcs, hk, ht, hv, hr, he]

/-! ## Places of entries -/

/-- The entry stands where the reader comes to from `cs` on, and its key is the string there. -/
structure StandsIn (e : Entry) (cs : List Char) : Prop where
  passes : Passes cs e.place
  key : ∃ s s', e.place = '"' :: s ∧ readString s = .ok (e.key, s') ∧ skipSpace s' = ':' :: e.value

theorem StandsIn.passes_value (h : StandsIn e cs) : Passes e.place e.value := by
  obtain ⟨s, s', hplace, hkey, hvalue⟩ := h.key
  rw [hplace]
  exact .of_string rfl hkey (.of_char hvalue (by decide) .done)

theorem StandsIn.of_passes (hcs : Passes cs s) (h : StandsIn e s) : StandsIn e cs :=
  ⟨hcs.trans h.passes, h.key⟩

theorem standsIn_of_mem_entries (h : e ∈ entries fuel depth cs) : StandsIn e cs := by
  induction fuel generalizing cs with
  | zero => cases h
  | succ fuel ih =>
      cases mem_entries_iff.mp h with
      | here hcs hk ht => exact ⟨.of_skipSpace (hcs ▸ .done), _, _, rfl, hk, ht⟩
      | later hcs hk ht hv hr he =>
          have hnext := ((readsPassing fuel).value hv).trans (.of_char hr (by decide) .done)
          exact (ih he).of_passes (.of_string hcs hk (.of_char ht (by decide) hnext))

theorem standsIn_of_mem_objectEntries (h : e ∈ objectEntries fuel depth cs) : StandsIn e cs := by
  unfold objectEntries at h
  split at h
  · next s hs => exact (standsIn_of_mem_entries h).of_passes (.of_char hs (by decide) .done)
  · cases h

/-! ## Values of entries -/

/-- The value is read from the entry. -/
def ReadsEntry (depth : Nat) (e : Entry) (k : String) (v : Json) : Prop :=
  e.key = k ∧ ∃ fuel r, readValue fuel depth e.value = .ok (v, r)

/-- What is read of an object comes from its entries, or was there before. -/
theorem exists_entry_of_readMembers {ms result : Dict Json} (hcs : skipSpace cs = '"' :: s)
    (hk : readString s = .ok (k, t)) (h : readMembers fuel depth ms k t = .ok (result, r))
    (hq : Dict.get? result q = some v) :
    Dict.get? ms q = some v ∨ ∃ e ∈ entries fuel depth cs, ReadsEntry depth e q v := by
  induction fuel generalizing cs s k t ms with
  | zero => cases h
  | succ fuel ih =>
      -- The first entry, and what is there after it.
      have hfirst : ∀ {t' w r'}, skipSpace t = ':' :: t' → readValue fuel depth t' = .ok (w, r') →
          Dict.get? (Dict.insert ms k w) q = some v → Dict.get? ms q = some v ∨
            ∃ e ∈ entries (fuel + 1) depth cs, ReadsEntry depth e q v := by
        intro t' w r' ht hw hq
        rw [Dict.get?_insert] at hq
        split at hq
        · next heq =>
            cases hq
            exact .inr ⟨_, mem_entries_iff.mpr (.here hcs hk ht), heq, fuel, r', hw⟩
        · exact .inl hq
      cases readMembers_eq_ok_iff.mp h with
      | last ht hw hclose => exact hfirst ht hw hq
      | more ht hw hcomma hquote hnext hms =>
          rcases ih hquote hnext hms with hq | ⟨e, he, hentry⟩
          · exact hfirst ht hw hq
          · exact .inr ⟨e, mem_entries_iff.mpr (.later hcs hk ht hw hcomma he), hentry⟩

/-! ## Texts without escapes -/

/-- Without escapes a string is read as it is written. -/
theorem ReadsChars.eq_of_no_escape {x : List Char} (h : ReadsChars s x r) (hs : '\\' ∉ s) :
    s = x ++ '"' :: r ∧ '"' ∉ x := by
  induction h with
  | close => exact ⟨rfl, List.not_mem_nil⟩
  | char hquote _ _ _ ih =>
      obtain ⟨rfl, hx⟩ := ih fun h => hs (List.mem_cons_of_mem _ h)
      exact ⟨rfl, fun h => (List.mem_cons.mp h).elim (fun he => hquote he.symm) hx⟩
  | escape | unit | pair => exact absurd List.mem_cons_self hs

/-- A value in whose text there are no quotes is no object with members. -/
theorem members_eq_nil_of_no_quote {ms : Dict Json} (h : readValue fuel depth cs = .ok (.obj ms, r))
    (hcs : '"' ∉ cs) : ms = [] := by
  have hquote : ∀ {s s'}, skipSpace cs = '{' :: s → skipSpace s = '"' :: s' → False := by
    intro s s' hs hs'
    have hpass : Passes cs ('"' :: s') := .of_char hs (by decide) (.of_skipSpace (hs' ▸ .done))
    exact hcs (hpass.mem List.mem_cons_self)
  cases fuel with
  | zero => cases h
  | succ fuel =>
      cases readValue_eq_ok_iff.mp h with
      | keyword _ hk => cases hk
      | emptyObject => rfl
      | object hs _ hs' => exact (hquote hs hs').elim
      | embedded hs _ hs' => exact (hquote hs hs').elim

/-- The text of a value that an object stands for has quotes only as escapes. -/
theorem members_eq_nil_of_readEmbedded {ms : Dict Json}
    (h : readEmbedded fuel depth cs = .ok (.obj ms, r)) (hcs : '\\' ∉ cs) : ms = [] := by
  cases fuel with
  | zero => cases h
  | succ fuel =>
      obtain ⟨t, t', x, t'', ht, ht', hx, hwhole, -⟩ := readEmbedded_eq_ok_iff.mp h
      obtain ⟨chars, hchars, rfl⟩ := readString_eq_ok_iff.mp hx
      have hpass : Passes cs ('"' :: t') := .of_char ht (by decide) (.of_skipSpace (ht' ▸ .done))
      have hquote := (hchars.eq_of_no_escape fun h => hcs (hpass.mem (List.mem_cons_of_mem _ h))).2
      rw [String.toList_ofList] at hwhole
      cases fuel with
      | zero => cases hwhole
      | succ fuel =>
          obtain ⟨_, hv, -⟩ := readWhole_eq_ok_iff.mp hwhole
          exact members_eq_nil_of_no_quote hv hquote

/-- Every value of an object is that of an entry, if there are no escapes in its text. -/
theorem exists_entry_of_readValue {n : Nat} {ms : Dict Json} (hcs : '\\' ∉ cs)
    (h : readValue fuel depth cs = .ok (.obj ms, r)) (hq : Dict.get? ms q = some v)
    (hn : 2 * cs.length ≤ n) : ∃ e ∈ objectEntries n depth cs, ReadsEntry (depth - 1) e q v := by
  cases fuel with
  | zero => cases h
  | succ fuel =>
      cases readValue_eq_ok_iff.mp h with
      | keyword _ hk => cases hk
      | emptyObject => cases hq
      | object hs _ hquote hk _ hms =>
          have hlt := length_lt_of_skipSpace hs
          have hlt' := length_lt_of_skipSpace hquote
          have hkey := length_lt_of_readString hk
          have hms' := ((readsWithin fuel).members hms).2 n (by omega)
          rcases exists_entry_of_readMembers hquote hk hms' hq with hnil | hentry
          · cases hnil
          · rwa [objectEntries, hs]
      | embedded hs _ hquote hk hv =>
          have hpass := Passes.of_char hs (by decide) (.of_string hquote hk .done)
          rw [members_eq_nil_of_readEmbedded hv fun h => hcs (hpass.mem h)] at hq
          cases hq

end ScriptWorks.Json
