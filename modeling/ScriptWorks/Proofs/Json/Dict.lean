import ScriptWorks.Json.Basic

/-!
# Tables

What storing, removing and laying one table over another do to the value under each key, and that
they keep the order of the keys. In order, a table is known by the values under its keys.
-/

namespace ScriptWorks.Dict

variable {α : Type} {d e : Dict α}

@[simp] theorem get?_nil (k : String) : get? ([] : Dict α) k = none := rfl

theorem get?_cons (p : String × α) (d : Dict α) (k : String) :
    get? (p :: d) k = if p.1 = k then some p.2 else get? d k := by
  by_cases h : p.1 = k <;> simp [get?, h]

@[simp] theorem get?_cons_self (p : String × α) (d : Dict α) : get? (p :: d) p.1 = some p.2 := by
  rw [get?_cons, if_pos rfl]

@[simp] theorem keys_nil : keys ([] : Dict α) = [] := rfl

@[simp] theorem keys_cons (p : String × α) (d : Dict α) : keys (p :: d) = p.1 :: keys d := rfl

theorem mem_keys_iff {k : String} : k ∈ keys d ↔ (get? d k).isSome := by
  induction d with
  | nil => simp
  | cons p d ih =>
      by_cases h : p.1 = k
      · simp [get?_cons, h]
      · simp [get?_cons, h, ih, Ne.symm h]

theorem get?_eq_none_iff {k : String} : get? d k = none ↔ k ∉ keys d := by
  rw [mem_keys_iff]; cases get? d k <;> simp

theorem get?_eq_some_iff (h : (keys d).Nodup) {k : String} {v : α} :
    get? d k = some v ↔ (k, v) ∈ d := by
  induction d with
  | nil => simp
  | cons p d ih =>
      obtain ⟨hp, hd⟩ := List.nodup_cons.mp h
      rw [get?_cons, List.mem_cons, ← ih hd]
      by_cases hk : p.1 = k
      · have hnone : get? d k = none := get?_eq_none_iff.mpr (hk ▸ hp)
        simp [hk, hnone, Prod.ext_iff, eq_comm]
      · have hne : (k, v) ≠ p := fun heq => hk (congrArg Prod.fst heq).symm
        simp [hk, hne]

/-! ## Storing and removing -/

/-- Storing changes the value under one key. The order of the table does not matter for this. -/
theorem get?_insert (d : Dict α) (k : String) (v : α) (q : String) :
    get? (insert d k v) q = if k = q then some v else get? d q := by
  induction d with
  | nil => simp [insert, get?_cons]
  | cons p d ih =>
      obtain ⟨k', v'⟩ := p
      by_cases hk : k = k'
      · subst hk
        by_cases hq : k = q <;> simp [insert, get?_cons, hq]
      · by_cases hlt : k < k'
        · simp [insert, hk, hlt, get?_cons]
        · simp only [insert, hk, hlt, if_false, get?_cons, ih]
          by_cases hq : k = q
          · have hne : ¬ k' = q := fun h => hk (hq.trans h.symm)
            simp [hq, hne]
          · simp [hq]

theorem mem_of_mem_insert {k : String} {v : α} {m : String × α} (h : m ∈ insert d k v) :
    m = (k, v) ∨ m ∈ d := by
  induction d with
  | nil => exact .inl (List.mem_singleton.mp h)
  | cons p d ih =>
      obtain ⟨k', v'⟩ := p
      unfold insert at h
      split at h
      · exact (List.mem_cons.mp h).imp_right (List.mem_cons_of_mem _)
      · split at h
        · exact List.mem_cons.mp h
        · rcases List.mem_cons.mp h with rfl | h
          · exact .inr List.mem_cons_self
          · exact (ih h).imp_right (List.mem_cons_of_mem _)

@[simp] theorem insert_insert (d : Dict α) (k : String) (v w : α) :
    insert (insert d k v) k w = insert d k w := by
  induction d with
  | nil => simp [insert]
  | cons p d ih =>
      obtain ⟨k', v'⟩ := p
      by_cases hk : k = k'
      · simp [insert, hk]
      · by_cases hlt : k < k'
        · simp [insert, hk, hlt]
        · simp [insert, hk, hlt, ih]

theorem mem_keys_insert {k q : String} {v : α} : q ∈ keys (insert d k v) ↔ q = k ∨ q ∈ keys d := by
  simp only [mem_keys_iff, get?_insert]
  by_cases h : k = q
  · simp [h]
  · simp [h, Ne.symm h]

/-- Keeping some of the keys does not change what they stand for. -/
theorem get?_filter (d : Dict α) (keep : String → Bool) (k : String) :
    get? (d.filter fun m => keep m.1) k = if keep k then get? d k else none := by
  induction d with
  | nil => simp
  | cons p d ih =>
      rw [get?_cons, List.filter_cons]
      by_cases hp : p.1 = k
      · subst hp
        cases hkeep : keep p.1 <;> simp [get?_cons, ih, hkeep]
      · cases hkeep : keep p.1 <;> simp [get?_cons, ih, hp]

/-- Keeping some of the entries leaves the values under their keys. -/
theorem get?_filter_entries (h : (keys d).Nodup) (keep : String × α → Bool) (k : String) :
    get? (d.filter keep) k = (get? d k).filter fun v => keep (k, v) := by
  have hkept : (keys (d.filter keep)).Nodup := h.sublist (List.filter_sublist.map _)
  refine Option.ext fun v => ?_
  rw [get?_eq_some_iff hkept, List.mem_filter, ← get?_eq_some_iff h, Option.filter_eq_some_iff]

theorem get?_erase (d : Dict α) (k q : String) :
    get? (erase d k) q = if k = q then none else get? d q := by
  unfold erase
  rw [get?_filter d (fun q => decide (q ≠ k)) q]
  by_cases hq : k = q
  · simp [hq]
  · simp [hq, Ne.symm hq]

/-! ## Order -/

instance (d : Dict α) : Decidable (Sorted d) :=
  inferInstanceAs (Decidable ((keys d).Pairwise (· < ·)))

theorem Sorted.nil : Sorted ([] : Dict α) := List.Pairwise.nil

theorem sorted_cons {p : String × α} :
    Sorted (p :: d) ↔ (∀ k ∈ keys d, p.1 < k) ∧ Sorted d := List.pairwise_cons

theorem Sorted.nodup (h : Sorted d) : (keys d).Nodup := h.imp fun hlt => String.ne_of_lt hlt

theorem Sorted.insert (h : Sorted d) (k : String) (v : α) : Sorted (Dict.insert d k v) := by
  induction d with
  | nil => exact sorted_cons.mpr ⟨by simp, .nil⟩
  | cons p d ih =>
      obtain ⟨k', v'⟩ := p
      obtain ⟨hlt, hd⟩ := sorted_cons.mp h
      by_cases hk : k = k'
      · subst hk
        rw [Dict.insert, if_pos rfl]
        exact sorted_cons.mpr ⟨hlt, hd⟩
      · by_cases hkk : k < k'
        · simp only [Dict.insert, hk, hkk, if_false, if_true]
          refine sorted_cons.mpr ⟨fun q hq => ?_, h⟩
          rcases List.mem_cons.mp hq with rfl | hq
          · exact hkk
          · exact String.lt_trans hkk (hlt q hq)
        · simp only [Dict.insert, hk, hkk, if_false]
          refine sorted_cons.mpr ⟨fun q hq => ?_, ih hd⟩
          rcases mem_keys_insert.mp hq with rfl | hq
          · exact Decidable.byContradiction fun hn =>
              hk (String.le_antisymm (String.not_lt.mp hn) (String.not_lt.mp hkk))
          · exact hlt q hq

theorem Sorted.filter (h : Sorted d) (keep : String × α → Bool) :
    Sorted (d.filter keep) :=
  List.Pairwise.sublist (List.filter_sublist.map _) h

theorem Sorted.erase (h : Sorted d) (k : String) : Sorted (Dict.erase d k) := h.filter _

theorem Sorted.get?_fst {p : String × α} (h : Sorted (p :: d)) : get? d p.1 = none :=
  get?_eq_none_iff.mpr fun hmem => String.lt_irrefl p.1 ((sorted_cons.mp h).1 p.1 hmem)

/-- The first key of a table in order is the least. -/
theorem Sorted.fst_le {p : String × α} (h : Sorted (p :: d)) {k : String} {v : α}
    (hk : get? (p :: d) k = some v) : p.1 ≤ k := by
  have hmem : k ∈ keys (p :: d) := by rw [mem_keys_iff, hk]; rfl
  rcases List.mem_cons.mp hmem with rfl | hmem
  · exact String.le_refl _
  · exact String.not_lt.mp (String.lt_asymm ((sorted_cons.mp h).1 k hmem))

/-- Tables in order with the same values under all keys are the same. -/
theorem Sorted.ext (hd : Sorted d) (he : Sorted e) (h : ∀ k, get? d k = get? e k) : d = e := by
  induction d generalizing e with
  | nil =>
      cases e with
      | nil => rfl
      | cons q e => exact absurd (h q.1) (by simp)
  | cons p d ih =>
      cases e with
      | nil => exact absurd (h p.1) (by simp)
      | cons q e =>
          have hle : p.1 ≤ q.1 := hd.fst_le ((h q.1).trans (get?_cons_self q e))
          have hge : q.1 ≤ p.1 := he.fst_le ((h p.1).symm.trans (get?_cons_self p d))
          obtain rfl : p = q := by
            have hkey := String.le_antisymm hle hge
            have hvalue := h p.1
            rw [get?_cons_self, hkey, get?_cons_self] at hvalue
            exact Prod.ext hkey (Option.some.inj hvalue)
          refine congrArg (p :: ·) (ih (sorted_cons.mp hd).2 (sorted_cons.mp he).2 fun k => ?_)
          by_cases hk : p.1 = k
          · rw [← hk, hd.get?_fst, he.get?_fst]
          · have hrest := h k
            rwa [get?_cons, get?_cons, if_neg hk, if_neg hk] at hrest

/-! ## Laying one table over another -/

/-- Over another table, a table without double keys shows its own values and lets the others
through. -/
theorem get?_overlay (he : (keys e).Nodup) (d : Dict α) (k : String) :
    get? (overlay d e) k = (get? e k).or (get? d k) := by
  induction e generalizing d with
  | nil => simp [overlay]
  | cons p e ih =>
      rw [keys_cons, List.nodup_cons] at he
      obtain ⟨hp, he⟩ := he
      have step : overlay d (p :: e) = overlay (insert d p.1 p.2) e := rfl
      rw [step, ih he, get?_insert, get?_cons]
      by_cases h : p.1 = k
      · simp [h, get?_eq_none_iff.mpr (h ▸ hp)]
      · simp [h]

/-- The table of pairs without double keys has their values. -/
theorem get?_ofList {ps : List (String × α)} (h : (keys ps).Nodup) (k : String) :
    get? (ofList ps) k = get? ps k := by
  rw [ofList, get?_overlay h, get?_nil, Option.or_none]

theorem mem_keys_overlay {k : String} : k ∈ keys (overlay d e) ↔ k ∈ keys d ∨ k ∈ keys e := by
  induction e generalizing d with
  | nil => simp [overlay]
  | cons p e ih =>
      have step : overlay d (p :: e) = overlay (insert d p.1 p.2) e := rfl
      rw [step, ih, mem_keys_insert, keys_cons, List.mem_cons, or_assoc, or_left_comm]

theorem Sorted.overlay (h : Sorted d) (e : Dict α) : Sorted (Dict.overlay d e) := by
  induction e generalizing d with
  | nil => exact h
  | cons p e ih => exact ih (h.insert p.1 p.2)

end ScriptWorks.Dict
