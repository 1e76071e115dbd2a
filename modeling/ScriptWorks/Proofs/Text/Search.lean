import ScriptWorks.Proofs.Source.Position
import ScriptWorks.Text.Search

/-!
# Places of a text in another one

The search finds the first place, also from an offset on at which another text stands.
-/

namespace ScriptWorks.Text

/-- The text goes on with `needle` after so many bytes. -/
def StandsAt (needle cs : List Char) (offset : Nat) : Prop :=
  ∃ before after, cs = before ++ (needle ++ after) ∧ byteLength before = offset

variable {needle head cs : List Char} {c : Char} {i k first : Nat}

theorem standsAt_nil_iff : StandsAt needle [] i ↔ needle = [] ∧ i = 0 := by
  constructor
  · rintro ⟨before, after, h, rfl⟩
    obtain ⟨rfl, hnil⟩ := List.append_eq_nil_iff.mp h.symm
    exact ⟨(List.append_eq_nil_iff.mp hnil).1, rfl⟩
  · rintro ⟨rfl, rfl⟩
    exact ⟨[], [], rfl, rfl⟩

theorem standsAt_cons_iff : StandsAt needle (c :: cs) i ↔
    needle <+: c :: cs ∧ i = 0 ∨ ∃ j, StandsAt needle cs j ∧ i = j + c.utf8Size := by
  constructor
  · rintro ⟨before, after, h, rfl⟩
    cases before with
    | nil => exact .inl ⟨⟨after, h.symm⟩, rfl⟩
    | cons d before =>
        obtain ⟨rfl, hcs⟩ := List.cons.inj h
        exact .inr ⟨_, ⟨before, after, hcs, rfl⟩, Nat.add_comm _ _⟩
  · rintro (⟨⟨after, h⟩, rfl⟩ | ⟨j, ⟨before, after, rfl, rfl⟩, rfl⟩)
    · exact ⟨[], after, h.symm, rfl⟩
    · exact ⟨c :: before, after, rfl, Nat.add_comm _ _⟩

/-! ## The first place -/

theorem standsAt_of_find? (h : find? needle cs = some k) : StandsAt needle cs k := by
  induction cs generalizing k with
  | nil =>
      unfold find? at h
      split at h
      · next hnil => exact standsAt_nil_iff.mpr ⟨hnil, (Option.some.inj h).symm⟩
      · cases h
  | cons c cs ih =>
      unfold find? at h
      split at h
      · next hprefix =>
          exact standsAt_cons_iff.mpr (.inl ⟨List.isPrefixOf_iff_prefix.mp hprefix,
            (Option.some.inj h).symm⟩)
      · obtain ⟨j, hj, rfl⟩ := Option.map_eq_some_iff.mp h
        exact standsAt_cons_iff.mpr (.inr ⟨j, ih hj, rfl⟩)

/-- No place is before the one that is found. -/
theorem exists_find?_of_standsAt (h : StandsAt needle cs i) : ∃ k ≤ i, find? needle cs = some k := by
  induction cs generalizing i with
  | nil =>
      obtain ⟨hnil, rfl⟩ := standsAt_nil_iff.mp h
      exact ⟨0, Nat.le_refl 0, if_pos hnil⟩
  | cons c cs ih =>
      unfold find?
      split
      · exact ⟨0, Nat.zero_le _, rfl⟩
      · next hprefix =>
          rcases standsAt_cons_iff.mp h with ⟨hstarts, -⟩ | ⟨j, hj, rfl⟩
          · exact absurd (List.isPrefixOf_iff_prefix.mpr hstarts) hprefix
          · obtain ⟨k, hle, hk⟩ := ih hj
            exact ⟨k + c.utf8Size, Nat.add_le_add_right hle _, by rw [hk]; rfl⟩

theorem le_of_find? (h : find? needle cs = some k) (hi : StandsAt needle cs i) : k ≤ i := by
  obtain ⟨k', hle, hk'⟩ := exists_find?_of_standsAt hi
  cases h.symm.trans hk'
  exact hle

/-! ## Places from an offset on -/

theorem dropBytes_append (before after : List Char) :
    dropBytes (byteLength before) (before ++ after) = after := by
  induction before with
  | nil => cases after <;> rfl
  | cons c before ih =>
      obtain ⟨n, hn⟩ : ∃ n, byteLength (c :: before) = n + 1 :=
        ⟨_, (Nat.succ_pred_eq_of_pos (Nat.add_pos_left c.utf8Size_pos _)).symm⟩
      have hrest : n + 1 - c.utf8Size = byteLength before := by
        rw [← hn, byteLength_cons, Nat.add_sub_cancel_left]
      rw [hn, List.cons_append, dropBytes.eq_def]
      simp only [hrest, ih]

theorem standsAt_dropBytes_iff (hfirst : StandsAt head cs first) :
    StandsAt needle (dropBytes first cs) i ↔ StandsAt needle cs (first + i) := by
  obtain ⟨before, after, hcs, rfl⟩ := hfirst
  rw [hcs, dropBytes_append]
  constructor
  · rintro ⟨before', after', h, rfl⟩
    exact ⟨before ++ before', after', by rw [h, List.append_assoc], byteLength_append _ _⟩
  · rintro ⟨before', after', h, hlength⟩
    rcases List.append_eq_append_iff.mp h with ⟨more, rfl, hrest⟩ | ⟨more, rfl, hrest⟩
    · rw [byteLength_append] at hlength
      exact ⟨more, after', hrest, Nat.add_left_cancel hlength⟩
    · rw [byteLength_append] at hlength
      cases more with
      | nil => exact ⟨[], after', hrest.symm, by simp at hlength ⊢; omega⟩
      | cons c more =>
          have hpos := c.utf8Size_pos
          rw [byteLength_cons] at hlength
          omega

end ScriptWorks.Text
