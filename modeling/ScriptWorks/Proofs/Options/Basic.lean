import ScriptWorks.Options.Layer
import ScriptWorks.Proofs.Json.Dict

/-!
# Sets of options

What a set says under a key, whether the key is one of the schema or not, and the order that every
way to make a set keeps.
-/

namespace ScriptWorks

namespace CompilerOption

theorem index_injective {o p : CompilerOption} (h : o.index = p.index) : o = p := by
  have hm := mem_all o
  rw [← List.idxOf_lt_length_iff] at hm
  have ho : all[all.idxOf o]? = some o := by rw [List.getElem?_eq_getElem hm]; simp
  have hp : all[all.idxOf p]? = some p := by
    have hp := List.idxOf_lt_length_iff.mpr (mem_all p)
    rw [List.getElem?_eq_getElem hp]; simp
  exact Option.some.inj (ho.symm.trans ((congrArg (all[·]?) h).trans hp))

end CompilerOption

namespace Options

/-! ## Values of the schema -/

def valueIn? (o : CompilerOption) (vs : List (CompilerOption × OptionValue)) : Option OptionValue :=
  (vs.find? (·.1 = o)).map (·.2)

theorem valueIn?_cons (o : CompilerOption) (p : CompilerOption × OptionValue)
    (vs : List (CompilerOption × OptionValue)) :
    valueIn? o (p :: vs) = if p.1 = o then some p.2 else valueIn? o vs := by
  by_cases h : p.1 = o <;> simp [valueIn?, h]

theorem mem_values_iff {o : CompilerOption} {vs : List (CompilerOption × OptionValue)} :
    o ∈ vs.map (·.1) ↔ (valueIn? o vs).isSome := by
  induction vs with
  | nil => simp [valueIn?]
  | cons p vs ih =>
      by_cases h : p.1 = o
      · simp [valueIn?_cons, h]
      · simp only [List.map_cons, List.mem_cons, Ne.symm h, false_or, ih, valueIn?_cons, h, if_false]

theorem valueIn?_insertValue (o : CompilerOption) (v : OptionValue)
    (vs : List (CompilerOption × OptionValue)) (q : CompilerOption) :
    valueIn? q (insertValue o v vs) = if o = q then some v else valueIn? q vs := by
  induction vs with
  | nil => simp [insertValue, valueIn?_cons]
  | cons p vs ih =>
      obtain ⟨p, w⟩ := p
      by_cases hp : o = p
      · subst hp
        by_cases hq : o = q <;> simp [insertValue, valueIn?_cons, hq]
      · by_cases hlt : o.index < p.index
        · simp [insertValue, hp, hlt, valueIn?_cons]
        · simp only [insertValue, hp, hlt, if_false, valueIn?_cons, ih]
          by_cases hq : o = q
          · have hne : ¬ p = q := fun h => hp (hq.trans h.symm)
            simp [hq, hne]
          · simp [hq]

theorem mem_insertValue {o q : CompilerOption} {v : OptionValue}
    {vs : List (CompilerOption × OptionValue)} :
    q ∈ (insertValue o v vs).map (·.1) ↔ q = o ∨ q ∈ vs.map (·.1) := by
  rw [mem_values_iff, valueIn?_insertValue, mem_values_iff]
  by_cases h : o = q
  · simp [h]
  · simp [h, Ne.symm h]

/-- The options come in the order of the schema, none of them twice. -/
def InOrder (vs : List (CompilerOption × OptionValue)) : Prop :=
  (vs.map (·.1)).Pairwise (·.index < ·.index)

theorem InOrder.nodup {vs : List (CompilerOption × OptionValue)} (h : InOrder vs) :
    (vs.map (·.1)).Nodup :=
  h.imp fun {o p} hlt (he : o = p) => Nat.lt_irrefl p.index (he ▸ hlt)

theorem InOrder.insertValue {vs : List (CompilerOption × OptionValue)} (h : InOrder vs)
    (o : CompilerOption) (v : OptionValue) : InOrder (Options.insertValue o v vs) := by
  induction vs with
  | nil => exact List.pairwise_singleton _ _
  | cons p vs ih =>
      obtain ⟨p, w⟩ := p
      obtain ⟨hlt, hvs⟩ := List.pairwise_cons.mp h
      by_cases hp : o = p
      · subst hp
        rw [Options.insertValue, if_pos rfl]
        exact List.pairwise_cons.mpr ⟨hlt, hvs⟩
      · by_cases hop : o.index < p.index
        · simp only [Options.insertValue, hp, hop, if_false, if_true]
          refine List.pairwise_cons.mpr ⟨fun q hq => ?_, h⟩
          rcases List.mem_cons.mp hq with rfl | hq
          · exact hop
          · exact Nat.lt_trans hop (hlt q hq)
        · simp only [Options.insertValue, hp, hop, if_false]
          refine List.pairwise_cons.mpr ⟨fun q hq => ?_, ih hvs⟩
          rcases mem_insertValue.mp hq with rfl | hq
          · exact Nat.lt_of_le_of_ne (Nat.le_of_not_lt hop) fun he =>
              hp (CompilerOption.index_injective he.symm)
          · exact hlt q hq

def overlayValues (vs ws : List (CompilerOption × OptionValue)) :
    List (CompilerOption × OptionValue) :=
  ws.foldl (fun vs p => insertValue p.1 p.2 vs) vs

theorem valueIn?_overlayValues {ws : List (CompilerOption × OptionValue)}
    (hws : (ws.map (·.1)).Nodup) (vs : List (CompilerOption × OptionValue)) (o : CompilerOption) :
    valueIn? o (overlayValues vs ws) = (valueIn? o ws).or (valueIn? o vs) := by
  induction ws generalizing vs with
  | nil => simp [overlayValues, valueIn?]
  | cons p ws ih =>
      rw [List.map_cons, List.nodup_cons] at hws
      obtain ⟨hp, hws⟩ := hws
      have step : overlayValues vs (p :: ws) = overlayValues (insertValue p.1 p.2 vs) ws := rfl
      rw [step, ih hws, valueIn?_insertValue, valueIn?_cons]
      by_cases h : p.1 = o
      · have hnone : valueIn? o ws = none := by
          rw [h, mem_values_iff] at hp
          exact Option.not_isSome_iff_eq_none.mp hp
        simp [h, hnone]
      · simp [h]

theorem mem_overlayValues {o : CompilerOption} {vs ws : List (CompilerOption × OptionValue)} :
    o ∈ (overlayValues vs ws).map (·.1) ↔ o ∈ vs.map (·.1) ∨ o ∈ ws.map (·.1) := by
  induction ws generalizing vs with
  | nil => simp [overlayValues]
  | cons p ws ih =>
      have step : overlayValues vs (p :: ws) = overlayValues (insertValue p.1 p.2 vs) ws := rfl
      rw [step, ih, mem_insertValue, List.map_cons, List.mem_cons, or_assoc, or_left_comm]

theorem InOrder.overlayValues {vs : List (CompilerOption × OptionValue)} (h : InOrder vs)
    (ws : List (CompilerOption × OptionValue)) : InOrder (Options.overlayValues vs ws) := by
  induction ws generalizing vs with
  | nil => exact h
  | cons p ws ih => exact ih (h.insertValue p.1 p.2)

/-! ## Sets -/

/-- What a set says under a key: the value of an option, or JSON under any other key. -/
inductive Setting where
  | option (v : OptionValue)
  | extra (v : Json)

def setting? (s : Options) (k : String) : Option Setting :=
  match CompilerOption.ofName? k with
  | some o => (s.get? o).map .option
  | none => (Dict.get? s.extra k).map .extra

/-- Both tables of a set are in order, and only keys outside the schema are kept as they are. -/
structure WellFormed (s : Options) : Prop where
  values_inOrder : InOrder s.values
  extra_sorted : Dict.Sorted s.extra
  extra_unknown : ∀ k ∈ Dict.keys s.extra, CompilerOption.ofName? k = none

theorem overlay_values (s t : Options) : (s.overlay t).values = overlayValues s.values t.values := rfl

theorem overlay_extra (s t : Options) : (s.overlay t).extra = Dict.overlay s.extra t.extra := rfl

theorem mem_keys {s : Options} {k : String} :
    k ∈ s.keys ↔ (∃ o ∈ s.values.map (·.1), o.name = k) ∨ k ∈ Dict.keys s.extra := by
  simp [keys]

theorem WellFormed.mem_keys_iff {s : Options} (h : s.WellFormed) {k : String} :
    k ∈ s.keys ↔ (s.setting? k).isSome := by
  rw [mem_keys]
  cases hk : CompilerOption.ofName? k with
  | none =>
      have hno : ¬ ∃ o ∈ s.values.map (·.1), o.name = k := by
        rintro ⟨o, -, rfl⟩
        simp at hk
      rw [or_iff_right hno, Dict.mem_keys_iff]
      simp [setting?, hk]
  | some o =>
      have hname := CompilerOption.name_of_ofName? hk
      have hno : k ∉ Dict.keys s.extra := fun hm => by
        rw [h.extra_unknown k hm] at hk
        cases hk
      have hiff : (∃ p ∈ s.values.map (·.1), p.name = k) ↔ o ∈ s.values.map (·.1) := by
        constructor
        · rintro ⟨p, hp, hpk⟩
          rwa [CompilerOption.name_injective (hname.trans hpk.symm)]
        · exact fun ho => ⟨o, ho, hname⟩
      have hget : s.get? o = valueIn? o s.values := rfl
      rw [or_iff_left hno, hiff, mem_values_iff]
      simp [setting?, hk, hget]

theorem mem_keys_overlay {s t : Options} {k : String} :
    k ∈ (s.overlay t).keys ↔ k ∈ s.keys ∨ k ∈ t.keys := by
  simp only [mem_keys, overlay_values, overlay_extra, mem_overlayValues, Dict.mem_keys_overlay]
  constructor
  · rintro (⟨o, ho | ho, rfl⟩ | hk | hk)
    · exact .inl (.inl ⟨o, ho, rfl⟩)
    · exact .inr (.inl ⟨o, ho, rfl⟩)
    · exact .inl (.inr hk)
    · exact .inr (.inr hk)
  · rintro ((⟨o, ho, rfl⟩ | hk) | ⟨o, ho, rfl⟩ | hk)
    · exact .inl ⟨o, .inl ho, rfl⟩
    · exact .inr (.inl hk)
    · exact .inl ⟨o, .inr ho, rfl⟩
    · exact .inr (.inr hk)

/-- Of two sets the upper one counts, under every key that it has. -/
theorem setting?_overlay {t : Options} (ht : t.WellFormed) (s : Options) (k : String) :
    (s.overlay t).setting? k = (t.setting? k).or (s.setting? k) := by
  cases hk : CompilerOption.ofName? k with
  | none =>
      simp only [setting?, hk, overlay_extra, Dict.get?_overlay ht.extra_sorted.nodup]
      cases Dict.get? t.extra k <;> rfl
  | some o =>
      have hget (s : Options) : s.get? o = valueIn? o s.values := rfl
      simp only [setting?, hk, hget, overlay_values,
        valueIn?_overlayValues ht.values_inOrder.nodup]
      cases valueIn? o t.values <;> rfl

/-! ## Making sets -/

theorem WellFormed.empty : ({} : Options).WellFormed := ⟨.nil, .nil, by simp⟩

theorem WellFormed.set {s : Options} (h : s.WellFormed) (o : CompilerOption) (v : OptionValue) :
    (s.set o v).WellFormed :=
  ⟨h.values_inOrder.insertValue o v, h.extra_sorted, h.extra_unknown⟩

theorem WellFormed.setExtra {s : Options} (h : s.WellFormed) {k : String} (v : Json)
    (hk : CompilerOption.ofName? k = none) : (s.setExtra k v).WellFormed := by
  refine ⟨h.values_inOrder, h.extra_sorted.insert k v, fun q hq => ?_⟩
  rcases Dict.mem_keys_insert.mp hq with rfl | hq
  · exact hk
  · exact h.extra_unknown q hq

theorem WellFormed.overlay {s t : Options} (hs : s.WellFormed) (ht : t.WellFormed) :
    (s.overlay t).WellFormed := by
  refine ⟨hs.values_inOrder.overlayValues _, hs.extra_sorted.overlay _, fun k hk => ?_⟩
  rcases Dict.mem_keys_overlay.mp hk with hk | hk
  · exact hs.extra_unknown k hk
  · exact ht.extra_unknown k hk

theorem WellFormed.addMember {acc : Options × List OptionError} (h : acc.1.WellFormed)
    (member : String × Json) : (addMember acc member).1.WellFormed := by
  unfold Options.addMember
  split
  · split
    · exact h.set _ _
    · exact h
  · rename_i hk
    exact h.setExtra _ hk

/-- A set that is read from JSON keeps a key as it is only if the schema does not have it. -/
theorem WellFormed.ofJson (members : Dict Json) : (Options.ofJson members).1.WellFormed := by
  have run (acc : Options × List OptionError) (h : acc.1.WellFormed) :
      (members.foldl Options.addMember acc).1.WellFormed := by
    induction members generalizing acc with
    | nil => exact h
    | cons m members ih => exact ih _ (h.addMember m)
  exact run _ .empty

theorem WellFormed.builtin : Options.builtin.WellFormed := (WellFormed.empty.set _ _).set _ _

end Options

end ScriptWorks
