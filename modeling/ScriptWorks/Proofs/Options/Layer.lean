import ScriptWorks.Proofs.Options.Basic

/-!
# Which layer wins

The merged set takes the value of every key from the highest layer that has the key, and the table of
origins, which is made apart from the values, names that layer.
-/

namespace ScriptWorks

def Origin.height : Origin → Nat
  | .default => 0
  | .config => 1
  | .request => 2

namespace Options

variable {defaults config request : Options}

def layersOf (defaults config request : Options) : Origin → Options
  | .default => defaults
  | .config => config
  | .request => request

/-- The layer is the highest one that has the key. -/
def Prevails (layers : Origin → Options) (g : Origin) (k : String) : Prop :=
  k ∈ (layers g).keys ∧ ∀ g' : Origin, g.height < g'.height → k ∉ (layers g').keys

/-! ## Origins -/

theorem get?_markOrigin (g : Origin) (s : Options) (origins : Dict Origin) (k : String) :
    Dict.get? (markOrigin g s origins) k = if k ∈ s.keys then some g else Dict.get? origins k := by
  have run (ks : List String) (origins : Dict Origin) :
      Dict.get? (ks.foldl (fun d k => Dict.insert d k g) origins) k =
        if k ∈ ks then some g else Dict.get? origins k := by
    induction ks generalizing origins with
    | nil => simp
    | cons q ks ih =>
        rw [List.foldl_cons, ih, Dict.get?_insert]
        by_cases hks : k ∈ ks
        · simp [hks]
        · by_cases hq : q = k
          · simp [hks, hq]
          · simp [hks, hq, Ne.symm hq]
  exact run s.keys origins

theorem origin?_layer (defaults config request : Options) (k : String) :
    (layer defaults config request).origin? k =
      if k ∈ request.keys then some .request
      else if k ∈ config.keys then some .config
      else if k ∈ defaults.keys then some .default
      else none := by
  simp only [Layered.origin?, layer, get?_markOrigin, Dict.get?_nil]

/-- The origin of a key is the layer that prevails. -/
theorem origin?_eq_some_iff {g : Origin} {k : String} :
    (layer defaults config request).origin? k = some g ↔
      Prevails (layersOf defaults config request) g k := by
  rw [origin?_layer]
  constructor
  · intro h
    split at h
    · rename_i hr
      cases h
      exact ⟨hr, fun g' hlt => by cases g' <;> simp [Origin.height] at hlt⟩
    · rename_i hr
      split at h
      · rename_i hc
        cases h
        refine ⟨hc, fun g' hlt => ?_⟩
        cases g' with
        | request => exact hr
        | _ => simp [Origin.height] at hlt
      · rename_i hc
        split at h
        · rename_i hd
          cases h
          refine ⟨hd, fun g' hlt => ?_⟩
          cases g' with
          | request => exact hr
          | config => exact hc
          | default => simp [Origin.height] at hlt
        · cases h
  · rintro ⟨hg, above⟩
    cases g with
    | request => exact if_pos hg
    | config =>
        have hr : k ∉ request.keys := above .request (by decide)
        rw [if_neg hr]; exact if_pos hg
    | default =>
        have hr : k ∉ request.keys := above .request (by decide)
        have hc : k ∉ config.keys := above .config (by decide)
        rw [if_neg hr, if_neg hc]; exact if_pos hg

/-! ## Keys and values -/

theorem mem_keys_layer {k : String} :
    k ∈ (layer defaults config request).options.keys ↔
      ∃ g, k ∈ (layersOf defaults config request g).keys := by
  simp only [layer, mem_keys_overlay]
  constructor
  · rintro ((h | h) | h)
    · exact ⟨.default, h⟩
    · exact ⟨.config, h⟩
    · exact ⟨.request, h⟩
  · rintro ⟨g, h⟩
    cases g with
    | default => exact .inl (.inl h)
    | config => exact .inl (.inr h)
    | request => exact .inr h

/-- There is an origin for every key of the merged set, and for no other. -/
theorem mem_origins_iff {k : String} :
    k ∈ Dict.keys (layer defaults config request).origins ↔
      k ∈ (layer defaults config request).options.keys := by
  have horigin : Dict.get? (layer defaults config request).origins k =
      (layer defaults config request).origin? k := rfl
  rw [Dict.mem_keys_iff, horigin, origin?_layer]
  simp only [layer, mem_keys_overlay]
  by_cases hr : k ∈ request.keys
  · simp [hr]
  · by_cases hc : k ∈ config.keys
    · simp [hr, hc]
    · by_cases hd : k ∈ defaults.keys <;> simp [hr, hc, hd]

theorem WellFormed.layer (hd : defaults.WellFormed) (hc : config.WellFormed)
    (hr : request.WellFormed) : (layer defaults config request).options.WellFormed :=
  (hd.overlay hc).overlay hr

theorem setting?_layer (hc : config.WellFormed) (hr : request.WellFormed) (k : String) :
    (layer defaults config request).options.setting? k =
      (request.setting? k).or ((config.setting? k).or (defaults.setting? k)) := by
  rw [layer, setting?_overlay hr, setting?_overlay hc]

theorem WellFormed.setting?_of_notMem {s : Options} (h : s.WellFormed) {k : String}
    (hk : k ∉ s.keys) : s.setting? k = none := by
  rw [h.mem_keys_iff] at hk
  exact Option.not_isSome_iff_eq_none.mp hk

/-- The merged set says of a key what the layer says that prevails. -/
theorem setting?_of_prevails (hd : defaults.WellFormed) (hc : config.WellFormed)
    (hr : request.WellFormed) {g : Origin} {k : String}
    (h : Prevails (layersOf defaults config request) g k) :
    ∃ v, (layersOf defaults config request g).setting? k = some v ∧
      (layer defaults config request).options.setting? k = some v := by
  obtain ⟨hg, above⟩ := h
  rw [setting?_layer hc hr]
  cases g with
  | request =>
      obtain ⟨v, hv⟩ := Option.isSome_iff_exists.mp (hr.mem_keys_iff.mp hg)
      exact ⟨v, hv, by simp [hv]⟩
  | config =>
      obtain ⟨v, hv⟩ := Option.isSome_iff_exists.mp (hc.mem_keys_iff.mp hg)
      have hnr := hr.setting?_of_notMem (above .request (by decide))
      exact ⟨v, hv, by simp [hv, hnr]⟩
  | default =>
      obtain ⟨v, hv⟩ := Option.isSome_iff_exists.mp (hd.mem_keys_iff.mp hg)
      have hnr := hr.setting?_of_notMem (above .request (by decide))
      have hnc := hc.setting?_of_notMem (above .config (by decide))
      exact ⟨v, hv, by simp [hv, hnr, hnc]⟩

end Options

end ScriptWorks
