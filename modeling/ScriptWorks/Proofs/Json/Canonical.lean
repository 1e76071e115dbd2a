import ScriptWorks.Jsonc
import ScriptWorks.Proofs.Json.Dict
import ScriptWorks.Proofs.Json.Reading

/-!
# Canonical JSON values

A value is canonical if all its objects hold their members in order, each key once. The reader gives
no other values, whatever the text repeats or in which order it comes.
-/

namespace ScriptWorks

namespace Json

/-- Every object holds its members in order of their keys, each key once. -/
inductive Canonical : Json → Prop
  | null : Canonical .null
  | bool {b} : Canonical (.bool b)
  | num {n} : Canonical (.num n)
  | str {s} : Canonical (.str s)
  | arr {items} : (∀ v ∈ items, Canonical v) → Canonical (.arr items)
  | obj {members : Dict Json} : members.Sorted → (∀ k v, Dict.get? members k = some v → Canonical v) →
      Canonical (.obj members)

def CanonicalMembers (members : Dict Json) : Prop :=
  members.Sorted ∧ ∀ k v, Dict.get? members k = some v → Canonical v

theorem CanonicalMembers.nil : CanonicalMembers [] := ⟨.nil, fun k v h => by simp at h⟩

theorem CanonicalMembers.insert {members : Dict Json} (h : CanonicalMembers members) (k : String)
    {v : Json} (hv : v.Canonical) : CanonicalMembers (Dict.insert members k v) := by
  refine ⟨h.1.insert k v, fun q u hq => ?_⟩
  rw [Dict.get?_insert] at hq
  split at hq
  · cases hq
    exact hv
  · exact h.2 q u hq

theorem canonical_obj_iff {members : Dict Json} :
    Canonical (.obj members) ↔ CanonicalMembers members :=
  ⟨fun | .obj hs hv => ⟨hs, hv⟩, fun h => .obj h.1 h.2⟩

theorem CanonicalMembers.overlay {members : Dict Json} (h : CanonicalMembers members)
    {ps : List (String × Json)} (hps : ∀ p ∈ ps, p.2.Canonical) :
    CanonicalMembers (Dict.overlay members ps) := by
  induction ps generalizing members with
  | nil => exact h
  | cons p ps ih =>
      obtain ⟨hp, hps⟩ := List.forall_mem_cons.mp hps
      exact ih (h.insert p.1 hp) hps

theorem canonical_ofMembers {ps : List (String × Json)} (hps : ∀ p ∈ ps, p.2.Canonical) :
    (ofMembers ps).Canonical := canonical_obj_iff.mpr (CanonicalMembers.nil.overlay hps)

theorem canonical_ofStrings (ss : List String) : (ofStrings ss).Canonical := by
  refine .arr fun v hv => ?_
  obtain ⟨s, -, rfl⟩ := List.mem_map.mp hv
  exact .str

/-! ## What the reader gives -/

/-- All parts of the reader give canonical values with so much fuel. -/
structure ReadsCanonical (fuel : Nat) : Prop where
  value {depth cs v r} : readValue fuel depth cs = .ok (v, r) → v.Canonical
  items {depth cs vs r} : readItems fuel depth cs = .ok (vs, r) → ∀ v ∈ vs, Canonical v
  members {depth members k cs result r} : CanonicalMembers members →
    readMembers fuel depth members k cs = .ok (result, r) → CanonicalMembers result
  embedded {depth cs v r} : readEmbedded fuel depth cs = .ok (v, r) → v.Canonical
  whole {cs v} : readWhole fuel cs = .ok v → v.Canonical

namespace ReadsCanonical

variable {fuel : Nat}

theorem value_succ (ih : ReadsCanonical fuel) {depth : Nat} {cs r : List Char} {v : Json}
    (h : ReadsValue fuel depth cs v r) : v.Canonical := by
  cases h with
  | keyword _ hk =>
      cases hk with
      | null => exact .null
      | true | false => exact .bool
  | negative | numeral => exact .num
  | string => exact .str
  | emptyList => exact .arr fun v hv => by simp at hv
  | list _ _ _ _ hvs => exact .arr (ih.items hvs)
  | emptyObject => exact canonical_obj_iff.mpr .nil
  | object _ _ _ _ _ hms => exact canonical_obj_iff.mpr (ih.members .nil hms)
  | embedded _ _ _ _ hv => exact ih.embedded hv

theorem items_succ (ih : ReadsCanonical fuel) {depth : Nat} {cs r : List Char} {vs : List Json}
    (h : ReadsItems fuel depth cs vs r) : ∀ v ∈ vs, Canonical v := by
  cases h with
  | last hv => exact List.forall_mem_singleton.mpr (ih.value hv)
  | more hv _ _ _ hvs => exact List.forall_mem_cons.mpr ⟨ih.value hv, ih.items hvs⟩

/-- The table is in order before each member is stored, so also after it. -/
theorem members_succ (ih : ReadsCanonical fuel) {depth : Nat} {members result : Dict Json}
    {k : String} {cs r : List Char} (hm : CanonicalMembers members)
    (h : ReadsMembers fuel depth members k cs result r) : CanonicalMembers result := by
  cases h with
  | last _ hv => exact hm.insert k (ih.value hv)
  | more _ hv _ _ _ hms => exact ih.members (hm.insert k (ih.value hv)) hms

end ReadsCanonical

theorem readsCanonical (fuel : Nat) : ReadsCanonical fuel := by
  induction fuel with
  | zero => exact ⟨nofun, nofun, nofun, nofun, nofun⟩
  | succ fuel ih =>
      refine ⟨fun h => ?_, fun h => ?_, fun hm h => ?_, fun h => ?_, fun h => ?_⟩
      · exact ih.value_succ (readValue_eq_ok_iff.mp h)
      · exact ih.items_succ (readItems_eq_ok_iff.mp h)
      · exact ih.members_succ hm (readMembers_eq_ok_iff.mp h)
      · obtain ⟨_, _, text, _, -, -, -, hv, -⟩ := readEmbedded_eq_ok_iff.mp h
        exact ih.whole hv
      · obtain ⟨_, hv, -⟩ := readWhole_eq_ok_iff.mp h
        exact ih.value hv

/-- The value of a JSON text is canonical. -/
theorem canonical_of_parse {text : String} {v : Json} (h : parse text = .ok v) : v.Canonical :=
  (readsCanonical _).whole (parse_eq_ok_iff.mp h)

end Json

theorem Jsonc.canonical_of_parse {text : String} {v : Json} (h : Jsonc.parse text = .ok v) :
    v.Canonical := Json.canonical_of_parse h

end ScriptWorks
