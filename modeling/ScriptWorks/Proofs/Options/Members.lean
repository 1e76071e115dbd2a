import Mathlib.Data.List.Basic
import Mathlib.Data.List.Nodup
import ScriptWorks.Proofs.Options.Basic

/-!
# Options read from an object

Every member of a `compilerOptions` object becomes the value of an option, is kept as it is, or is refused
with an error. What is not refused makes up the object that is written for the set, and that object is read
as the same set.
-/

namespace ScriptWorks

/-! ## Values -/

theorem Json.eq_ofStrings {v : Json} {ss : List String} (h : v.asStrings? = some ss) :
    v = .ofStrings ss := by
  obtain ⟨items, hv, hitems⟩ := Option.bind_eq_some_iff.mp h
  cases v with
  | arr items =>
      cases hv
      refine congrArg Json.arr ?_
      clear h
      induction items generalizing ss with
      | nil =>
          cases hitems
          rfl
      | cons v items ih =>
          rw [List.mapM_cons] at hitems
          obtain ⟨s, hs, hitems⟩ := Option.bind_eq_some_iff.mp hitems
          obtain ⟨ss', hss, hitems⟩ := Option.bind_eq_some_iff.mp hitems
          cases hitems
          cases v with
          | str x =>
              cases hs
              rw [ih hss]
              rfl
          | _ => cases hs
  | _ => cases hv

namespace CompilerOption

variable {o : CompilerOption} {v : Json}

/-- A value that is read is written as it was. -/
theorem toJson_of_readValue {w : OptionValue} (h : o.readValue v = .ok w) : w.toJson = v := by
  unfold readValue at h
  cases hkind : o.kind with
  | bool =>
      rw [hkind] at h
      cases v with
      | bool b =>
          cases h
          rfl
      | _ => cases h
  | path =>
      rw [hkind] at h
      cases v with
      | str s =>
          cases h
          rfl
      | _ => cases h
  | word allowed =>
      rw [hkind] at h
      cases v with
      | str s =>
          dsimp only [Json.asString?] at h
          split at h
          · cases h
            rfl
          · cases h
      | _ => cases h
  | list =>
      rw [hkind] at h
      dsimp only at h
      split at h
      · rename_i items hitems
        cases h
        exact (Json.eq_ofStrings hitems).symm
      · cases h

/-- An error names the option whose value is refused. -/
theorem option_of_readValue {e : OptionError} (h : o.readValue v = .error e) : e.option = o := by
  unfold readValue at h
  repeat' split at h
  all_goals first | cases h; rfl | cases h

end CompilerOption

namespace Options

/-! ## Members -/

variable {m : String × Json} {members : Dict Json} {s : Options} {k : String}

/-- The error for a member whose value is refused. -/
def refusal? (m : String × Json) : Option OptionError :=
  match CompilerOption.ofName? m.1 with
  | some o =>
    match o.readValue m.2 with
    | .ok _ => none
    | .error e => some e
  | none => none

/-- What a set says once it has a member. -/
def readSetting? (m : String × Json) : Option Setting :=
  match CompilerOption.ofName? m.1 with
  | some o => (o.readValue m.2).toOption.map .option
  | none => some (.extra m.2)

def Setting.toJson : Setting → Json
  | .option v => v.toJson
  | .extra v => v

theorem refusal?_eq_some_iff {e : OptionError} :
    refusal? m = some e ↔ ∃ o : CompilerOption, o.name = m.1 ∧ o.readValue m.2 = .error e := by
  unfold refusal?
  constructor
  · intro h
    split at h
    · rename_i o ho
      split at h
      · cases h
      · rename_i he
        cases h
        exact ⟨o, CompilerOption.name_of_ofName? ho, he⟩
    · cases h
  · rintro ⟨o, ho, he⟩
    rw [← ho, CompilerOption.ofName?_name]
    simp only [he]

theorem name_of_refusal? {e : OptionError} (h : refusal? m = some e) : e.option.name = m.1 := by
  obtain ⟨o, ho, he⟩ := refusal?_eq_some_iff.mp h
  rw [CompilerOption.option_of_readValue he, ho]

/-- A member is refused, or the set says what it says. -/
theorem toJson_readSetting? (m : String × Json) :
    (readSetting? m).map Setting.toJson = if (refusal? m).isNone then some m.2 else none := by
  unfold readSetting? refusal?
  cases CompilerOption.ofName? m.1 with
  | none => rfl
  | some o =>
      cases hv : o.readValue m.2 with
      | error e => simp [hv, Except.toOption]
      | ok w => simp [hv, Except.toOption, Setting.toJson, CompilerOption.toJson_of_readValue hv]

/-- The set with a member, as far as it is not refused. -/
def store (s : Options) (m : String × Json) : Options := (addMember (s, []) m).1

theorem addMember_eq (acc : Options × List OptionError) (m : String × Json) :
    addMember acc m = (store acc.1 m, acc.2 ++ (refusal? m).toList) := by
  unfold store addMember refusal?
  cases CompilerOption.ofName? m.1 with
  | none => simp
  | some o => cases hv : o.readValue m.2 <;> simp [hv]

theorem store_of_refusal? (h : (refusal? m).isNone = false) (s : Options) : store s m = s := by
  obtain ⟨e, he⟩ := Option.isSome_iff_exists.mp (by simpa using h)
  obtain ⟨o, ho, he⟩ := refusal?_eq_some_iff.mp he
  unfold store addMember
  rw [← ho, CompilerOption.ofName?_name]
  simp only [he]

theorem setting?_set (s : Options) (o : CompilerOption) (v : OptionValue) (k : String) :
    (s.set o v).setting? k = if o.name = k then some (.option v) else s.setting? k := by
  unfold setting?
  cases hk : CompilerOption.ofName? k with
  | none =>
      have hne : o.name ≠ k := by
        rintro rfl
        simp at hk
      rw [if_neg hne]
      rfl
  | some q =>
      have hget : (s.set o v).get? q = if o = q then some v else s.get? q :=
        valueIn?_insertValue o v s.values q
      have hname := CompilerOption.name_of_ofName? hk
      have hiff : o = q ↔ o.name = k := by
        rw [← hname]
        exact ⟨congrArg _, CompilerOption.name_injective⟩
      simp only [hget, hiff]
      split <;> rfl

theorem setting?_setExtra (s : Options) {q : String} (hq : CompilerOption.ofName? q = none) (v : Json)
    (k : String) :
    (s.setExtra q v).setting? k = if q = k then some (.extra v) else s.setting? k := by
  unfold setting?
  cases hk : CompilerOption.ofName? k with
  | none =>
      simp only [setExtra, Dict.get?_insert]
      by_cases hqk : q = k <;> simp [hqk]
  | some o =>
      have hne : q ≠ k := by
        rintro rfl
        rw [hq] at hk
        cases hk
      rw [if_neg hne]
      rfl

theorem setting?_store (s : Options) (m : String × Json) (k : String) :
    (store s m).setting? k =
      if m.1 = k then (readSetting? m).or (s.setting? k) else s.setting? k := by
  unfold store addMember readSetting?
  cases hm : CompilerOption.ofName? m.1 with
  | none => exact setting?_setExtra s hm m.2 k
  | some o =>
      cases hv : o.readValue m.2 with
      | error e => simp [hv, Except.toOption]
      | ok w =>
          rw [← CompilerOption.name_of_ofName? hm]
          simpa [hv, Except.toOption] using setting?_set s o w k

/-! ## Objects -/

theorem foldl_addMember_eq (members : Dict Json) (acc : Options × List OptionError) :
    members.foldl addMember acc = (members.foldl store acc.1, acc.2 ++ members.filterMap refusal?) := by
  induction members generalizing acc with
  | nil => simp
  | cons m members ih =>
      rw [List.foldl_cons, ih, addMember_eq, List.foldl_cons, List.append_assoc]
      cases hm : refusal? m <;> simp [hm]

theorem ofJson_eq (members : Dict Json) :
    ofJson members = (members.foldl store {}, members.filterMap refusal?) := by
  rw [ofJson, foldl_addMember_eq, List.nil_append]

theorem setting?_foldl_store (h : (Dict.keys members).Nodup) (s : Options) (k : String) :
    (members.foldl store s).setting? k =
      ((Dict.get? members k).bind fun v => readSetting? (k, v)).or (s.setting? k) := by
  induction members generalizing s with
  | nil => simp
  | cons m members ih =>
      obtain ⟨hm, hms⟩ := List.nodup_cons.mp h
      rw [List.foldl_cons, ih hms, setting?_store, Dict.get?_cons]
      by_cases hk : m.1 = k
      · have hnone : Dict.get? members k = none := Dict.get?_eq_none_iff.mpr (hk ▸ hm)
        rw [hnone, if_pos hk, if_pos hk, ← hk]
        rfl
      · rw [if_neg hk, if_neg hk]

/-- A set that is read says of every key what the member of that key says. -/
theorem setting?_ofJson (h : (Dict.keys members).Nodup) (k : String) :
    (ofJson members).1.setting? k = (Dict.get? members k).bind fun v => readSetting? (k, v) := by
  have hempty : ({} : Options).setting? k = none := by
    unfold setting?
    split <;> rfl
  rw [ofJson_eq, setting?_foldl_store h, hempty, Option.or_none]

/-! ## Objects that are written -/

/-- The members for values of the schema. -/
def written (vs : List (CompilerOption × OptionValue)) : Dict Json :=
  vs.map fun (o, v) => (o.name, v.toJson)

theorem keys_written (vs : List (CompilerOption × OptionValue)) :
    Dict.keys (written vs) = (vs.map (·.1)).map CompilerOption.name := by
  simp [Dict.keys, written]

theorem get?_written (vs : List (CompilerOption × OptionValue)) (k : String) :
    Dict.get? (written vs) k =
      (CompilerOption.ofName? k).bind fun o => (valueIn? o vs).map OptionValue.toJson := by
  induction vs with
  | nil => cases CompilerOption.ofName? k <;> rfl
  | cons p vs ih =>
      have step : written (p :: vs) = (p.1.name, p.2.toJson) :: written vs := rfl
      rw [step, Dict.get?_cons, ih]
      cases hk : CompilerOption.ofName? k with
      | none =>
          have hne : p.1.name ≠ k := by
            rintro rfl
            simp at hk
          rw [if_neg hne]
          rfl
      | some o =>
          have hiff : p.1.name = k ↔ p.1 = o := by
            rw [← CompilerOption.name_of_ofName? hk]
            exact ⟨CompilerOption.name_injective, congrArg _⟩
          simp only [hiff, Option.bind_some, valueIn?_cons]
          split <;> rfl

theorem get?_toJson (h : s.WellFormed) (k : String) :
    Dict.get? s.toJson k = (s.setting? k).map Setting.toJson := by
  have hwritten : (Dict.keys (written s.values)).Nodup := by
    rw [keys_written]
    exact h.values_inOrder.nodup.map fun _ _ => CompilerOption.name_injective
  have hget : Dict.get? s.toJson k = (Dict.get? s.extra k).or (Dict.get? (written s.values) k) := by
    rw [toJson, Dict.get?_overlay h.extra_sorted.nodup]
    exact congrArg _ (Dict.get?_ofList hwritten k)
  rw [hget, get?_written]
  unfold setting?
  cases hk : CompilerOption.ofName? k with
  | none => simp [Setting.toJson, Function.comp_def]
  | some o =>
      have hextra : Dict.get? s.extra k = none := Dict.get?_eq_none_iff.mpr fun hmem => by
        rw [h.extra_unknown k hmem] at hk
        cases hk
      have hvalue : s.get? o = valueIn? o s.values := rfl
      simp [hextra, hvalue, Setting.toJson, Function.comp_def]

theorem sorted_toJson (s : Options) : Dict.Sorted s.toJson :=
  Dict.Sorted.overlay (Dict.Sorted.overlay .nil _) _

/-- The object that is written is the one that was read, without the members that were refused. -/
theorem toJson_ofJson (h : members.Sorted) :
    (ofJson members).1.toJson = members.filter fun m => (refusal? m).isNone := by
  refine (sorted_toJson _).ext (h.filter _) fun k => ?_
  rw [get?_toJson (.ofJson members), setting?_ofJson h.nodup, Dict.get?_filter_entries h.nodup]
  cases Dict.get? members k with
  | none => rfl
  | some v =>
      rw [Option.bind_some, toJson_readSetting?, Option.filter_some]

/-- Members that are refused leave no trace in the set. -/
theorem ofJson_filter (members : Dict Json) :
    ofJson (members.filter fun m => (refusal? m).isNone) = ((ofJson members).1, []) := by
  have hnone : (members.filter fun m => (refusal? m).isNone).filterMap refusal? = [] :=
    List.filterMap_eq_nil_iff.mpr fun m hm => by simpa using (List.mem_filter.mp hm).2
  have hset (s : Options) :
      (members.filter fun m => (refusal? m).isNone).foldl store s = members.foldl store s := by
    rw [List.foldl_filter]
    refine List.foldl_ext _ _ _ fun s m hm => ?_
    split
    · rfl
    · rename_i hrefused
      exact (store_of_refusal? (Bool.eq_false_iff.mpr hrefused) s).symm
  rw [ofJson_eq, ofJson_eq, hnone, hset]

/-! ## Members and errors -/

/-- The errors name keys of the object, each of them once. -/
theorem names_refusals (members : Dict Json) :
    ((members.filterMap refusal?).map (·.option.name)).Sublist (Dict.keys members) := by
  induction members with
  | nil => exact .slnil
  | cons m members ih =>
      rw [List.filterMap_cons]
      split
      · exact ih.cons _
      · rename_i e he
        rw [List.map_cons, name_of_refusal? he]
        exact ih.cons_cons _

theorem mem_refusals_iff (h : (Dict.keys members).Nodup) {e : OptionError} :
    e ∈ members.filterMap refusal? ↔
      ∃ v, Dict.get? members e.option.name = some v ∧ e.option.readValue v = .error e := by
  simp only [Dict.get?_eq_some_iff h, List.mem_filterMap, refusal?_eq_some_iff]
  constructor
  · rintro ⟨m, hm, o, ho, he⟩
    obtain rfl := CompilerOption.option_of_readValue he
    exact ⟨m.2, ho ▸ hm, he⟩
  · rintro ⟨v, hv, he⟩
    exact ⟨_, hv, _, rfl, he⟩

theorem isNone_refusal?_iff (h : (Dict.keys members).Nodup) {m : String × Json} (hm : m ∈ members) :
    (refusal? m).isNone ↔ m.1 ∉ (members.filterMap refusal?).map (·.option.name) := by
  rw [Option.isNone_iff_eq_none, Option.eq_none_iff_forall_not_mem]
  constructor
  · intro hnone hname
    obtain ⟨e, he, hname⟩ := List.mem_map.mp hname
    obtain ⟨v, hv, hread⟩ := (mem_refusals_iff h).mp he
    have hsame : some m.2 = some v := by
      rw [← hv, hname]
      exact ((Dict.get?_eq_some_iff h).mpr hm).symm
    cases hsame
    exact hnone e (refusal?_eq_some_iff.mpr ⟨_, hname, hread⟩)
  · intro hname e he
    exact hname (List.mem_map.mpr ⟨e, List.mem_filterMap.mpr ⟨m, hm, he⟩, name_of_refusal? he⟩)

/-- Where a member of an object is, once the object is read: it is the value of an option, it is kept
as it is, or there is an error for it, and it is nowhere else. -/
inductive Placed (s : Options) (errors : List OptionError) : String → Json → Prop where
  | value {o : CompilerOption} {v : Json} {w : OptionValue} (hread : o.readValue v = .ok w)
      (hvalue : s.get? o = some w) (hextra : o.name ∉ Dict.keys s.extra)
      (herrors : ∀ e ∈ errors, e.option ≠ o) : Placed s errors o.name v
  | extra {k : String} {v : Json} (hextra : Dict.get? s.extra k = some v)
      (hunknown : ∀ o : CompilerOption, o.name ≠ k) : Placed s errors k v
  | refused {o : CompilerOption} {v : Json} {e : OptionError} (hread : o.readValue v = .error e)
      (herror : e ∈ errors) (hvalue : s.get? o = none) (hextra : o.name ∉ Dict.keys s.extra) :
      Placed s errors o.name v

theorem placed_of_get? (h : (Dict.keys members).Nodup) {k : String} {v : Json}
    (hv : Dict.get? members k = some v) :
    Placed (ofJson members).1 (members.filterMap refusal?) k v := by
  have hsetting := setting?_ofJson h k
  rw [hv, Option.bind_some] at hsetting
  have hwell := WellFormed.ofJson members
  generalize (ofJson members).1 = s at hsetting hwell ⊢
  unfold readSetting? setting? at hsetting
  cases hk : CompilerOption.ofName? k with
  | none =>
      have hunknown (o : CompilerOption) : o.name ≠ k := by
        rintro rfl
        simp at hk
      simp only [hk, Option.map_eq_some_iff] at hsetting
      obtain ⟨_, hextra, ⟨⟩⟩ := hsetting
      exact .extra hextra hunknown
  | some o =>
      obtain rfl := CompilerOption.name_of_ofName? hk
      have hextra : o.name ∉ Dict.keys s.extra := fun hmem => by
        rw [hwell.extra_unknown _ hmem] at hk
        cases hk
      simp only [hk] at hsetting
      cases hread : o.readValue v with
      | ok w =>
          rw [hread] at hsetting
          obtain ⟨_, hvalue, ⟨⟩⟩ := Option.map_eq_some_iff.mp hsetting
          refine .value hread hvalue hextra fun e he hoption => ?_
          obtain ⟨v', hv', hread'⟩ := (mem_refusals_iff h).mp he
          rw [hoption, hv] at hv'
          cases hv'
          rw [hoption, hread] at hread'
          cases hread'
      | error e =>
          rw [hread] at hsetting
          have herror : e ∈ members.filterMap refusal? := (mem_refusals_iff h).mpr (by
            rw [CompilerOption.option_of_readValue hread]
            exact ⟨v, hv, hread⟩)
          exact .refused hread herror (Option.map_eq_none_iff.mp hsetting) hextra

/-- Every member of an object is the value of an option, is kept, or is refused with the one error for
it. The object that is written has the members that were not refused as they were, and is read as the same
set, without errors. -/
theorem members_read_and_written (members : Dict Json) (h : members.Sorted) :
    match ofJson members with
    | (s, errors) =>
      (∀ k v, Dict.get? members k = some v → Placed s errors k v) ∧
        (∀ e ∈ errors, ∃ v, Dict.get? members e.option.name = some v ∧
          e.option.readValue v = .error e) ∧
        (errors.map OptionError.option).Nodup ∧
        s.toJson = (members.filter fun m => m.1 ∉ errors.map (·.option.name)) ∧
        ofJson s.toJson = (s, []) := by
  have hkeys := h.nodup
  have hwritten := toJson_ofJson h
  have hread := ofJson_filter members
  rw [← hwritten] at hread
  have hplaced {k : String} {v : Json} (hv : Dict.get? members k = some v) := placed_of_get? hkeys hv
  have hoptions : ((members.filterMap refusal?).map OptionError.option).Nodup := by
    refine List.Nodup.of_map CompilerOption.name ?_
    rw [List.map_map]
    exact hkeys.sublist (names_refusals members)
  have hkept : (members.filter fun m => (refusal? m).isNone) =
      members.filter fun m => m.1 ∉ (members.filterMap refusal?).map (·.option.name) :=
    List.filter_congr fun m hm => by
      rw [Bool.eq_iff_iff, isNone_refusal?_iff hkeys hm, decide_eq_true_iff]
  have hresult := ofJson_eq members
  rw [hresult] at hwritten hread hplaced ⊢
  exact ⟨fun _ _ => hplaced, fun _ => (mem_refusals_iff hkeys).mp, hoptions, hwritten.trans hkept, hread⟩

/-- Two values of the schema, a key outside it, and a value that is refused. -/
theorem members_read_and_written_of_strict :
    let members : Dict Json := [("lib", .ofStrings ["DOM"]), ("plugins", .arr [.null]),
      ("strict", .str "yes"), ("target", .str "es5")]
    members.Sorted ∧ ∃ s, ofJson members = (s, [.wrongType .strict "boolean"]) ∧
      s.toJson = members.filter (·.1 ≠ "strict") ∧ ofJson s.toJson = (s, []) ∧
      Placed s [.wrongType .strict "boolean"] "plugins" (.arr [.null]) := by
  intro members
  have h : members.Sorted := by decide
  have hmembers := members_read_and_written members h
  have herrors : (ofJson members).2 = [.wrongType .strict "boolean"] := by decide
  cases hread : ofJson members with
  | mk s errors =>
      rw [hread] at hmembers herrors
      cases herrors
      obtain ⟨hplaced, -, -, hwritten, hagain⟩ := hmembers
      exact ⟨h, s, rfl, hwritten.trans rfl, hagain, hplaced _ _ rfl⟩

end Options

end ScriptWorks
