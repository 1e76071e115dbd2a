import ScriptWorks.Proofs.Config.Accepted
import ScriptWorks.Proofs.Config.Chain
import ScriptWorks.Proofs.Manager

/-!
# Files that can be updated

A file that is read as a configuration can be updated, unless one of the members that are read is `null`:
for the reader such a member is absent, and the check before a write refuses it.
-/

namespace ScriptWorks

namespace Manager

variable {root settings options : Dict Json} {key : String}

/-! ## Changed options -/

theorem mem_foldl_change {m : String × Json} (h : m ∈ settings.foldl change options) :
    m ∈ options ∨ m ∈ settings ∧ m.2 ≠ .null := by
  induction settings generalizing options with
  | nil => exact .inl h
  | cons s settings ih =>
      rcases ih h with hm | ⟨hm, hnull⟩
      · unfold change at hm
        split at hm
        · exact .inl (List.mem_of_mem_filter hm)
        · rename_i hnull
          rcases Dict.mem_of_mem_insert hm with rfl | hm
          · exact .inr ⟨List.mem_cons_self, hnull⟩
          · exact .inl hm
      · exact .inr ⟨List.mem_cons_of_mem _ hm, hnull⟩

/-- Where options and settings are all right, the changed options are. -/
theorem optionsIssues_foldl_change (hoptions : ∀ m ∈ options, optionIssue? m = none)
    (hsettings : ∀ m ∈ settings, m.2 ≠ .null → optionIssue? m = none) :
    optionsIssues (some (.obj (settings.foldl change options))) = [] :=
  List.filterMap_eq_nil_iff.mpr fun m hm =>
    (mem_foldl_change hm).elim (hoptions m) fun ⟨hm, hnull⟩ => hsettings m hm hnull

/-! ## Members -/

theorem listIssues_eq_nil_iff {ss : Option (List String)} (h : Config.stringList root key = .ok ss) :
    listIssues root key = [] ↔ Dict.get? root key ≠ some .null := by
  unfold Config.stringList at h
  unfold listIssues
  split at h
  · simp [*]
  · simp [*, Json.asStrings?, Json.asArray?]
  · rename_i v hnull hv
    split at h
    · rename_i hss
      simpa [hv, hss] using hnull
    · cases h

theorem extendsIssues_eq_nil_iff {base : Option String} (h : Config.extendsMember root = .ok base) :
    extendsIssues (Dict.get? root "extends") = [] ↔ Dict.get? root "extends" ≠ some .null := by
  unfold Config.extendsMember at h
  split at h <;> simp_all [extendsIssues]

theorem optionsMember_eq_ok {members : Dict Json} (h : Config.optionsMember root = .ok members) :
    Dict.get? root "compilerOptions" = some .null ∨
      Dict.get? root "compilerOptions" ≠ some .null ∧
        (Dict.get? root "compilerOptions").getD (.obj []) = .obj members := by
  unfold Config.optionsMember at h
  split at h
  · cases h
    simp [*]
  · exact .inl ‹_›
  · cases h
    simp [*]
  · cases h

/-! ## Documents -/

/-- The members of a document that are read. -/
def readKeys : List String := ["compilerOptions", "include", "exclude", "files", "extends"]

/-- A document that is read passes the check after a change if none of its members is `null`. -/
theorem issues_applyOptions_eq_nil_iff {c : Config} (hroot : Config.ofMembers root = .ok c)
    (hread : (Options.ofJson c.compilerOptions).2 = [])
    (hsettings : ∀ m ∈ settings, m.2 ≠ .null → optionIssue? m = none) :
    issues (applyOptions settings (.obj root)) = [] ↔
      ∀ key ∈ readKeys, Dict.get? root key ≠ some .null := by
  obtain ⟨hoptions, hlists, hbase⟩ := Config.members_of_ofMembers hroot
  have hread : ∀ m ∈ c.compilerOptions, optionIssue? m = none := fun m hm => by
    rw [Options.ofJson_eq] at hread
    exact optionIssue?_eq_none_iff.mpr (List.filterMap_eq_nil_iff.mp hread m hm)
  rcases optionsMember_eq_ok hoptions with hnull | ⟨hnonnull, hmembers⟩
  · -- options that are `null` are no object that could be changed
    have hsame : applyOptions settings (.obj root) = .obj root := by simp [applyOptions, hnull]
    rw [hsame, issues_obj_eq_nil_iff, hnull]
    simp [optionsIssues, readKeys, hnull]
  · have hafter : applyOptions settings (.obj root) = .obj (Dict.insert root "compilerOptions"
        (.obj (settings.foldl change c.compilerOptions))) := by simp only [applyOptions, hmembers]
    have hvalid := optionsIssues_foldl_change hread hsettings
    have hother {key : String} (hkey : "compilerOptions" ≠ key) (v : Json) :
        Dict.get? (Dict.insert root "compilerOptions" v) key = Dict.get? root key := by
      rw [Dict.get?_insert, if_neg hkey]
    have hlist (key : String) (hkey : key ∈ ["include", "exclude", "files"]) (v : Json) :
        listIssues (Dict.insert root "compilerOptions" v) key = [] ↔
          Dict.get? root key ≠ some .null := by
      obtain ⟨ss, hss⟩ := hlists key hkey
      have hne : "compilerOptions" ≠ key := by
        rintro rfl
        simp at hkey
      rw [← listIssues_eq_nil_iff hss, listIssues, listIssues, hother hne]
    rw [hafter, issues_obj_eq_nil_iff, Dict.get?_insert, if_pos rfl, hother (by decide),
      extendsIssues_eq_nil_iff hbase, forall₂_congr fun key hkey => hlist key hkey _]
    simp [hvalid, hnonnull, readKeys, and_assoc]

/-! ## Files -/

section

variable {ω : Type} [FileSystem ω] {w : ω} {p path : Path} {fileName text : String} {config : Json}
  {c : Config}

theorem write_refused_iff :
    (∃ found, (write w p config).1 = .error (.invalidConfig found)) ↔ issues config ≠ [] := by
  unfold write
  split
  · rename_i hvalid
    split <;> simp [hvalid]
  · rename_i hfound
    simpa using hfound

/-- Of the files that are read as a configuration, with options and settings that are accepted, an update
refuses those in which a member that is read is `null`, and no others. -/
theorem readable_configs_are_updated (hfile : FileSystem.isFile w (configPath w fileName path) = true)
    (htext : FileSystem.readText w (configPath w fileName path) = .ok text)
    (hparse : Config.parse text = .ok c) (hread : (Options.ofJson c.compilerOptions).2 = [])
    (hsettings : ∀ (o : CompilerOption) v, (o.name, v) ∈ settings → v ≠ .null →
      ∃ value, o.readValue v = .ok value) :
    ∃ root, Jsonc.parse text = .ok (.obj root) ∧
      ((∃ found, (update w fileName path settings).1 = .error (.invalidConfig found)) ↔
        ∃ key ∈ readKeys, Dict.get? root key = some .null) := by
  obtain ⟨root, hroot, hmembers⟩ := Config.exists_of_parse hparse
  refine ⟨root, hroot, ?_⟩
  have hvalid (m : String × Json) (hm : m ∈ settings) (hnull : m.2 ≠ .null) : optionIssue? m = none := by
    rw [optionIssue?_eq_none_iff, Option.eq_none_iff_forall_not_mem]
    intro e he
    obtain ⟨o, ho, hrefused⟩ := Options.refusal?_eq_some_iff.mp he
    obtain ⟨value, hvalue⟩ := hsettings o m.2 (ho ▸ hm) hnull
    rw [hvalue] at hrefused
    cases hrefused
  rw [update_eq hfile htext hroot, write_refused_iff, ne_eq,
    issues_applyOptions_eq_nil_iff hmembers hread hvalid]
  simp

end

/-- A file with a comment and a comma too many, in which one option is set and another taken away. -/
theorem readable_configs_are_updated_of_comment :
    let text := "\x7b\"include\": [\"a\",], /* b */ \"compilerOptions\": \x7b\"outDir\": \"c\"\x7d\x7d"
    let w : Rehearsal := { memory := { files := [(⟨"/p/tsconfig.json"⟩, text)] } }
    let settings : Dict Json := [("outDir", .null), ("strict", .bool true)]
    (∃ c, Config.parse text = .ok c ∧ (Options.ofJson c.compilerOptions).2 = []) ∧
      (update w "tsconfig.json" ⟨"/p"⟩ settings).1.isOk = true ∧
      ∃ root, Jsonc.parse text = .ok (.obj root) ∧
        ∀ key ∈ readKeys, Dict.get? root key ≠ some .null := by
  intro text w settings
  have hparse : (Config.parse text).toOption.map (fun c => (Options.ofJson c.compilerOptions).2) =
      some [] := by decide +kernel
  obtain ⟨c, hc, hread⟩ := Option.map_eq_some_iff.mp hparse
  have hc := toOption_eq_some.mp hc
  have htext : (FileSystem.readText w (configPath w "tsconfig.json" ⟨"/p"⟩)).toOption = some text := by
    decide +kernel
  have hsettings (o : CompilerOption) (v : Json) (hm : (o.name, v) ∈ settings) (hnull : v ≠ .null) :
      ∃ value, o.readValue v = .ok value := by
    have hset : o.name = "strict" ∧ v = .bool true := by
      rcases List.mem_cons.mp hm with heq | hm
      · exact absurd (Prod.mk.inj heq).2 hnull
      · exact Prod.mk.inj (List.mem_singleton.mp hm)
    obtain rfl : o = .strict := CompilerOption.name_injective hset.1
    exact ⟨.bool true, by rw [hset.2]; rfl⟩
  have hok : (update w "tsconfig.json" ⟨"/p"⟩ settings).1.isOk = true := by decide +kernel
  obtain ⟨root, hroot, hiff⟩ := readable_configs_are_updated (by decide +kernel)
    (toOption_eq_some.mp htext) hc hread hsettings
  refine ⟨⟨c, hc, hread⟩, hok, root, hroot, fun key hkey hnull => ?_⟩
  obtain ⟨found, hfound⟩ := hiff.mpr ⟨key, hkey, hnull⟩
  rw [hfound] at hok
  cases hok

/-- A file that is read without errors, and in which no option can be set. -/
theorem readable_config_with_null_not_updated :
    let text := "\x7b\"include\": null\x7d"
    let w : Rehearsal := { memory := { files := [(⟨"/p/tsconfig.json"⟩, text)] } }
    (∃ c, Config.parse text = .ok c ∧ (Options.ofJson c.compilerOptions).2 = []) ∧
      CompilerOption.strict.readValue (.bool true) = .ok (.bool true) ∧
      ∃ found, (update w "tsconfig.json" ⟨"/p"⟩ [("strict", .bool true)]).1 =
        .error (.invalidConfig found) := by
  intro text w
  have hparse : (Config.parse text).toOption.map (fun c => (Options.ofJson c.compilerOptions).2) =
      some [] := by decide +kernel
  obtain ⟨c, hc, hread⟩ := Option.map_eq_some_iff.mp hparse
  have hrefused : (update w "tsconfig.json" ⟨"/p"⟩ [("strict", .bool true)]).1.map (fun _ => ()) =
      .error (.invalidConfig [⟨"include", "must be an array of strings"⟩]) := by decide +kernel
  refine ⟨⟨c, toOption_eq_some.mp hc, hread⟩, rfl, ?_⟩
  cases hresult : (update w "tsconfig.json" ⟨"/p"⟩ [("strict", .bool true)]).1 with
  | ok r =>
      rw [hresult] at hrefused
      cases hrefused
  | error failure =>
      rw [hresult] at hrefused
      cases hrefused
      exact ⟨_, rfl⟩

end Manager

end ScriptWorks
