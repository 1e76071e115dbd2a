import ScriptWorks.Manager
import ScriptWorks.Proofs.FileSystem.Lawful
import ScriptWorks.Proofs.Json.Canonical

/-!
# Configuration files that are written

A configuration file is written as a whole or not at all. What is written is the document that was
there, with the given options set or taken away and nothing else changed.
-/

namespace ScriptWorks.Manager

/-! ## Changed options -/

/-- What stands under a key once the settings are applied to options. -/
def settled (settings options : Dict Json) (k : String) : Option Json :=
  match Dict.get? settings k with
  | none => Dict.get? options k
  | some .null => none
  | some v => some v

theorem get?_change (options : Dict Json) (s : String × Json) (k : String) :
    Dict.get? (change options s) k = settled [s] options k := by
  obtain ⟨q, v⟩ := s
  by_cases hq : q = k
  · cases v <;> simp [change, settled, Dict.get?_cons, Dict.get?_erase, Dict.get?_insert, hq]
  · cases v <;> simp [change, settled, Dict.get?_cons, Dict.get?_erase, Dict.get?_insert, hq]

/-- One after another, settings without double keys come to what each of them says. -/
theorem get?_foldl_change {settings : Dict Json} (hs : (Dict.keys settings).Nodup)
    (options : Dict Json) (k : String) :
    Dict.get? (settings.foldl change options) k = settled settings options k := by
  induction settings generalizing options with
  | nil => rfl
  | cons s settings ih =>
      rw [Dict.keys_cons, List.nodup_cons] at hs
      obtain ⟨hnew, hs⟩ := hs
      rw [List.foldl_cons, ih hs]
      unfold settled
      rw [Dict.get?_cons, get?_change]
      by_cases hk : s.1 = k
      · have hnone : Dict.get? settings k = none := Dict.get?_eq_none_iff.mpr (hk ▸ hnew)
        simp [hnone, hk, settled, Dict.get?_cons]
      · simp [hk, settled, Dict.get?_cons]

theorem sorted_foldl_change (settings : Dict Json) {options : Dict Json} (h : options.Sorted) :
    Dict.Sorted (settings.foldl change options) := by
  induction settings generalizing options with
  | nil => exact h
  | cons s settings ih =>
      refine ih ?_
      unfold change
      split
      · exact h.erase _
      · exact h.insert _ _

/-! ## Changed documents -/

/-- The document `after` is `before` with the settings applied to its options. -/
structure Merged (before settings after : Dict Json) : Prop where
  sorted : after.Sorted
  elsewhere : ∀ k, k ≠ "compilerOptions" → Dict.get? after k = Dict.get? before k
  options : ∃ old new : Dict Json,
    (Dict.get? before "compilerOptions").getD (.obj []) = .obj old ∧
    Dict.get? after "compilerOptions" = some (.obj new) ∧ new.Sorted ∧
    ∀ k, Dict.get? new k = settled settings old k

theorem issues_obj_eq_nil_iff {root : Dict Json} : issues (.obj root) = [] ↔
    optionsIssues (Dict.get? root "compilerOptions") = [] ∧
      (∀ key ∈ ["include", "exclude", "files"], listIssues root key = []) ∧
      extendsIssues (Dict.get? root "extends") = [] := by
  simp only [issues, List.append_eq_nil_iff, List.flatMap_eq_nil_iff, and_assoc]

theorem exists_options_of_issues {root : Dict Json} (h : issues (.obj root) = []) :
    ∃ options, (Dict.get? root "compilerOptions").getD (.obj []) = .obj options := by
  have hoptions := (issues_obj_eq_nil_iff.mp h).1
  unfold optionsIssues at hoptions
  split at hoptions
  · exact ⟨[], by simp [*]⟩
  · rename_i members hmembers
    exact ⟨members, by simp [hmembers]⟩
  · cases hoptions

theorem sorted_options {root options : Dict Json} (h : Json.Canonical (.obj root))
    (ho : (Dict.get? root "compilerOptions").getD (.obj []) = .obj options) : options.Sorted := by
  cases hget : Dict.get? root "compilerOptions" with
  | none =>
      rw [hget] at ho
      cases ho
      exact .nil
  | some v =>
      rw [hget] at ho
      cases ho
      exact (Json.canonical_obj_iff.mp ((Json.canonical_obj_iff.mp h).2 _ _ hget)).1

theorem merged_of_applyOptions {before settings : Dict Json} (hs : (Dict.keys settings).Nodup)
    (hb : Json.Canonical (.obj before)) (hvalid : issues (applyOptions settings (.obj before)) = []) :
    ∃ after, applyOptions settings (.obj before) = .obj after ∧ Merged before settings after := by
  have hsorted := (Json.canonical_obj_iff.mp hb).1
  cases ho : (Dict.get? before "compilerOptions").getD (.obj []) with
  | obj options =>
      refine ⟨Dict.insert before "compilerOptions" (.obj (settings.foldl change options)),
        by simp only [applyOptions, ho], hsorted.insert _ _, fun k hk => ?_, ?_⟩
      · rw [Dict.get?_insert, if_neg (Ne.symm hk)]
      · refine ⟨options, _, ho, by rw [Dict.get?_insert, if_pos rfl],
          sorted_foldl_change settings (sorted_options hb ho), get?_foldl_change hs options⟩
  | _ =>
      have hid : applyOptions settings (.obj before) = .obj before := by simp only [applyOptions, ho]
      rw [hid] at hvalid
      obtain ⟨options, hoptions⟩ := exists_options_of_issues hvalid
      rw [ho] at hoptions
      cases hoptions

/-! ## Files -/

section

variable {ω : Type} [FileSystem ω] {w w' : ω} {fileName : String} {path p : Path} {settings : Dict Json}
  {config : Json} {r : Written}

theorem write_eq_ok_iff : write w p config = (.ok r, w') ↔
    r = ⟨p, config⟩ ∧ issues config = [] ∧
      FileSystem.writeText w p (fileText config) = (.ok (), w') := by
  unfold write
  constructor
  · intro h
    split at h
    · split at h
      · rename_i hvalid _ _ hw
        cases h
        exact ⟨rfl, hvalid, hw⟩
      · cases h
    · cases h
  · rintro ⟨rfl, hvalid, hw⟩
    simp only [hvalid, hw]

/-- An update of a file that holds an object writes the changed document. -/
theorem update_eq {text : String} {root : Dict Json}
    (hfile : FileSystem.isFile w (configPath w fileName path) = true)
    (hread : FileSystem.readText w (configPath w fileName path) = .ok text)
    (hparse : Jsonc.parse text = .ok (.obj root)) :
    update w fileName path settings =
      write w (configPath w fileName path) (applyOptions settings (.obj root)) := by
  unfold update
  simp only [hfile, hread, hparse, Bool.not_true, Bool.false_eq_true, if_false]

theorem update_eq_ok_iff : update w fileName path settings = (.ok r, w') ↔
    FileSystem.isFile w (configPath w fileName path) = true ∧ ∃ text root,
      FileSystem.readText w (configPath w fileName path) = .ok text ∧
        Jsonc.parse text = .ok (.obj root) ∧
        write w (configPath w fileName path) (applyOptions settings (.obj root)) = (.ok r, w') := by
  constructor
  · intro h
    unfold update at h
    dsimp only at h
    split at h
    · cases h
    · rename_i hfile
      split at h
      · cases h
      · rename_i text hread
        split at h
        · cases h
        · rename_i root hparse
          exact ⟨by simpa using hfile, text, root, hread, hparse, h⟩
        · cases h
  · rintro ⟨hfile, text, root, hread, hparse, hwrite⟩
    rw [update_eq hfile hread hparse, hwrite]

end

variable {ω : Type} [FileSystem ω] [LawfulFileSystem ω] {w w' : ω}

/-- The file is the document `before` with the settings applied, and it is all that changed. -/
structure Written.IsMerged (r : Written) (before settings : Dict Json) (w w' : ω) : Prop where
  wrote : Wrote w r.path (fileText r.config) w'
  valid : issues r.config = []
  merged : ∃ after, r.config = .obj after ∧ Merged before settings after

theorem write_eq_ok {p : Path} {config : Json} {r : Written} (h : write w p config = (.ok r, w')) :
    r = ⟨p, config⟩ ∧ issues config = [] ∧ Wrote w p (fileText config) w' := by
  obtain ⟨hr, hvalid, hw⟩ := write_eq_ok_iff.mp h
  exact ⟨hr, hvalid, .of_writeText hw⟩

theorem write_eq_error {p : Path} {config : Json} {failure : Failure}
    (h : write w p config = (.error failure, w')) : SameFiles w w' := by
  unfold write at h
  split at h
  · split at h
    · cases h
    · rename_i hw
      cases h
      exact .of_writeText hw
  · cases h
    exact .refl w

theorem isMerged_of_write {p : Path} {before settings : Dict Json} {r : Written}
    (hs : (Dict.keys settings).Nodup) (hb : Json.Canonical (.obj before))
    (h : write w p (applyOptions settings (.obj before)) = (.ok r, w')) :
    r.path = p ∧ r.IsMerged before settings w w' := by
  obtain ⟨rfl, hvalid, hwrote⟩ := write_eq_ok h
  exact ⟨rfl, hwrote, hvalid, merged_of_applyOptions hs hb hvalid⟩

theorem defaultOptions_canonical : defaultOptions.Canonical := by
  refine Json.canonical_ofMembers ?_
  simp only [List.forall_mem_cons]
  exact ⟨.str, .str, .str, Json.canonical_ofStrings _, .str, .str, .bool, .bool, .bool, .bool, .bool,
    .bool, .bool, fun _ h => nomatch h⟩

theorem defaultConfig_canonical : defaultConfig.Canonical := by
  refine Json.canonical_ofMembers ?_
  simp only [List.forall_mem_cons]
  exact ⟨defaultOptions_canonical, Json.canonical_ofStrings _, Json.canonical_ofStrings _,
    fun _ h => nomatch h⟩

/-- Creating and updating a configuration file changes no file when it fails. When it succeeds, it has
changed one file, which is the text of a document without issues: the default or the earlier document
with exactly the given options set or taken away. -/
theorem config_writes_are_exact {ω : Type} [FileSystem ω] [LawfulFileSystem ω] (w : ω)
    (fileName : String) (settings : Dict Json) (hs : settings.Sorted) :
    (∀ dir, match create w fileName dir settings with
      | (.error _, w') => SameFiles w w'
      | (.ok r, w') => r.path = dir.child fileName ∧ FileSystem.pathExists w r.path = false ∧
          ∃ before, defaultConfig = .obj before ∧ r.IsMerged before settings w w') ∧
    (∀ path, match update w fileName path settings with
      | (.error _, w') => SameFiles w w'
      | (.ok r, w') => r.path = configPath w fileName path ∧ FileSystem.isFile w r.path = true ∧
          ∃ text before, FileSystem.readText w r.path = .ok text ∧
            Jsonc.parse text = .ok (.obj before) ∧ r.IsMerged before settings w w') := by
  constructor
  · intro dir
    cases hresult : create w fileName dir settings with
    | mk result w' =>
        unfold create at hresult
        cases hexists : FileSystem.pathExists w (dir.child fileName) with
        | true =>
            simp only [hexists, if_true] at hresult
            cases hresult
            exact .refl w
        | false =>
            simp only [hexists, Bool.false_eq_true, if_false] at hresult
            cases result with
            | error failure => exact write_eq_error hresult
            | ok r =>
                obtain ⟨hpath, hmerged⟩ := isMerged_of_write hs.nodup defaultConfig_canonical hresult
                exact ⟨hpath, hpath ▸ hexists, _, rfl, hmerged⟩
  · intro path
    cases hresult : update w fileName path settings with
    | mk result w' =>
        unfold update at hresult
        cases hfile : FileSystem.isFile w (configPath w fileName path) with
        | false =>
            simp only [hfile, Bool.not_false, if_true] at hresult
            cases hresult
            exact .refl w
        | true =>
            simp only [hfile, Bool.not_true, Bool.false_eq_true, if_false] at hresult
            split at hresult
            · cases hresult
              exact .refl w
            · rename_i text hread
              split at hresult
              · cases hresult
                exact .refl w
              · rename_i before hparse
                cases result with
                | error failure => exact write_eq_error hresult
                | ok r =>
                    obtain ⟨hpath, hmerged⟩ :=
                      isMerged_of_write hs.nodup (Jsonc.canonical_of_parse hparse) hresult
                    rw [← hpath] at hread hfile
                    exact ⟨hpath, hfile, text, before, hread, hparse, hmerged⟩
              · cases hresult
                exact .refl w

/-- An option is taken away and another one set, in a new file and in one that is there. -/
theorem config_writes_are_exact_of_strict :
    let settings : Dict Json := [("outDir", .null), ("strict", .bool false)]
    let text := "\x7b\"compilerOptions\": \x7b\"outDir\": \"a\", \"jsx\": \"react\"\x7d\x7d"
    let p : Path := ⟨"/p/tsconfig.json"⟩
    let empty : Rehearsal := {}
    let full : Rehearsal := { memory := { files := [(p, text)] } }
    settings.Sorted ∧
      (∃ r w' before, create empty "tsconfig.json" ⟨"/p"⟩ settings = (.ok r, w') ∧ r.path = p ∧
        defaultConfig = .obj before ∧ r.IsMerged before settings empty w') ∧
      ∃ r w' before, update full "tsconfig.json" ⟨"/p"⟩ settings = (.ok r, w') ∧ r.path = p ∧
        Jsonc.parse text = .ok (.obj before) ∧ r.IsMerged before settings full w' := by
  intro settings text p empty full
  have hs : settings.Sorted := by
    unfold Dict.Sorted
    decide
  refine ⟨hs, ?_, ?_⟩
  · have hok : (create empty "tsconfig.json" ⟨"/p"⟩ settings).1.isOk = true := by decide +kernel
    have h := (config_writes_are_exact empty "tsconfig.json" settings hs).1 ⟨"/p"⟩
    cases hresult : create empty "tsconfig.json" ⟨"/p"⟩ settings with
    | mk result w' =>
        rw [hresult] at hok h
        cases result with
        | error failure => cases hok
        | ok r =>
            obtain ⟨hpath, -, before, hbefore, hmerged⟩ := h
            exact ⟨r, w', before, rfl, hpath, hbefore, hmerged⟩
  · have hok : (update full "tsconfig.json" ⟨"/p"⟩ settings).1.isOk = true := by decide +kernel
    have h := (config_writes_are_exact full "tsconfig.json" settings hs).2 ⟨"/p"⟩
    cases hresult : update full "tsconfig.json" ⟨"/p"⟩ settings with
    | mk result w' =>
        rw [hresult] at hok h
        cases result with
        | error failure => cases hok
        | ok r =>
            obtain ⟨hpath, -, text', before, hread, hparse, hmerged⟩ := h
            have hp : configPath full "tsconfig.json" ⟨"/p"⟩ = p := by decide +kernel
            have htext : (FileSystem.readText full p).toOption = some text := by decide +kernel
            rw [hpath, hp, toOption_eq_some.mp htext] at hread
            cases hread
            exact ⟨r, w', before, rfl, hpath.trans hp, hparse, hmerged⟩

end ScriptWorks.Manager
