import ScriptWorks.Config.Document
import ScriptWorks.Manager
import ScriptWorks.Proofs.Json.Printing
import ScriptWorks.Proofs.Jsonc.Plain
import ScriptWorks.Proofs.Options.Members

/-!
# Documents that are accepted

A document without issues is written as a text that is read as a configuration with the same options,
lists and base, and all its options have values.
-/

namespace ScriptWorks

open Json (nestingLimit embeddedKey)

namespace Manager

/-! ## The file -/

/-- The file of an ordinary document holds that document. -/
theorem parse_fileText {v : Json} (h : v.Ordinary (nestingLimit - 1)) :
    Jsonc.parse (fileText v) = .ok v := by
  have hread := h.readText_pretty
  have htext : (fileText v).toList = v.writePretty 0 ++ ['\n'] := by
    simp [fileText, Json.pretty]
  have hstrip := (Jsonc.tokenized_of_readText hread).plain.strip_eq
  unfold Jsonc.parse Jsonc.stripString
  rw [Json.parse_eq_ok_iff, htext, hstrip, String.toList_ofList]
  exact hread

/-! ## Members -/

variable {root : Dict Json}

theorem stringList_of_accepted {key : String} (h : listIssues root key = []) :
    ∃ ss, Config.stringList root key = .ok ss ∧ Dict.get? root key = ss.map .ofStrings := by
  unfold listIssues at h
  unfold Config.stringList
  cases hv : Dict.get? root key with
  | none => exact ⟨none, rfl, rfl⟩
  | some v =>
      cases hss : v.asStrings? with
      | none => simp [hv, hss] at h
      | some ss =>
          refine ⟨some ss, ?_, congrArg some (Json.eq_ofStrings hss)⟩
          cases v with
          | arr items => simp only [hss]
          | _ => cases hss

theorem extendsMember_of_accepted (h : extendsIssues (Dict.get? root "extends") = []) :
    ∃ base, Config.extendsMember root = .ok base ∧
      Dict.get? root "extends" = base.map .str := by
  unfold Config.extendsMember
  cases hv : Dict.get? root "extends" with
  | none => exact ⟨none, rfl, rfl⟩
  | some v =>
      rw [hv] at h
      cases v with
      | str s => exact ⟨some s, rfl, rfl⟩
      | _ => cases h

theorem optionsMember_of_accepted (h : optionsIssues (Dict.get? root "compilerOptions") = []) :
    ∃ members, Config.optionsMember root = .ok members ∧
      (Dict.get? root "compilerOptions").getD (.obj []) = .obj members ∧
      ∀ m ∈ members, optionIssue? m = none := by
  unfold Config.optionsMember
  cases hv : Dict.get? root "compilerOptions" with
  | none => exact ⟨[], rfl, rfl, nofun⟩
  | some v =>
      rw [hv] at h
      cases v with
      | obj members => exact ⟨members, rfl, rfl, List.filterMap_eq_nil_iff.mp h⟩
      | _ => cases h

theorem optionIssue?_eq_none_iff {m : String × Json} :
    optionIssue? m = none ↔ Options.refusal? m = none := by
  unfold optionIssue? Options.refusal?
  cases CompilerOption.ofName? m.1 with
  | none => simp
  | some o => cases hv : o.readValue m.2 <;> simp [hv]

/-- Options without issues are read without errors. -/
theorem options_of_accepted {members : Dict Json} (h : ∀ m ∈ members, optionIssue? m = none) :
    (Options.ofJson members).2 = [] := by
  rw [Options.ofJson_eq]
  exact List.filterMap_eq_nil_iff.mpr fun m hm => optionIssue?_eq_none_iff.mp (h m hm)

/-! ## The document -/

/-- A document without issues is written to a file that is read with the options, lists and base that the
document has, and all its options have values. -/
theorem accepted_documents_are_read {v : Json} (hv : v.Ordinary (nestingLimit - 1))
    (hissues : issues v = []) :
    ∃ root c, v = .obj root ∧ Config.parse (fileText v) = .ok c ∧
      (Dict.get? root "compilerOptions").getD (.obj []) = .obj c.compilerOptions ∧
      Dict.get? root "include" = c.includes.map .ofStrings ∧
      Dict.get? root "exclude" = c.excludes.map .ofStrings ∧
      Dict.get? root "files" = c.files.map .ofStrings ∧
      Dict.get? root "extends" = c.extends?.map .str ∧
      (Options.ofJson c.compilerOptions).2 = [] := by
  have hparse := parse_fileText hv
  cases v with
  | obj root =>
      obtain ⟨hrest, hbase⟩ := List.append_eq_nil_iff.mp hissues
      obtain ⟨hoptions, hlists⟩ := List.append_eq_nil_iff.mp hrest
      have hlist := List.flatMap_eq_nil_iff.mp hlists
      obtain ⟨members, hmembers, hroot, hnone⟩ := optionsMember_of_accepted hoptions
      obtain ⟨includes, hincludes, hinclude⟩ := stringList_of_accepted (hlist "include" (by simp))
      obtain ⟨excludes, hexcludes, hexclude⟩ := stringList_of_accepted (hlist "exclude" (by simp))
      obtain ⟨files, hfiles, hfile⟩ := stringList_of_accepted (hlist "files" (by simp))
      obtain ⟨base, hextends, hextend⟩ := extendsMember_of_accepted hbase
      refine ⟨root, { compilerOptions := members, includes, excludes, files, extends? := base }, rfl,
        ?_, hroot, hinclude, hexclude, hfile, hextend, options_of_accepted hnone⟩
      unfold Config.parse
      rw [hparse]
      show Config.ofMembers root = _
      unfold Config.ofMembers
      rw [hmembers, hincludes, hexcludes, hfiles, hextends]
      rfl
  | _ => cases hissues

/-- A document with an option of its own and strings that look like comments and trailing commas. -/
theorem accepted_documents_are_read_of_lookalikes :
    let plugin : Json := .obj [("name", .str "// x"), ("weight", .ofNat 2)]
    let options : Dict Json := [("plugins", .arr [plugin, .null]), ("strict", .bool true)]
    let root : Dict Json :=
      [("compilerOptions", .obj options), ("include", .ofStrings ["src/**/*", "a,]"])]
    (Json.obj root).Ordinary (nestingLimit - 1) ∧ issues (.obj root) = [] ∧
      ∃ c, Config.parse (fileText (.obj root)) = .ok c ∧ c.compilerOptions = options ∧
        c.includes.map Json.ofStrings = some (.ofStrings ["src/**/*", "a,]"]) ∧
        c.excludes = none ∧ c.files = none ∧ c.extends? = none := by
  intro plugin options root
  have hplugin : plugin.Ordinary 124 :=
    .obj (by decide) (List.forall_mem_cons.mpr ⟨.str, List.forall_mem_singleton.mpr (.num rfl)⟩)
      (by rintro m ⟨⟩; decide)
  have hplugins : (Json.arr [plugin, .null]).Ordinary 125 :=
    .arr (List.forall_mem_cons.mpr ⟨hplugin, List.forall_mem_singleton.mpr .null⟩)
  have hoptions : (Json.obj options).Ordinary 126 :=
    .obj (by decide) (List.forall_mem_cons.mpr ⟨hplugins, List.forall_mem_singleton.mpr .bool⟩)
      (by rintro m ⟨⟩; decide)
  have hinclude : (Json.ofStrings ["src/**/*", "a,]"]).Ordinary 126 :=
    .arr (List.forall_mem_cons.mpr ⟨.str, List.forall_mem_singleton.mpr .str⟩)
  have hroot : (Json.obj root).Ordinary (nestingLimit - 1) :=
    .obj (by decide) (List.forall_mem_cons.mpr ⟨hoptions, List.forall_mem_singleton.mpr hinclude⟩)
      (by rintro m ⟨⟩; decide)
  have hissues : issues (.obj root) = [] := List.isEmpty_iff.mp (by decide +kernel)
  obtain ⟨_, c, ⟨⟩, hc, hmembers, hincludes, hexcludes, hfiles, hextends, -⟩ :=
    accepted_documents_are_read hroot hissues
  refine ⟨hroot, hissues, c, hc, (Json.obj.inj hmembers).symm, hincludes.symm, ?_, ?_, ?_⟩
  · exact Option.map_eq_none_iff.mp hexcludes.symm
  · exact Option.map_eq_none_iff.mp hfiles.symm
  · exact Option.map_eq_none_iff.mp hextends.symm

/-- A document whose file is not read: once its members are in order, an object in it starts with the
key that announces an embedded text. -/
theorem accepted_document_with_embedded_key_not_read :
    let notes : Json := .ofMembers [("author", .str "a"), (embeddedKey, .str "x")]
    let v : Json :=
      .ofMembers [("compilerOptions", .ofMembers [("target", .str "ES2020")]), ("notes", notes)]
    v.Canonical ∧ issues v = [] ∧ ∃ e, Config.parse (fileText v) = .error e := by
  intro notes v
  have hnotes : notes.Canonical := Json.canonical_ofMembers
    (List.forall_mem_cons.mpr ⟨.str, List.forall_mem_singleton.mpr .str⟩)
  have hoptions : (Json.ofMembers [("target", .str "ES2020")]).Canonical :=
    Json.canonical_ofMembers (List.forall_mem_singleton.mpr .str)
  refine ⟨Json.canonical_ofMembers
    (List.forall_mem_cons.mpr ⟨hoptions, List.forall_mem_singleton.mpr hnotes⟩),
    List.isEmpty_iff.mp (by decide +kernel), ?_⟩
  have hfails : (Config.parse (fileText v)).toOption.isNone = true := by decide +kernel
  cases hparse : Config.parse (fileText v) with
  | error e => exact ⟨e, rfl⟩
  | ok c =>
      rw [hparse] at hfails
      cases hfails

end Manager

end ScriptWorks
