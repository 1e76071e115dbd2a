import ScriptWorks.Proofs.Checking
import ScriptWorks.Proofs.FileSystem.Linkless

/-!
# What checkers are told

A checker gets the options that are not about writing scripts, and the root files as they are written.
Seen from another directory, an absolute path is that of the same file. A relative one is not, unless it
climbs to a directory that is above both.
-/

namespace ScriptWorks

namespace Checker

variable {h : Host} {options : Options} {start : Path} {key : String}

/-! ## Options -/

/-- The options that are not about writing scripts, with `noEmit`. -/
theorem get?_silent (options : Options) (key : String) :
    Dict.get? (Dict.insert (options.toJson.filter fun m => !emitKeys.contains m.1) "noEmit"
      (.bool true)) key =
      if key = "noEmit" then some (.bool true)
      else if key ∈ emitKeys then none
      else Dict.get? options.toJson key := by
  rw [Dict.get?_insert, Dict.get?_filter options.toJson fun k => !emitKeys.contains k]
  simp only [eq_comm (a := "noEmit"), Bool.not_eq_true', List.contains_eq_mem,
    decide_eq_false_iff_not, ite_not]

/-- Directories of declarations are named where the options name none. -/
theorem get?_checkOptions (key : String) : Dict.get? (checkOptions h options start) key =
    if key = "noEmit" then some (.bool true)
    else if key ∈ emitKeys then none
    else (Dict.get? options.toJson key).or
      (if key = "typeRoots" ∧ typeRoots h start ≠ [] then
        some (.ofStrings ((typeRoots h start).map Path.text)) else none) := by
  have hroots := get?_silent options "typeRoots"
  rw [if_neg (by decide), if_neg (by decide)] at hroots
  unfold checkOptions
  dsimp only
  split
  case h_1 v hsome =>
    rw [get?_silent]
    by_cases hkey : key = "typeRoots"
    · rw [hroots] at hsome
      simp [hkey, hsome]
    · simp [hkey]
  case h_2 hnil =>
    rw [get?_silent]
    simp [hnil]
  case h_3 hnone hne =>
    rw [Dict.get?_insert, get?_silent]
    by_cases hkey : key = "typeRoots"
    · rw [hroots] at hnone
      subst hkey
      rw [if_pos rfl, if_neg (by decide), if_neg (by decide), hnone, Option.none_or, if_pos ⟨rfl, hne⟩]
    · simp [hkey, Ne.symm hkey]

theorem sorted_checkOptions : Dict.Sorted (checkOptions h options start) := by
  have hsilent : Dict.Sorted (Dict.insert (options.toJson.filter fun m => !emitKeys.contains m.1)
      "noEmit" (.bool true)) :=
    (((Dict.Sorted.nil.overlay _).overlay _).filter _).insert _ _
  unfold checkOptions
  dsimp only
  split
  case h_1 | h_2 => exact hsilent
  case h_3 => exact hsilent.insert _ _

/-! ## Runs -/

theorem config_eq (roots : List Path) : config h roots options start =
    .obj [("compilerOptions", .obj (checkOptions h options start)),
      ("files", .ofStrings (roots.map Path.text))] := by
  have hne : "files" ≠ "compilerOptions" := by decide
  have hafter : ¬ "files" < "compilerOptions" := by decide
  unfold config Json.ofMembers Dict.ofList Dict.overlay
  simp only [List.foldl_cons, List.foldl_nil, Dict.insert, hne, hafter, if_false]

/-- A checker that can be started is started with a configuration, if there is a place for that. -/
theorem run_of_starts {program : Path} {roots : List Path} {result : ProcessResult}
    (hroots : roots ≠ []) (hstarts : h.run program (startDir roots) = .ok result) :
    (run h program roots options).2 = (place h).toOption.map fun _ =>
      ⟨config h roots options (startDir roots), result.cwd⟩ := by
  obtain ⟨first, rest, rfl⟩ := List.exists_cons_of_ne_nil hroots
  have hfirst : h.run program (first.parent?.getD ⟨"."⟩) = .ok result := hstarts
  unfold run
  dsimp only
  rw [hfirst]
  cases place h <;> rfl

end Checker

/-- A checker that can be started runs if there is a place for its configuration. That has the options
that are not about writing scripts, with `noEmit`, and with the directories of type declarations that are
found if none are named. It lists the root files as they are written. From the directory of the
configuration, wherever that is, an absolute path leads to the root file. A relative one does so if and
only if climbing as far as it does leads to the same place from that directory and from the working
directory. -/
theorem checkers_get_options_and_roots_as_written (h : Host) (program : Path) (roots : List Path)
    (options : Options) (result : ProcessResult) (hroots : roots ≠ [])
    (hstarts : h.run program (Checker.startDir roots) = .ok result) :
    ∃ members : Dict Json, ∃ files : List String,
      (Checker.run h program roots options).2 = ((Checker.place h).toOption.map fun _ =>
        ⟨.obj [("compilerOptions", .obj members), ("files", .ofStrings files)], result.cwd⟩) ∧
      members.Sorted ∧
      (∀ key, members.get? key =
        if key = "noEmit" then some (.bool true)
        else if key ∈ Checker.emitKeys then none
        else (Dict.get? options.toJson key).or
          (if key = "typeRoots" ∧ Checker.typeRoots h (Checker.startDir roots) ≠ [] then
            some (.ofStrings ((Checker.typeRoots h (Checker.startDir roots)).map Path.text))
          else none)) ∧
      files = roots.map Path.text ∧
      ∀ root ∈ roots, ∀ dir : Location,
        (root.isAbsolute = true → h.disk.locate dir ⟨root.text⟩ = h.disk.locate h.cwd root) ∧
        (root.isAbsolute = false → h.disk.Linkless → ∀ l m, h.disk.locate dir ⟨root.text⟩ = .ok l →
          h.disk.locate h.cwd root = .ok m →
          (l = m ↔ Path.climb dir root.ascent.1 = Path.climb h.cwd root.ascent.1)) := by
  refine ⟨_, _, (Checker.run_of_starts hroots hstarts).trans ?_, Checker.sorted_checkOptions,
    Checker.get?_checkOptions, rfl, fun root _ dir => ⟨fun hroot => ?_, ?_⟩⟩
  · rw [Checker.config_eq]
  · exact Disk.locate_of_isAbsolute hroot dir h.cwd
  · intro hroot hlinks l m hl hm
    rw [Disk.resolveFrom_of_locate hlinks hl, Disk.resolveFrom_of_locate hlinks hm]
    exact Path.resolveFrom_eq_iff hroot dir h.cwd

/-- An absolute root file, and a relative one that is found from the directory of the configuration too. -/
theorem checkers_get_options_and_roots_as_written_of_two :
    let answer : Behaviour := ⟨.text "", .text "", .code 0⟩
    let disk : Disk := ⟨[(["v"], .dir), (["v", "a.ts"], .file (.text "") none),
      (["v", "b.ts"], .file (.text "") none), (["v", "node_modules"], .dir),
      (["v", "node_modules", "@types"], .dir), (["tmp"], .dir), (["bin"], .dir),
      (["bin", "tsc"], .file (.text "") (some answer))]⟩
    let h : Host := { disk, cwd := ["v"] }
    let roots : List Path := [⟨"/v/a.ts"⟩, ⟨"../v/b.ts"⟩]
    let options : Options := (Options.set {} .strict (.bool true)).set .outDir (.text "dist")
    ∃ result, (roots ≠ [] ∧ h.run ⟨"/bin/tsc"⟩ (Checker.startDir roots) = .ok result ∧
        h.disk.Linkless) ∧
      ∃ members : Dict Json, (Checker.run h ⟨"/bin/tsc"⟩ roots options).2 = some
          ⟨.obj [("compilerOptions", .obj members), ("files", .ofStrings ["/v/a.ts", "../v/b.ts"])],
            result.cwd⟩ ∧
        Dict.get? members "strict" = some (.bool true) ∧ Dict.get? members "outDir" = none ∧
        Dict.get? members "typeRoots" = some (.ofStrings ["/v/node_modules/@types"]) ∧
        h.disk.locate ["tmp"] ⟨"/v/a.ts"⟩ = h.disk.locate h.cwd ⟨"/v/a.ts"⟩ ∧
        ∃ l m, h.disk.locate ["tmp"] ⟨"../v/b.ts"⟩ = .ok l ∧
          h.disk.locate h.cwd ⟨"../v/b.ts"⟩ = .ok m ∧ l = m := by
  intro answer disk h roots options
  have hroots : roots ≠ [] := List.cons_ne_nil _ _
  have hstarts : (h.run ⟨"/bin/tsc"⟩ (Checker.startDir roots)).isOk = true := by decide +kernel
  have hlinks : h.disk.Linkless := Disk.linkless_of_all (by simp [h, disk])
  have htypes : Checker.typeRoots h (Checker.startDir roots) = [⟨"/v/node_modules/@types"⟩] := by
    decide +kernel
  obtain ⟨result, hresult⟩ := exists_of_isOk hstarts
  obtain ⟨members, files, hrun, -, hmembers, rfl, hfiles⟩ :=
    checkers_get_options_and_roots_as_written h ⟨"/bin/tsc"⟩ roots options result hroots hresult
  refine ⟨result, ⟨hroots, hresult, hlinks⟩, members, hrun, ?_, ?_, ?_, ?_, ?_⟩
  · rw [hmembers, if_neg (by decide), if_neg (by decide)]
    rfl
  · rw [hmembers, if_neg (by decide), if_pos (by decide)]
  · rw [hmembers, if_neg (by decide), if_neg (by decide), htypes, if_pos ⟨rfl, by simp⟩]
    rfl
  · exact (hfiles ⟨"/v/a.ts"⟩ List.mem_cons_self ["tmp"]).1 (by decide)
  · have hl : h.disk.locate ["tmp"] ⟨"../v/b.ts"⟩ = .ok ["v", "b.ts"] := by rfl
    have hm : h.disk.locate h.cwd ⟨"../v/b.ts"⟩ = .ok ["v", "b.ts"] := by rfl
    have hsame := (hfiles ⟨"../v/b.ts"⟩ (by simp [roots]) ["tmp"]).2 (by decide) hlinks _ _ hl hm
    exact ⟨_, _, hl, hm, hsame.mpr (by decide +kernel)⟩

/-- A relative root file is looked for below the directory of the configuration, where it is not. -/
theorem relative_root_is_lost_to_checker :
    let answer : Behaviour := ⟨.text "", .text "", .code 0⟩
    let disk : Disk := ⟨[(["v"], .dir), (["v", "src"], .dir),
      (["v", "src", "a.ts"], .file (.text "") none), (["tmp"], .dir), (["tmp", "x"], .dir),
      (["bin"], .dir), (["bin", "tsc"], .file (.text "") (some answer))]⟩
    let h : Host := { disk, cwd := ["v"] }
    ∃ run, (Checker.run h ⟨"/bin/tsc"⟩ [⟨"src/a.ts"⟩] {}).2 = some run ∧
      run.config.member? "files" = some (.ofStrings ["src/a.ts"]) ∧
      h.disk.locate h.cwd ⟨"src/a.ts"⟩ = .ok ["v", "src", "a.ts"] ∧
      h.disk.locate ["tmp", "x"] ⟨"src/a.ts"⟩ = .error .notFound := by
  intro answer disk h
  have hstarts : (h.run ⟨"/bin/tsc"⟩ (Checker.startDir [⟨"src/a.ts"⟩])).isOk = true := by
    decide +kernel
  obtain ⟨result, hresult⟩ := exists_of_isOk hstarts
  exact ⟨_, Checker.run_of_starts (List.cons_ne_nil _ _) hresult,
    Checker.member?_config_files _ _ _ _, rfl, rfl⟩

end ScriptWorks
