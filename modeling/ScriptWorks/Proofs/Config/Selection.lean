import ScriptWorks.Proofs.FileSystem.Tree

/-!
# Selected files

A configuration selects the sources below its directory that some pattern includes, unless a pattern
excludes them or a directory on the way. They follow the listed files in the order of the walk, each
once. What the patterns mean does not matter.
-/

namespace ScriptWorks

namespace Config

/-- Some pattern of the entries covers the path with these names. -/
def Covers (m : Glob.Meaning) (exclude : Bool) (specs names : List String) : Prop :=
  ∃ spec ∈ specs, ∃ pattern ∈ specPatterns exclude spec, ∃ covers, m pattern = some covers ∧
    covers (String.intercalate "/" names) = true

/-- The names lead from the directory of the configuration to a file that it selects. -/
structure Selects (m : Glob.Meaning) (h : Host) (c : Config) (options : Options)
    (names : List String) : Prop where
  file : h.disk.HasBelow h.cwd c.specDir names
  source : (c.specDir.below names).isSource = true
  included : Covers m false c.includeSpecs names
  kept : ∀ front, front <+: names → front ≠ [] → ¬ Covers m true (c.excludeSpecs options) front

variable {m : Glob.Meaning} {h : Host} {c : Config} {options : Options} {exclude : Bool}
  {specs names : List String}

theorem anyCovers_iff : anyCovers (globs m exclude specs) names = true ↔
    Covers m exclude specs names := by
  simp only [anyCovers, globs, Covers, List.any_eq_true, List.mem_filterMap, List.mem_flatMap]
  constructor
  · rintro ⟨covers, ⟨pattern, ⟨spec, hspec, hpattern⟩, hmeans⟩, hcovers⟩
    exact ⟨spec, hspec, pattern, hpattern, covers, hmeans, hcovers⟩
  · rintro ⟨spec, hspec, pattern, hpattern, covers, hmeans, hcovers⟩
    exact ⟨covers, ⟨pattern, ⟨spec, hspec, hpattern⟩, hmeans⟩, hcovers⟩

instance : Decidable (Covers m exclude specs names) := decidable_of_iff _ anyCovers_iff

theorem addNew_eq {found ps : List Path} (hps : ps.Nodup) :
    addNew found ps = found ++ ps.filter (· ∉ found) := by
  unfold addNew
  induction ps generalizing found with
  | nil => simp
  | cons p ps ih =>
      obtain ⟨hp, hps⟩ := List.nodup_cons.mp hps
      rw [List.foldl_cons, ih hps]
      by_cases hmem : p ∈ found
      · simp [hmem]
      · have hrest : ps.filter (· ∉ found ++ [p]) = ps.filter (· ∉ found) := by
          refine List.filter_congr fun q hq => ?_
          have hne : q ≠ p := fun heq => hp (heq ▸ hq)
          simp [hne]
        rw [List.filter_cons_of_pos (by simpa using hmem), ← hrest]
        simp [hmem]

/-! ## Selected files -/

theorem mem_selectedFiles (htree : h.disk.IsTreeAt h.cwd c.specDir) {f : Disk.Found} :
    f ∈ c.selectedFiles h options m ↔
      f.path = c.specDir.below f.names ∧ c.Selects m h options f.names := by
  unfold selectedFiles
  simp only [List.mem_filter, Disk.mem_filesBelow htree, Bool.and_eq_true, anyCovers_iff,
    Bool.not_eq_true', ← Bool.not_eq_true]
  constructor
  · rintro ⟨⟨hpath, hfile, hkept⟩, hsource, hincluded⟩
    exact ⟨hpath, hfile, hpath ▸ hsource, hincluded, hkept⟩
  · rintro ⟨hpath, hfile, hsource, hincluded, hkept⟩
    exact ⟨⟨hpath, hfile, hkept⟩, hpath ▸ hsource, hincluded⟩

theorem pairwise_selectedFiles (htree : h.disk.IsTreeAt h.cwd c.specDir) :
    (c.selectedFiles h options m).Pairwise fun f g => f.names < g.names :=
  (Disk.pairwise_filesBelow htree).filter _

theorem selected_eq (htree : h.disk.IsTreeAt h.cwd c.specDir) :
    c.selected h options m = ((c.selectedFiles h options m).map (·.names)).map fun names =>
      (c.specDir.below names).normalize := by
  unfold selected
  rw [List.map_map]
  refine List.map_congr_left fun f hf => ?_
  rw [Function.comp_apply, ← ((mem_selectedFiles htree).mp hf).1]

theorem mem_selected_iff (htree : h.disk.IsTreeAt h.cwd c.specDir) {q : Path} :
    q ∈ c.selected h options m ↔
      ∃ names, c.Selects m h options names ∧ q = (c.specDir.below names).normalize := by
  rw [selected_eq htree, List.mem_map]
  constructor
  · rintro ⟨names, hnames, rfl⟩
    obtain ⟨f, hf, rfl⟩ := List.mem_map.mp hnames
    exact ⟨f.names, ((mem_selectedFiles htree).mp hf).2, rfl⟩
  · rintro ⟨names, hselects, rfl⟩
    have hmem := (mem_selectedFiles (f := ⟨c.specDir.below names, names⟩) htree).mpr ⟨rfl, hselects⟩
    exact ⟨names, List.mem_map.mpr ⟨_, hmem, rfl⟩, rfl⟩

/-- Different files are selected under different paths. -/
theorem nodup_selected (htree : h.disk.IsTreeAt h.cwd c.specDir) :
    (c.selected h options m).Nodup := by
  refine List.pairwise_map.mpr ((pairwise_selectedFiles htree).imp_of_mem ?_)
  intro f g hf hg hlt heq
  obtain ⟨hpath, hf⟩ := (mem_selectedFiles htree).mp hf
  obtain ⟨hpath', hg⟩ := (mem_selectedFiles htree).mp hg
  rw [hpath, hpath'] at heq
  rw [Path.names_eq_of_normalize_below (hf.file.isEntryName htree) (hg.file.isEntryName htree) heq]
    at hlt
  exact List.lt_irrefl _ hlt

theorem rootFiles_fst {configPath : Path} (hselects : c.includes.isSome = true ∨ c.files = none) :
    (c.rootFiles h options configPath m).1 =
      addNew (c.listed h (c.files.getD [])).1 (c.selected h options m) := by
  unfold rootFiles
  cases hfiles : c.files with
  | none =>
      simp only [Option.isSome_none, Bool.false_and, Bool.false_eq_true, if_false, Option.getD_none]
      split <;> rfl
  | some names =>
      have hincludes : c.includes.isNone = false := by
        rcases hselects with hsome | hnone
        · cases hc : c.includes <;> simp_all
        · rw [hfiles] at hnone
          cases hnone
      simp only [hincludes, Bool.and_false, Bool.false_eq_true, if_false, Option.getD_some]
      split <;> rfl

/-- The root files of a configuration that selects files are the listed ones that are there, and then
the selected ones that are not listed, each once. They are in the order of the names that lead to them:
siblings are sorted, and what is below a directory stands in the place of the directory. -/
theorem root_files_are_listed_and_selected (m : Glob.Meaning) (h : Host) (c : Config)
    (options : Options) (configPath : Path)
    (hselects : c.includes.isSome = true ∨ c.files = none)
    (htree : h.disk.IsTreeAt h.cwd c.specDir) :
    ∃ chosen : List (List String),
      let listed := ((c.files.getD []).map fun name => (c.specDir.child name).normalize).filter h.isFile
      let paths := chosen.map fun names => (c.specDir.below names).normalize
      (c.rootFiles h options configPath m).1 = listed ++ paths.filter (· ∉ listed) ∧
        paths.Nodup ∧ chosen.Pairwise (· < ·) ∧
        ∀ names, names ∈ chosen ↔ c.Selects m h options names := by
  refine ⟨(c.selectedFiles h options m).map (·.names), ?_, ?_,
    List.pairwise_map.mpr (pairwise_selectedFiles htree), fun names => ?_⟩
  · rw [rootFiles_fst hselects, addNew_eq (nodup_selected htree), selected_eq htree]
    rfl
  · rw [← selected_eq htree]
    exact nodup_selected htree
  · rw [List.mem_map]
    constructor
    · rintro ⟨f, hf, rfl⟩
      exact ((mem_selectedFiles htree).mp hf).2
    · intro hselected
      exact ⟨⟨c.specDir.below names, names⟩, (mem_selectedFiles htree).mpr ⟨rfl, hselected⟩, rfl⟩

/-- A file in a directory with includes, one in an excluded directory, and one that is listed. -/
theorem root_files_are_listed_and_selected_of_tree :
    let disk : Disk := ⟨[(["v"], .dir), (["v", "src"], .dir), (["v", "src", "lib"], .dir),
      (["v", "src", "lib", "b.ts"], .file (.text "") none), (["v", "src", "gen"], .dir),
      (["v", "src", "gen", "c.ts"], .file (.text "") none),
      (["v", "src", "z.ts"], .file (.text "") none), (["v", "src", "a.js"], .file (.text "") none)]⟩
    let h : Host := { disk }
    let c : Config := { files := some ["src/z.ts", "x.ts"], includes := some ["src"],
                        excludes := some ["**/gen"], specDir := ⟨"/v"⟩ }
    (c.includes.isSome = true ∧ h.disk.IsTreeAt h.cwd c.specDir) ∧
      ∃ chosen : List (List String), chosen.Pairwise (· < ·) ∧
        (c.rootFiles h {} ⟨"/v/tsconfig.json"⟩).1 =
          ⟨"/v/src/z.ts"⟩ :: (chosen.map fun names => (c.specDir.below names).normalize).filter
            (· ∉ [⟨"/v/src/z.ts"⟩]) ∧
        ["src", "lib", "b.ts"] ∈ chosen ∧ ["src", "gen", "c.ts"] ∉ chosen := by
  intro disk h c
  have hbelow : disk.IsTreeBelow ["v"] := by decide +kernel
  have hnode : disk.node [] ⟨"/v"⟩ = .ok (["v"], .dir) := by rfl
  have htree : h.disk.IsTreeAt h.cwd c.specDir := by
    intro base hbase
    cases hnode.symm.trans hbase
    exact hbelow
  have hselects : c.includes.isSome = true := rfl
  have hlisted : ((c.files.getD []).map fun name => (c.specDir.child name).normalize).filter h.isFile =
      [⟨"/v/src/z.ts"⟩] := by decide +kernel
  obtain ⟨chosen, hfiles, -, hsorted, hchosen⟩ := root_files_are_listed_and_selected Glob.meaning h c
    {} ⟨"/v/tsconfig.json"⟩ (.inl hselects) htree
  rw [hlisted] at hfiles
  refine ⟨⟨hselects, htree⟩, chosen, hsorted, hfiles, (hchosen _).mpr ?_, fun hmem => ?_⟩
  · refine ⟨⟨["v"], hnode, by decide +kernel⟩, by decide +kernel, by decide +kernel, ?_⟩
    intro front hfront hne
    have hkept : ∀ n < 4, 0 < n →
        ¬ Covers Glob.meaning true (c.excludeSpecs {}) (["src", "lib", "b.ts"].take n) := by
      decide +kernel
    rw [List.prefix_iff_eq_take.mp hfront]
    exact hkept _ (Nat.lt_succ_of_le hfront.length_le) (List.length_pos_iff.mpr hne)
  · refine ((hchosen _).mp hmem).kept ["src", "gen"] (by decide) (by decide) ?_
    decide +kernel

end Config

end ScriptWorks
