import ScriptWorks.Proofs.Config.Included
import ScriptWorks.Proofs.Config.Own
import ScriptWorks.Proofs.Path.Resolving

/-!
# Output directories

Where a project says neither what to exclude nor what its files are, its output directory is left out. This
goes by how the directories are written: it is found below the directory of the configuration only if its
components go on after those of that directory, and only if its names mean themselves as a pattern.
-/

namespace ScriptWorks

namespace Config

variable {h : Host} {l : Link} {rest : List Link} {c : Config} {out : String} {names : List String}

theorem isSimple_intercalate_slash (hnames : ∀ name ∈ names, Glob.IsSimple name.toList) :
    Glob.IsSimple (String.intercalate "/" names).toList := by
  rw [toList_intercalate_slash]
  induction names with
  | nil => exact ⟨List.not_mem_nil, by decide⟩
  | cons name names ih =>
      obtain ⟨hname, hnames⟩ := List.forall_mem_cons.mp hnames
      cases names with
      | nil => exact hname
      | cons next names => exact hname.append_slash (ih hnames)

/-- The path of a loaded option is normal. -/
theorem exists_normalize_of_outDir (hinherits : Inherits (l :: rest) c)
    (hload : loadWithExtends h l.1 = .ok c)
    (hout : (Options.ofJson c.compilerOptions).1.text? .outDir = some out) :
    ∃ p : Path, (⟨out⟩ : Path) = p.normalize := by
  have hsorted := sorted_of_loadWithExtends hload
  have hget := Options.get?_of_text?_ofJson hsorted.nodup rfl hout
  rw [hinherits.option] at hget
  obtain ⟨m, -, hown⟩ := List.exists_of_findSome?_eq_some hget
  unfold ownOption at hown
  split at hown
  case h_1 raw hraw =>
    rw [if_pos (by decide)] at hown
    exact ⟨_, congrArg Path.mk (Json.str.inj (Option.some.inj hown)).symm⟩
  case h_2 hnone => exact absurd hown (hnone out)

/-- Excluded names cover themselves. -/
theorem covers_self {specs : List String} (hspec : String.intercalate "/" names ∈ specs) (hne : names ≠ [])
    (hentries : ∀ name ∈ names, Disk.IsEntryName name)
    (hsimple : ∀ name ∈ names, Glob.IsSimple name.toList) : Covers Glob.meaning true specs names := by
  have htrim := trimSpec_of_spells hne hentries .names
  have hpattern : String.intercalate "/" names ∈ specPatterns true (String.intercalate "/" names) := by
    rw [specPatterns, htrim]
    exact List.mem_cons_self
  have hread := Glob.ofString?_of_simple (isSimple_intercalate_slash hsimple)
  refine ⟨_, hspec, _, hpattern, _, by rw [Glob.meaning, hread, Option.map_some], ?_⟩
  exact decide_eq_true (Glob.run_self _)

section

variable {options : Options} (hexcludes : c.excludes = none) (hout : options.text? .outDir = some out)
include hexcludes hout

/-- An output directory that is written as one below the directory of the configuration is excluded. -/
theorem excludeSpecs_of_below {p : Path} (hp : (⟨out⟩ : Path) = p.normalize)
    (hbelow : (⟨out⟩ : Path).components = c.specDir.components ++ names.map .name) :
    c.excludeSpecs options = defaultExcludes ++ [String.intercalate "/" names] := by
  obtain ⟨ps, htidy, -⟩ := p.exists_tidy_normalize
  rw [← hp] at htidy
  obtain ⟨rel, hrel, hslash⟩ := htidy.exists_stripPrefix? hbelow
  rw [excludeSpecs, hexcludes, hout, Option.bind_some, hrel]
  simp [hslash]

theorem excludeSpecs_of_not_below (hbelow : ¬ c.specDir.components <+: (⟨out⟩ : Path).components) :
    c.excludeSpecs options = defaultExcludes := by
  rw [excludeSpecs, hexcludes, hout, Option.bind_some, Path.stripPrefix?_eq_none hbelow]
  rfl

end

/-- If nothing in the chain says what to exclude or what the files are, no root file lies in the output
directory or below it, provided that this is written as the directory of the configuration and further
names in which no wildcard but `?` and single `*` stand. If it is not written below that directory at all,
it counts for nothing. -/
theorem output_directory_is_left_out (hchain : IsChain h (l :: rest))
    (hdistinct : ((l :: rest).map (·.1.normalize)).Nodup)
    (hunset : ∀ m ∈ l :: rest, m.2.excludes = none ∧ m.2.files = none)
    (hload : loadWithExtends h l.1 = .ok c) (htree : h.disk.IsTreeAt h.cwd c.specDir)
    (hout : (Project.read h l.1).options.text? .outDir = some out) :
    (∀ names, names ≠ [] → (∀ name ∈ names, Glob.IsSimple name.toList) →
      (⟨out⟩ : Path).components = c.specDir.components ++ names.map .name →
        ∀ q ∈ (Project.read h l.1).fileNames,
          ¬ (⟨out⟩ : Path).resolveFrom h.cwd <+: q.resolveFrom h.cwd) ∧
    (¬ c.specDir.components <+: (⟨out⟩ : Path).components →
      ∀ names, h.disk.HasBelow h.cwd c.specDir names →
        ((c.specDir.below names).normalize ∈ (Project.read h l.1).fileNames ↔
          (c.specDir.below names).isSource = true ∧ Covers Glob.meaning false c.includeSpecs names ∧
            ∀ front, front <+: names → front ≠ [] →
              ¬ Covers Glob.meaning true defaultExcludes front)) := by
  have hinherits := inherits_of_load hchain hdistinct hload
  have hexcludes : c.excludes = none :=
    hinherits.excludes.trans (List.findSome?_eq_none_iff.mpr fun m hm => (hunset m hm).1)
  have hfiles : c.files = none :=
    hinherits.files.trans (List.findSome?_eq_none_iff.mpr fun m hm => (hunset m hm).2)
  rw [Project.options_of_load hload] at hout
  constructor
  · intro names hne hsimple hbelow q hq hlies
    obtain ⟨p, hp⟩ := exists_normalize_of_outDir hinherits hload hout
    obtain ⟨names', hselects, rfl⟩ := (Project.mem_fileNames_iff hload hfiles htree).mp hq
    have hentries := hselects.file.isEntryName htree
    have hcomponents := Path.components_below (p := c.specDir) hentries
    -- Both places are below that of the directory, so the file is further down than the names.
    rw [Path.resolveFrom_normalize_of_names (hp ▸ hbelow) hcomponents, Path.resolveFrom_of_names hbelow,
      Path.resolveFrom_of_names hcomponents, List.prefix_append_right_inj] at hlies
    refine hselects.kept names hlies hne (covers_self ?_ hne (fun name hname => ?_) hsimple)
    · rw [excludeSpecs_of_below hexcludes hout hp hbelow]
      exact List.mem_append_right _ List.mem_cons_self
    · exact hentries name (hlies.subset hname)
  · intro hbelow names hfile
    rw [Project.mem_fileNames_below_iff hload hfiles htree (hfile.isEntryName htree)]
    have hspecs := excludeSpecs_of_not_below hexcludes hout hbelow
    constructor
    · exact fun hselects => ⟨hselects.source, hselects.included, hspecs ▸ hselects.kept⟩
    · rintro ⟨hsource, hincluded, hkept⟩
      exact ⟨hfile, hsource, hincluded, hspecs.symm ▸ hkept⟩

/-- A source in the output directory and another one, of a configuration file with an absolute path. -/
theorem output_directory_is_left_out_of_absolute :
    let text := "\x7b\"compilerOptions\": \x7b\"outDir\": \"out\"\x7d\x7d"
    let h : Host :=
      { disk := ⟨[(["v"], .dir), (["v", "tsconfig.json"], .file (.text text) none),
          (["v", "b.ts"], .file (.text "") none), (["v", "out"], .dir),
          (["v", "out", "a.ts"], .file (.text "") none)]⟩ }
    let p : Path := ⟨"/v/tsconfig.json"⟩
    ∃ own c, IsChain h [(p, own)] ∧ own.excludes = none ∧ own.files = none ∧
      loadWithExtends h p = .ok c ∧ h.disk.IsTreeAt h.cwd c.specDir ∧
      (Project.read h p).options.text? .outDir = some "/v/out" ∧
      ⟨"/v/out/a.ts"⟩ ∉ (Project.read h p).fileNames := by
  intro text h p
  have hread : h.readText p = .ok text := toOption_eq_some.mp (by decide +kernel)
  have hparse : (parse text).toOption.map (fun c => (c.extends?, c.excludes, c.files)) =
    some (none, none, none) := by decide +kernel
  obtain ⟨own, hown, hlists⟩ := Option.map_eq_some_iff.mp hparse
  simp only [Prod.mk.injEq] at hlists
  obtain ⟨hextends, hexcludes, hfiles⟩ := hlists
  have hchain : IsChain h [(p, own)] := .last hread (toOption_eq_some.mp hown) hextends
  have hloaded : (loadWithExtends h p).toOption.map (·.specDir) = some ⟨"/v"⟩ := by decide +kernel
  obtain ⟨c, hload, hspec⟩ := Option.map_eq_some_iff.mp hloaded
  have hload := toOption_eq_some.mp hload
  have hbelow : h.disk.IsTreeBelow ["v"] := by decide +kernel
  have hbase : h.disk.node h.cwd c.specDir = .ok (["v"], .dir) := by rw [hspec]; rfl
  have htree := hbelow.isTreeAt hbase
  have hout : (Project.read h p).options.text? .outDir = some "/v/out" := by decide +kernel
  obtain ⟨hleft, -⟩ := output_directory_is_left_out hchain (by simp)
    (by simp [hexcludes, hfiles]) hload htree hout
  refine ⟨own, c, hchain, hexcludes, hfiles, hload, htree, hout, fun hmem => ?_⟩
  refine hleft ["out"] (by decide) ?_ ?_ _ hmem (by decide +kernel)
  · intro name hname
    rw [List.mem_singleton.mp hname]
    exact ⟨by decide, by decide⟩
  · rw [hspec]
    decide +kernel

/-- The path of the configuration file is relative, so the output directory is not written as below its
directory, and a source in it is a root file. -/
theorem output_directory_is_read :
    let text := "\x7b\"compilerOptions\": \x7b\"outDir\": \"out\"\x7d\x7d"
    let h : Host :=
      { disk := ⟨[(["v"], .dir), (["v", "tsconfig.json"], .file (.text text) none),
          (["v", "b.ts"], .file (.text "") none), (["v", "out"], .dir),
          (["v", "out", "a.ts"], .file (.text "") none)]⟩
        cwd := ["v"] }
    let p : Path := ⟨"tsconfig.json"⟩
    (Project.read h p).options.text? .outDir = some "out" ∧
      (⟨"out"⟩ : Path).resolveFrom h.cwd = ["v", "out"] ∧
      (⟨"out/a.ts"⟩ : Path).resolveFrom h.cwd = ["v", "out", "a.ts"] ∧
      ⟨"out/a.ts"⟩ ∈ (Project.read h p).fileNames := by
  intro text h p
  have hout : (Project.read h p).options.text? .outDir = some "out" := by decide +kernel
  have hloaded : (loadWithExtends h p).toOption.map
      (fun c => (c.includes, c.excludes, c.files, c.specDir)) = some (none, none, none, ⟨"."⟩) := by
    decide +kernel
  obtain ⟨c, hload, hlists⟩ := Option.map_eq_some_iff.mp hloaded
  have hload := toOption_eq_some.mp hload
  simp only [Prod.mk.injEq] at hlists
  obtain ⟨hincludes, hexcludes, hfiles, hspec⟩ := hlists
  have hbase : h.disk.node h.cwd c.specDir = .ok (["v"], .dir) := by rw [hspec]; rfl
  have hbelow : h.disk.IsTreeBelow ["v"] := by decide +kernel
  have htree := hbelow.isTreeAt hbase
  have hspecs : c.excludeSpecs (Options.ofJson c.compilerOptions).1 = defaultExcludes :=
    excludeSpecs_of_not_below hexcludes (Project.options_of_load hload ▸ hout) (by
      rw [hspec]
      decide +kernel)
  refine ⟨hout, by decide +kernel, by decide +kernel, ?_⟩
  refine (Project.mem_fileNames_iff hload hfiles htree).mpr ?_
  refine ⟨["out", "a.ts"], ⟨⟨["v"], hbase, by decide +kernel⟩, ?_, ?_, fun front hfront hne => ?_⟩, ?_⟩
  · rw [hspec]
    decide +kernel
  · rw [includeSpecs, hincludes]
    decide +kernel
  · have hkept : ∀ n < 3, 0 < n →
        ¬ Covers Glob.meaning true defaultExcludes (["out", "a.ts"].take n) := by decide +kernel
    rw [hspecs, List.prefix_iff_eq_take.mp hfront]
    exact hkept _ (Nat.lt_succ_of_le hfront.length_le) (List.length_pos_iff.mpr hne)
  · rw [hspec]
    decide +kernel

end Config

end ScriptWorks
