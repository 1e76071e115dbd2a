import ScriptWorks.Small.Compiler
import ScriptWorks.Proofs.Compilation.Outcome
import ScriptWorks.Proofs.Engine.Emitting
import ScriptWorks.Proofs.FileSystem.Linkless
import ScriptWorks.Proofs.Program.Layout

/-!
# Outputs that do not collide

Outputs of one program have different paths if the scripts of its sources do. On a disk without links
each of them is then found where it was written, since no other one is written there.
-/

namespace ScriptWorks

open ScriptWorks.Path

namespace Path

/-! ## Pieces of outputs -/

theorem loud_scriptPieces {ps : List (List Char)} (h : ∀ x ∈ ps, IsLoud x) :
    ∀ x ∈ scriptPieces ps, IsLoud x := by
  rcases List.eq_nil_or_concat ps with rfl | ⟨ps, x, rfl⟩
  · nofun
  · rw [List.concat_eq_append] at h ⊢
    rw [scriptPieces_concat]
    intro y hy
    rcases List.mem_append.mp hy with hy | hy
    · exact h y (List.mem_append_left _ hy)
    · rw [List.mem_singleton.mp hy]
      exact isLoud_scriptPiece (h x (by simp))

theorem mapPieces_inj {ps qs : List (List Char)} (hps : ∀ x ∈ ps, IsLoud x)
    (hqs : ∀ x ∈ qs, IsLoud x) (h : mapPieces ps = mapPieces qs) : ps = qs := by
  have hnil : ∀ {qs : List (List Char)} {x : List Char}, (∀ y ∈ qs ++ [x], IsLoud y) →
      mapPieces (qs ++ [x]) ≠ mapPieces [] := by
    intro qs x hloud h
    have h : qs ++ [x ++ ".map".toList] = [] ++ [[] ++ ".map".toList] := by
      rwa [mapPieces_concat] at h
    have hx := (List.append_inj' h rfl).2
    exact (hloud x (by simp)).ne_nil (by simpa using hx)
  rcases List.eq_nil_or_concat ps with rfl | ⟨ps, x, rfl⟩ <;>
    rcases List.eq_nil_or_concat qs with rfl | ⟨qs, y, rfl⟩
  · rfl
  · rw [List.concat_eq_append] at h hqs
    exact absurd h.symm (hnil hqs)
  · rw [List.concat_eq_append] at h hps
    exact absurd h (hnil hps)
  · rw [List.concat_eq_append, List.concat_eq_append, mapPieces_concat, mapPieces_concat] at h
    obtain ⟨rfl, hlast⟩ := List.append_inj' h rfl
    rw [List.append_cancel_right (List.cons.inj hlast).1]

theorem scriptPieces_ne_mapPieces (ps qs : List (List Char)) : scriptPieces ps ≠ mapPieces qs := by
  rcases List.eq_nil_or_concat ps with rfl | ⟨ps, x, rfl⟩
  · simp [mapPieces]
  · rw [List.concat_eq_append, scriptPieces_concat, mapPieces]
    intro h
    exact scriptPiece_ne_append _ (List.cons.inj (List.append_inj' h rfl).2).1

end Path

namespace Program

/-! ## Different paths -/

/-- Scripts lie on what is left of their sources. -/
def IsLaid (p : Program) (abs : Bool) (cs : List Component) (qs : List (List Char)) : Prop :=
  ∀ u ∈ p.units, u.path.isDeclaration = false → ∃ ps, Tidy u.path abs ps ∧
    ∀ script, scriptPath p.outDir p.rootDir u.path = .ok script →
      ∃ rs, ps = qs ++ rs ∧ Lies cs (scriptPieces rs) script

theorem exists_isLaid {p : Program} {abs : Bool}
    (htidy : ∀ u ∈ p.units, u.path.isDeclaration = false → ∃ ps, Tidy u.path abs ps) :
    ∃ cs qs, p.IsLaid abs cs qs := by
  obtain ⟨cs, qs, hlayout⟩ := exists_layout p.exists_tidy_outDir
    (exists_tidy_rootDir fun u hu hdecl => ⟨abs, htidy u hu hdecl⟩) abs
  refine ⟨cs, qs, fun u hu hdecl => ?_⟩
  obtain ⟨ps, hps⟩ := htidy u hu hdecl
  exact ⟨ps, hps, fun script hscript => hlayout _ ps script hps hscript⟩

theorem same_eq_false {p q : Path} {cs : List Component} {xs ys : List (List Char)}
    (hp : p.components = cs ++ xs.map componentOf) (hq : q.components = cs ++ ys.map componentOf)
    (hne : xs ≠ ys) : p.same q = false := by
  refine decide_eq_false fun heq => hne ?_
  rw [hp, hq] at heq
  exact map_componentOf_inj.mp (List.append_cancel_left heq)

/-- The same is left of two sources only if their scripts are the same. -/
theorem scriptPieces_ne {p q : Path} {abs : Bool} {qs rs rs' : List (List Char)}
    (hp : Tidy p abs (qs ++ rs)) (hq : Tidy q abs (qs ++ rs'))
    (hne : p.scriptPath.same q.scriptPath = false) : scriptPieces rs ≠ scriptPieces rs' := by
  intro heq
  have hnil : ∀ {rs : List (List Char)}, scriptPieces rs = [] → rs = [] := by
    intro rs h
    rcases List.eq_nil_or_concat rs with rfl | ⟨rs, x, rfl⟩
    · rfl
    · simp at h
  have hsame : scriptPieces (qs ++ rs) = scriptPieces (qs ++ rs') := by
    by_cases hrs : rs = []
    · subst hrs
      rw [hnil heq.symm]
    · have hrs' : rs' ≠ [] := fun h => hrs (hnil (by rw [heq, h]; rfl))
      rw [scriptPieces_append hrs, scriptPieces_append hrs', heq]
  have hboth := (hp.scriptPath.same_iff hq.scriptPath).mpr ⟨rfl, hsame⟩
  rw [hne] at hboth
  cases hboth

namespace IsLaid

variable {p : Program} {abs : Bool} {cs : List Component} {qs : List (List Char)}

/-- Every output is a script or a source map, on what is left of its source. -/
theorem exists_pieces (h : p.IsLaid abs cs qs) {u : SourceUnit} (hu : u ∈ p.units) {f : OutputFile}
    (hf : f ∈ p.unitFiles u) :
    u.path.isDeclaration = false ∧ ∃ rs xs, Tidy u.path abs (qs ++ rs) ∧
      f.path.components = cs ++ xs.map componentOf ∧
      (xs = scriptPieces rs ∨ xs = mapPieces (scriptPieces rs)) := by
  obtain ⟨hdecl, script, -, hscript, hf⟩ := mem_unitFiles hf
  obtain ⟨ps, hps, hplace⟩ := h u hu hdecl
  obtain ⟨rs, rfl, hlies⟩ := hplace script.path hscript
  rcases hf with hf | hf
  · exact ⟨hdecl, rs, _, hps, hf ▸ hlies.components, .inl rfl⟩
  · exact ⟨hdecl, rs, _, hps, hf ▸ hlies.mapPath, .inr rfl⟩

theorem between (h : p.IsLaid abs cs qs) {u v : SourceUnit} (hu : u ∈ p.units) (hv : v ∈ p.units)
    (hne : u.path.isDeclaration = false → v.path.isDeclaration = false →
      u.path.scriptPath.same v.path.scriptPath = false) {f g : OutputFile} (hf : f ∈ p.unitFiles u)
    (hg : g ∈ p.unitFiles v) : f.path.same g.path = false := by
  obtain ⟨hudecl, rs, xs, hrs, hf, hxs⟩ := h.exists_pieces hu hf
  obtain ⟨hvdecl, rs', ys, hrs', hg, hys⟩ := h.exists_pieces hv hg
  have hpieces := scriptPieces_ne hrs hrs' (hne hudecl hvdecl)
  refine same_eq_false hf hg ?_
  rcases hxs with rfl | rfl <;> rcases hys with rfl | rfl
  · exact hpieces
  · exact scriptPieces_ne_mapPieces _ _
  · exact (scriptPieces_ne_mapPieces _ _).symm
  · refine fun heq => hpieces (mapPieces_inj ?_ ?_ heq)
    · exact loud_scriptPieces fun x hx => hrs.loud x (List.mem_append_right qs hx)
    · exact loud_scriptPieces fun x hx => hrs'.loud x (List.mem_append_right qs hx)

theorem within (h : p.IsLaid abs cs qs) {u : SourceUnit} (hu : u ∈ p.units) :
    (p.unitFiles u).Pairwise fun f g => f.path.same g.path = false := by
  unfold unitFiles
  split
  · rename_i script map hunit
    obtain ⟨hdecl, hscript, hmap⟩ := unitOutput_eq_ok hunit
    obtain ⟨ps, -, hlies⟩ := h u hu hdecl
    obtain ⟨rs, -, hlies⟩ := hlies _ hscript
    cases map with
    | none => exact List.pairwise_singleton _ _
    | some map =>
        have hmap := hlies.mapPath
        rw [← (unitOutput_eq_ok hunit).2.2 map rfl] at hmap
        have hdiffer := same_eq_false hmap hlies.components (scriptPieces_ne_mapPieces rs _).symm
        simp [hdiffer]
  · exact .nil

end IsLaid

/-- Outputs of sources that are seen alike have different paths if the scripts of the sources do. -/
theorem pairwise_emit {p : Program} {abs : Bool}
    (htidy : ∀ u ∈ p.units, u.path.isDeclaration = false → ∃ ps, Tidy u.path abs ps)
    (hscripts : p.units.Pairwise fun u v => u.path.isDeclaration = false →
      v.path.isDeclaration = false → u.path.scriptPath.same v.path.scriptPath = false) :
    p.emit.files.Pairwise fun f g => f.path.same g.path = false := by
  obtain ⟨cs, qs, hlaid⟩ := exists_isLaid htidy
  have hall : (p.units.flatMap p.unitFiles).Pairwise fun f g => f.path.same g.path = false := by
    refine List.pairwise_flatMap.mpr ⟨fun u hu => hlaid.within hu, ?_⟩
    refine List.pairwise_iff_forall_sublist.mpr fun {u v} huv f hf g hg => ?_
    have hu : u ∈ p.units := huv.subset List.mem_cons_self
    have hv : v ∈ p.units := huv.subset (by simp)
    exact hlaid.between hu hv (List.pairwise_iff_forall_sublist.mp hscripts huv) hf hg
  rcases p.emit_files with hnil | hfiles
  · rw [hnil]
    exact .nil
  · rw [hfiles]
    refine ((mapsLast_perm _).pairwise_iff fun {f g} h => ?_).mpr hall
    rwa [Path.same_comm]

/-- What holds of pairs of root files holds of pairs of sources. -/
theorem pairwise_units {compiler : Compiler} {h : Host} {fs : List Path} {options : Options}
    {R : Path → Path → Prop} (hfs : fs.Pairwise R) :
    (build compiler h fs options).units.Pairwise fun u v => R u.path v.path := by
  refine List.pairwise_filterMap.mpr (List.pairwise_map.mpr (hfs.imp ?_))
  intro p q hpq u hu v hv
  rwa [path_of_readUnit (toOption_eq_some.mp hu), path_of_readUnit (toOption_eq_some.mp hv)]

/-! ## Different places -/

theorem isMap_of_lies {cs : List Component} {rs : List (List Char)} {script : Path}
    (h : Lies cs (scriptPieces rs) script) (hrs : rs ≠ []) (hloud : ∀ x ∈ rs, IsLoud x) :
    script.extension? ≠ some "map" ∧ (mapPath script).extension? = some "map" := by
  obtain ⟨rs, x, rfl⟩ := List.eq_nil_or_concat rs |>.resolve_left hrs
  have hends := h.endsIn
  have hx : IsLoud x := hloud x (by simp)
  have hy := isLoud_scriptPiece hx
  rw [List.concat_eq_append, scriptPieces_concat, List.getLast?_concat, Option.getD_some] at hends
  refine ⟨extension?_of_scriptPiece hends hx, ?_⟩
  obtain ⟨hmap, hmapname⟩ := isLoud_append_map hy.noSlash
  have hsplit : splitExtension (scriptPiece x ++ ".map".toList) =
      (scriptPiece x, some "map".toList) := by
    have hdot : ".map".toList = '.' :: "map".toList := by decide
    rw [hdot, splitExtension_append (by decide), if_neg hy.ne_nil]
  have hmapEnds : EndsIn (mapPath script) (scriptPiece x ++ ".map".toList) := hends.append (by decide)
  rw [hmapEnds.extension? hmap hmapname, hsplit, Option.map_some, String.ofList_toList]

/-- Scripts are written before source maps. -/
theorem mem_of_mapsLast {files written rest : List OutputFile} {f g : OutputFile}
    (h : mapsLast files = written ++ rest) (hf : f ∈ written) (hmap : isMap f = true)
    (hg : g ∈ files) (hscript : isMap g = false) : g ∈ written := by
  have hfirst : g ∈ files.filter (!isMap ·) := List.mem_filter.mpr ⟨hg, by simp [hscript]⟩
  rcases List.append_eq_append_iff.mp h with ⟨as, hwritten, -⟩ | ⟨as, hscripts, -⟩
  · rw [hwritten]
    exact List.mem_append_left _ hfirst
  · have hmem : f ∈ files.filter (!isMap ·) := hscripts ▸ List.mem_append_left _ hf
    simp [hmap] at hmem

/-- What is written for sources that are seen from one directory lies on names after something that is
common to all of it. -/
theorem exists_names_of_written {p : Program} {abs : Bool} {us : List (List Char)}
    (hus : ∀ x ∈ us, x = up)
    (hbelow : ∀ u ∈ p.units, u.path.isDeclaration = false → IsBelow abs us u.path)
    {written rest : List OutputFile} (hfiles : p.emit.files = written ++ rest)
    (hnamed : ∀ f ∈ written, f.path.IsNamed) :
    ∃ cs, ∀ f ∈ written, ∃ names : List String, f.path.components = cs ++ names.map .name := by
  obtain ⟨cs, qs, hlaid⟩ := exists_isLaid fun u hu hdecl => (hbelow u hu hdecl).exists_tidy
  refine ⟨cs ++ (us.drop qs.length).map componentOf, fun f hf => ?_⟩
  have hemit : f ∈ p.emit.files := hfiles ▸ List.mem_append_left _ hf
  obtain ⟨u, hu, hunit⟩ := mem_emit hemit
  obtain ⟨hdecl, script, hscriptMem, hscript, hpath⟩ := mem_unitFiles hunit
  obtain ⟨ps, hps, hplace⟩ := hlaid u hu hdecl
  obtain ⟨ns, hns, hnames⟩ := hbelow u hu hdecl
  obtain ⟨rs, hrs, hlies⟩ := hplace _ hscript
  -- what is left of the source are steps up that all sources have, and names
  have hsplit : rs = us.drop qs.length ++ ns.drop (qs.length - us.length) := by
    have hsame : us ++ ns = qs ++ rs := by rw [← hrs]; exact ((hns.same_iff hps).mp (same_refl _)).2
    rw [← List.drop_append, hsame, List.drop_left]
  have hnone := fun hscriptNamed => (hsplit ▸ hlies).exists_names
    (fun x hx => hus x (List.mem_of_mem_drop hx)) (fun x hx => hnames x (List.mem_of_mem_drop hx))
    hscriptNamed
  rcases hpath with hpath | hpath
  · obtain ⟨⟨names, -, heq⟩, -⟩ := hnone (hpath ▸ hnamed f hf)
    exact ⟨names, hpath ▸ heq⟩
  · by_cases hnil : rs = []
    · subst hnil
      obtain ⟨hdrop, -⟩ := List.append_eq_nil_iff.mp hsplit.symm
      have hmap : componentOf ".map".toList = .name ".map" := by decide
      exact ⟨[".map"], by rw [hpath, hlies.mapPath, hdrop]; simp [mapPieces, ← hmap]⟩
    · obtain ⟨hnotMap, hmap⟩ := isMap_of_lies hlies hnil fun x hx =>
        hps.loud x (hrs ▸ List.mem_append_right qs hx)
      have hbefore : script ∈ written := by
        rcases p.emit_files with hempty | hemitted
        · rw [hempty] at hemit
          cases hemit
        · refine mem_of_mapsLast (hemitted.symm.trans hfiles) hf ?_
            (List.mem_flatMap.mpr ⟨u, hu, hscriptMem⟩) ?_
          · simp [isMap, hpath, hmap]
          · simp [isMap, hnotMap]
      obtain ⟨-, names, -, heq⟩ := hnone (hnamed script hbefore)
      exact ⟨names, hpath ▸ heq⟩

end Program

/-! ## Writing -/

theorem Writes.isNamed {w w' : Workstation} {fs : List OutputFile} (h : Writes w fs w') :
    ∀ f ∈ fs, f.path.IsNamed := by
  induction h with
  | nil => nofun
  | cons hf _ ih =>
      obtain ⟨made, e, he, -⟩ := Workstation.exists_isFor_of_writeText hf
      exact List.forall_mem_cons.mpr ⟨he.isNamed, ih⟩

/-- Texts that are written to different places are all shown in the end. -/
theorem Writes.shows {w w' : Workstation} {fs : List OutputFile} (h : Writes w fs w')
    (hd : w.host.disk.Linkless) {cwd : Location} (hcwd : w.host.cwd = cwd)
    (hplaces : fs.Pairwise fun f g => f.path.resolveFrom cwd ≠ g.path.resolveFrom cwd) :
    w'.host.disk.Linkless ∧ (∀ f ∈ fs, w'.host.Shows f.path f.content) ∧
      ∀ p s, w.host.Shows p s → (∀ f ∈ fs, p.resolveFrom cwd ≠ f.path.resolveFrom cwd) →
        w'.host.Shows p s := by
  subst hcwd
  induction h with
  | nil => exact ⟨hd, nofun, fun _ _ hp _ => hp⟩
  | @cons w w₁ w' f fs hf _ ih =>
      have hwrite := Workstation.host_of_writeText hf
      have hcwd := Host.cwd_of_writeText hwrite
      obtain ⟨hd₁, hfirst, hframe⟩ := Host.shows_of_writeText hd hwrite
      obtain ⟨hnext, hplaces⟩ := List.pairwise_cons.mp hplaces
      rw [hcwd] at ih
      obtain ⟨hd', hrest, hkeep⟩ := ih hd₁ hplaces
      refine ⟨hd', List.forall_mem_cons.mpr ⟨hkeep _ _ hfirst hnext, hrest⟩, fun p s hp hne => ?_⟩
      obtain ⟨hne, hnes⟩ := List.forall_mem_cons.mp hne
      exact hkeep p s (hframe p s hp hne) hnes

theorem Stops.shows {w w' : Workstation} {rest : List OutputFile} {stop : Option Problem}
    (h : Stops w rest stop w') (hd : w.host.disk.Linkless) {p : Path} {s : String}
    (hp : w.host.Shows p s) : w'.host.Shows p s := by
  cases h with
  | finished => exact hp
  | failed hf => exact hp.of_writeText_error hd (Workstation.host_of_writeText hf)

/-- If the sources of a project are seen from one directory and no two have one path of their scripts,
the outputs of a program of it have different paths. On a disk without links every output that a
compilation reports is then found at its path. -/
theorem outputs_differ_and_are_found (compiler : Compiler) {h : Host} {config : Path}
    (hscripts : (Project.read h config).sources.Pairwise fun p q =>
      p.scriptPath.same q.scriptPath = false)
    (hanchor : ∀ p ∈ (Project.read h config).sources, ∀ q ∈ (Project.read h config).sources,
      p.anchor = q.anchor) :
    (∀ (h' : Host) (options : Options),
      (Program.build compiler h' (Project.read h config).fileNames options).emit.files.Pairwise
        fun f g => f.path.same g.path = false) ∧
    ∀ (checker : Option Path) (r : CompileRequest) (dir : Path) (w w' : Workstation)
      (c : Compilation), r.target = .ok (.project dir) → dir.child "tsconfig.json" = config →
      w.host = h → h.disk.Linkless →
      Compilation.ofRequest (compiler.engine checker) r w = (.ok c, w') →
      ∀ f ∈ c.outputFiles, w'.host.readText f.path = .ok f.content := by
  obtain ⟨abs, us, hus, hbelow⟩ := exists_isBelow
    (fun p hp => Project.normal_of_mem_fileNames (Project.mem_sources.mp hp).1) hanchor
  have hunits : ∀ (h' : Host) (options : Options),
      ∀ u ∈ (Program.build compiler h' (Project.read h config).fileNames options).units,
        u.path.isDeclaration = false → IsBelow abs us u.path := fun h' options u hu hdecl =>
    hbelow u.path (Project.mem_sources.mpr ⟨Program.mem_of_mem_units hu, hdecl⟩)
  have hdistinct : ∀ (h' : Host) (options : Options),
      (Program.build compiler h' (Project.read h config).fileNames options).emit.files.Pairwise
        fun f g => f.path.same g.path = false := by
    intro h' options
    have hnames : (Project.read h config).fileNames.Pairwise fun p q => p.isDeclaration = false →
        q.isDeclaration = false → p.scriptPath.same q.scriptPath = false := by
      unfold Project.sources at hscripts
      exact (List.pairwise_filter.mp hscripts).imp fun hpq hp hq => hpq (by simp [hp]) (by simp [hq])
    exact Program.pairwise_emit (fun u hu hdecl => (hunits h' options u hu hdecl).exists_tidy)
      (Program.pairwise_units hnames)
  refine ⟨hdistinct, fun checker r dir w w' c htarget hconfig hw hd hcompiled f hf => ?_⟩
  subst hw hconfig
  obtain ⟨target, found, left, htarget', hfinds, hcommit⟩ :=
    Compilation.exists_of_ofRequest hcompiled
  cases htarget.symm.trans htarget'
  obtain ⟨rest, stop, after, hfiles, hwrites, hstops, -⟩ := Draft.commit_eq hcommit
  rw [Finding.files_draft] at hfiles
  rcases hfinds.files_of_project with hnone | ⟨hleft, options, hemitted⟩
  · rw [hnone] at hfiles
    rw [(List.append_eq_nil_iff.mp hfiles.symm).1] at hf
    cases hf
  · rw [hemitted] at hfiles
    obtain ⟨cs, hnames⟩ := Program.exists_names_of_written hus (hunits w.host options) hfiles
      hwrites.isNamed
    -- different names after the same components lead to different places
    have hplaces : c.outputFiles.Pairwise fun f g =>
        f.path.resolveFrom w.host.cwd ≠ g.path.resolveFrom w.host.cwd := by
      have hpairs := (List.pairwise_append.mp (hfiles ▸ hdistinct w.host options)).1
      refine hpairs.imp_of_mem fun {f g} hf hg hne heq => ?_
      obtain ⟨names, hf⟩ := hnames f hf
      obtain ⟨names', hg⟩ := hnames g hg
      rw [resolveFrom_of_names hf, resolveFrom_of_names hg] at heq
      rw [List.append_cancel_left heq, ← hg] at hf
      exact of_decide_eq_false hne hf
    rw [← hleft] at hd hplaces
    obtain ⟨hd', hshown, -⟩ := hwrites.shows hd rfl hplaces
    exact (hstops.shows hd' (hshown f hf)).readText

/-- Two sources of a project with an output directory: scripts and source maps are all found. -/
theorem outputs_differ_and_are_found_of_two :
    let text := "\x7b\"compilerOptions\": \x7b\"outDir\": \"out\", \"sourceMap\": true\x7d, \"files\": [\"a.ts\", \"lib/b.tsx\"]\x7d"
    let h : Host :=
      { disk := ⟨[(["v"], .dir), (["v", "lib"], .dir),
          (["v", "tsconfig.json"], .file (.text text) none),
          (["v", "a.ts"], .file (.text "const a: number = 1;\n") none),
          (["v", "lib", "b.tsx"], .file (.text "const b: number = 2;\n") none)]⟩ }
    let compiler : Compiler := .smallMapping "AAAA,MAAM,IAAY"
    ∃ c w', Compilation.ofRequest (compiler.engine none) (.ofProject ⟨"/v"⟩) { host := h } =
        (.ok c, w') ∧
      c.outputFiles.map (·.path.text) =
        ["/v/out/a.js", "/v/out/lib/b.js", "/v/out/a.js.map", "/v/out/lib/b.js.map"] ∧
      ∀ f ∈ c.outputFiles, w'.host.readText f.path = .ok f.content := by
  intro text h compiler
  have hsources : (Project.read h ⟨"/v/tsconfig.json"⟩).sources = [⟨"/v/a.ts"⟩, ⟨"/v/lib/b.tsx"⟩] := by
    decide +kernel
  have hscripts : (Project.read h ⟨"/v/tsconfig.json"⟩).sources.Pairwise fun p q =>
      p.scriptPath.same q.scriptPath = false := by
    rw [hsources]
    decide +kernel
  have hanchor : ∀ p ∈ (Project.read h ⟨"/v/tsconfig.json"⟩).sources,
      ∀ q ∈ (Project.read h ⟨"/v/tsconfig.json"⟩).sources, p.anchor = q.anchor := by
    rw [hsources]
    decide +kernel
  have hlinks : h.disk.Linkless := Disk.linkless_of_all (by simp [h])
  have hconfig : (⟨"/v"⟩ : Path).child "tsconfig.json" = ⟨"/v/tsconfig.json"⟩ := by decide +kernel
  have hfiles : (Compilation.ofRequest (compiler.engine none) (.ofProject ⟨"/v"⟩)
      { host := h }).1.toOption.map (fun c => c.outputFiles.map (·.path.text)) =
      some ["/v/out/a.js", "/v/out/lib/b.js", "/v/out/a.js.map", "/v/out/lib/b.js.map"] := by
    decide +kernel
  obtain ⟨-, hfound⟩ := outputs_differ_and_are_found compiler hscripts hanchor
  obtain ⟨c, w', hresult, hpaths⟩ := exists_ok_of_toOption_map hfiles
  exact ⟨c, w', hresult, hpaths, hfound none _ ⟨"/v"⟩ _ w' c rfl hconfig rfl hlinks hresult⟩

/-- Scripts of one stem have one path, and only the last one is found there. So it is with sources that
are seen from different directories, and where a link joins two directories. -/
theorem outputs_of_one_place_collide :
    let stems : Host :=
      { disk := ⟨[(["v"], .dir),
          (["v", "tsconfig.json"], .file (.text "\x7b\"files\": [\"a.ts\", \"a.tsx\"]\x7d") none),
          (["v", "a.ts"], .file (.text "const a = 1;\n") none),
          (["v", "a.tsx"], .file (.text "const a = 2;\n") none)]⟩ }
    let mixed : Host :=
      { cwd := ["v"]
        disk := ⟨[(["v"], .dir), (["v", "out"], .dir),
          (["v", "tsconfig.json"], .file (.text "\x7b\"compilerOptions\": \x7b\"outDir\": \"out\"\x7d, \"files\": [\"/v/out/a.ts\", \"a.ts\"]\x7d") none),
          (["v", "out", "a.ts"], .file (.text "const a = 1;\n") none),
          (["v", "a.ts"], .file (.text "const a = 2;\n") none)]⟩ }
    let linked : Host :=
      { disk := ⟨[(["v"], .dir), (["v", "out"], .dir), (["v", "out", "x"], .dir),
          (["v", "out", "y"], .link ⟨"x"⟩), (["v", "x"], .dir), (["v", "y"], .dir),
          (["v", "tsconfig.json"], .file (.text "\x7b\"compilerOptions\": \x7b\"outDir\": \"out\"\x7d, \"files\": [\"x/a.ts\", \"y/a.ts\"]\x7d") none),
          (["v", "x", "a.ts"], .file (.text "const a = 1;\n") none),
          (["v", "y", "a.ts"], .file (.text "const a = 2;\n") none)]⟩ }
    let project := Project.read stems ⟨"/v/tsconfig.json"⟩
    let lost := fun (h : Host) (dir : Path) =>
      let result := Compilation.ofRequest (Engine.onHost none) (.ofProject dir) { host := h }
      result.1.toOption.map fun c => (c.outputFiles.filter fun f =>
        (result.2.host.readText f.path).toOption ≠ some f.content).map fun f => (f.path.text, f.content)
    project.errors.length = 0 ∧
      (Program.build .small stems project.fileNames project.options).emit.files.map (·.path.text) =
        ["/v/a.js", "/v/a.js"] ∧
      lost stems ⟨"/v"⟩ = some [("/v/a.js", "const a = 1;\n")] ∧
      lost mixed ⟨"."⟩ = some [("/v/out/a.js", "const a = 1;\n")] ∧
      lost linked ⟨"/v"⟩ = some [("/v/out/x/a.js", "const a = 1;\n")] := by
  decide +kernel

end ScriptWorks
