import ScriptWorks.Small.Compiler
import ScriptWorks.Proofs.Program.Layout

/-!
# Outputs in the output directory

The directory of all sources lies above each of them if they are seen from one directory. What is left
of a source below it is written with names, and so is what is written for it below the output
directory.
-/

namespace ScriptWorks

open ScriptWorks.Path

namespace Program

variable {abs : Bool} {us ps ds ns : List (List Char)}

/-! ## The directory of all sources -/

theorem tidy_dirOf {p : Path} (h : Tidy p abs (us ++ ns)) (hns : ns ≠ []) :
    Tidy (dirOf p) abs (us ++ ns.dropLast) := by
  obtain ⟨q, hq, hdir⟩ := h.parent? (by simp [hns])
  rw [List.dropLast_append_of_ne_nil hns] at hdir
  unfold dirOf
  rwa [hq]

/-- What two directories below one have in common lies below it. -/
theorem tidy_commonDir {current dir : Path} (hcurrent : Tidy current abs (us ++ ps))
    (hdir : Tidy dir abs (us ++ ds)) :
    ∃ rs, rs <+: ps ∧ rs <+: ds ∧ Tidy (commonDir current dir) abs (us ++ rs) := by
  obtain ⟨rs, a, hrs, hfind, ha⟩ :=
    hcurrent.find?_ancestors fun q hq => hdir.startsWith hq
  have hstarts := List.find?_some hfind
  refine ⟨rs, hrs, ?_, by unfold commonDir; rwa [hfind]⟩
  rcases hdir.of_startsWith ha hstarts with ⟨-, hprefix⟩ | ⟨-, hnil⟩
  · exact (List.prefix_append_right_inj us).mp hprefix
  · rw [(List.append_eq_nil_iff.mp hnil).2]
    exact List.nil_prefix

theorem tidy_foldl_commonDir {current : Path} {dirs : List Path}
    (hcurrent : Tidy current abs (us ++ ps)) (hdirs : ∀ dir ∈ dirs, ∃ ds, Tidy dir abs (us ++ ds)) :
    ∃ rs, rs <+: ps ∧ (∀ dir ∈ dirs, ∀ ds, Tidy dir abs (us ++ ds) → rs <+: ds) ∧
      Tidy (dirs.foldl commonDir current) abs (us ++ rs) := by
  induction dirs generalizing current ps with
  | nil => exact ⟨ps, List.prefix_refl ps, nofun, hcurrent⟩
  | cons dir dirs ih =>
      obtain ⟨⟨ds, hdir⟩, hdirs⟩ := List.forall_mem_cons.mp hdirs
      obtain ⟨rs, hps, hds, hcommon⟩ := tidy_commonDir hcurrent hdir
      obtain ⟨ts, hts, hrest, hall⟩ := ih hcommon hdirs
      refine ⟨ts, hts.trans hps, List.forall_mem_cons.mpr ⟨fun ds' hdir' => ?_, hrest⟩, hall⟩
      have hsame := ((hdir.same_iff hdir').mp (same_refl dir)).2
      rw [← List.append_cancel_left hsame]
      exact hts.trans hds

theorem exists_sourceDir {p : Program} {u : SourceUnit} (hu : u ∈ p.units)
    (hdecl : u.path.isDeclaration = false) : ∃ dir, p.sourceDir = some dir := by
  unfold sourceDir
  split
  · rename_i hnone
    have hmem : dirOf u.path ∈ (p.units.filter (!·.path.isDeclaration)).map fun u => dirOf u.path :=
      List.mem_map.mpr ⟨u, List.mem_filter.mpr ⟨hu, by simp [hdecl]⟩, rfl⟩
    rw [hnone] at hmem
    cases hmem
  · exact ⟨_, rfl⟩

/-- Something is left of every source below the directory of all sources. -/
theorem tidy_sourceDir {p : Program} {root : Path}
    (hbelow : ∀ u ∈ p.units, u.path.isDeclaration = false →
      ∃ ns, ns ≠ [] ∧ Tidy u.path abs (us ++ ns)) (hroot : p.sourceDir = some root) :
    ∃ rr, Tidy root abs (us ++ rr) ∧ ∀ u ∈ p.units, u.path.isDeclaration = false →
      ¬ Tidy u.path abs (us ++ rr) := by
  unfold sourceDir at hroot
  split at hroot
  · cases hroot
  · rename_i dir dirs hlist
    cases hroot
    have hmem : ∀ d, d ∈ dir :: dirs ↔ ∃ u ∈ p.units, u.path.isDeclaration = false ∧
        dirOf u.path = d := by
      intro d
      simp [← hlist, and_assoc]
    have hdirs : ∀ d ∈ dir :: dirs, ∃ ds, Tidy d abs (us ++ ds) := by
      intro d hd
      obtain ⟨u, hu, hdecl, rfl⟩ := (hmem d).mp hd
      obtain ⟨ns, hne, hns⟩ := hbelow u hu hdecl
      exact ⟨_, tidy_dirOf hns hne⟩
    obtain ⟨⟨ps, hdir⟩, hdirs⟩ := List.forall_mem_cons.mp hdirs
    obtain ⟨rr, hps, hrest, hroot⟩ := tidy_foldl_commonDir hdir hdirs
    refine ⟨rr, hroot, fun u hu hdecl hsame => ?_⟩
    obtain ⟨ns, hne, hns⟩ := hbelow u hu hdecl
    obtain rfl := List.append_cancel_left ((hns.same_iff hsame).mp (same_refl _)).2
    have hdirOf := tidy_dirOf hns hne
    have hprefix : ns <+: ns.dropLast := by
      rcases List.mem_cons.mp ((hmem _).mpr ⟨u, hu, hdecl, rfl⟩) with heq | hd
      · rw [heq] at hdirOf
        have hsame := ((hdir.same_iff hdirOf).mp (same_refl dir)).2
        rwa [← List.append_cancel_left hsame]
      · exact hrest _ hd _ hdirOf
    have hle := hprefix.length_le
    have hpos := List.length_pos_iff.mpr hne
    rw [List.length_dropLast] at hle
    omega

/-! ## Outputs -/

/-- A source whose script has a name has one itself. -/
theorem ne_nil_of_isNamed {p : Path} (hus : ∀ x ∈ us, x = up) (hp : Tidy p abs (us ++ ns))
    (hnamed : p.scriptPath.fileName? ≠ none) : ns ≠ [] := by
  rintro rfl
  have hscript := hp.scriptPath
  rw [List.append_nil] at hscript
  rcases List.eq_nil_or_concat us with rfl | ⟨us, x, rfl⟩
  · exact hnamed hscript.fileName?_nil
  · have hx : x = up := hus x (by simp)
    rw [List.concat_eq_append, scriptPieces_concat, hx, scriptPiece, withPiece_up] at hscript
    refine hnamed ?_
    unfold fileName?
    rw [hscript.endsIn.last? hscript.last_loud]
    rfl

/-- The script and the source map of a source that is seen from above the root directory lie on names
below the output directory. -/
theorem exists_names_of_scriptPath {out root p script : Path} {oabs : Bool}
    {os rr : List (List Char)} (hout : Tidy out oabs os) (hroot : Tidy root abs (us ++ rr))
    (hp : Tidy p abs (us ++ ns)) (hns : ∀ x ∈ ns, x ≠ up) (hne : ns ≠ rr)
    (hnamed : p.scriptPath.fileName? ≠ none)
    (h : scriptPath (some out) (some root) p = .ok script) :
    (∃ names : List String, names ≠ [] ∧ script.components = out.components ++ names.map .name) ∧
      ∃ names : List String, names ≠ [] ∧
        (mapPath script).components = out.components ++ names.map .name := by
  obtain ⟨rs, hrs, hlies⟩ := scriptPath_lies hout hroot hp h
  rw [List.append_assoc] at hrs
  obtain rfl := List.append_cancel_left hrs
  have hrs : rs ≠ [] := fun hnil => hne (by rw [hnil, List.append_nil])
  -- the script ends as the one beside the source does
  have hscript := hp.scriptPath
  rw [← List.append_assoc, scriptPieces_append hrs] at hscript
  obtain ⟨ts, x, hts⟩ := List.eq_nil_or_concat (scriptPieces rs) |>.resolve_left (by
    obtain ⟨rs, z, rfl⟩ := List.eq_nil_or_concat rs |>.resolve_left hrs
    simp)
  have hends := hlies.endsIn
  rw [hts, List.concat_eq_append, List.getLast?_concat, Option.getD_some] at hends
  rw [hts, List.concat_eq_append, ← List.append_assoc] at hscript
  have hx : x ≠ up := by
    rintro rfl
    refine hnamed ?_
    unfold fileName?
    rw [hscript.endsIn.last? hscript.last_loud]
    rfl
  have hplain : ∀ x ∈ rs, x ≠ up := fun x hx => hns x (List.mem_append_right rr hx)
  have hlies : Lies out.components (scriptPieces ([] ++ rs)) script := hlies
  simpa using hlies.exists_names nofun hplain ⟨x, hends, hscript.last_loud, hx⟩

end Program

/-- The sources are seen from one directory. If a root directory is set, those in it are seen from where it
is seen from, and it is none of them. -/
structure Project.IsSeen (p : Project) (rootDir : Option Path) : Prop where
  alike : rootDir = none → ∀ q ∈ p.sources, ∀ q' ∈ p.sources, q.anchor = q'.anchor
  inside : ∀ dir ∈ rootDir, ∀ q ∈ p.sources, q.startsWith dir = true →
    q.anchor = dir.anchor ∧ q.same dir = false

/-- Sources that are seen from one directory, and their root directory, are written alike up to names, and
the root directory is none of them. -/
theorem Program.exists_below {compiler : Compiler} {h : Host} {config : Path} {options : Options}
    (hseen : (Project.read h config).IsSeen
      ((options.text? .rootDir).map fun dir => (⟨dir⟩ : Path).normalize))
    (hnamed : ∀ p ∈ (Project.read h config).sources, p.scriptPath.fileName? ≠ none) {h' : Host}
    {u : SourceUnit} (hu : u ∈ (build compiler h' (Project.read h config).fileNames options).units)
    (hdecl : u.path.isDeclaration = false) :
    ∃ root, (build compiler h' (Project.read h config).fileNames options).rootDir = some root ∧
      (u.path.startsWith root = true → ∃ abs us ns rr, Tidy root abs (us ++ rr) ∧
        Tidy u.path abs (us ++ ns) ∧ (∀ x ∈ ns, x ≠ up) ∧ ns ≠ rr) := by
  have hsource : ∀ v ∈ (build compiler h' (Project.read h config).fileNames options).units,
      v.path.isDeclaration = false → v.path ∈ (Project.read h config).sources := fun v hv hdecl =>
    Project.mem_sources.mpr ⟨mem_of_mem_units hv, hdecl⟩
  have hnormal : ∀ p ∈ (Project.read h config).sources, ∃ q : Path, p = q.normalize := fun p hp =>
    Project.normal_of_mem_fileNames (Project.mem_sources.mp hp).1
  unfold rootDir
  have hoptions : (build compiler h' (Project.read h config).fileNames options).options = options := rfl
  rw [hoptions]
  cases hdir : options.text? .rootDir with
  | some dir =>
      refine ⟨_, rfl, fun hstarts => ?_⟩
      rw [hdir] at hseen
      obtain ⟨hanchor, hdiffer⟩ := hseen.inside _ rfl _ (hsource u hu hdecl) hstarts
      have hboth : ∀ p ∈ [u.path, (⟨dir⟩ : Path).normalize], ∃ q : Path, p = q.normalize :=
        List.forall_mem_cons.mpr
          ⟨hnormal _ (hsource u hu hdecl), List.forall_mem_singleton.mpr ⟨_, rfl⟩⟩
      obtain ⟨abs, us, -, hbelow⟩ := exists_isBelow hboth (by simp [hanchor])
      obtain ⟨ns, hns, hnames⟩ := hbelow u.path List.mem_cons_self
      obtain ⟨rr, hrr, -⟩ := hbelow _ (List.mem_cons_of_mem _ List.mem_cons_self)
      refine ⟨abs, us, ns, rr, hrr, hns, hnames, fun heq => ?_⟩
      rw [(hns.same_iff hrr).mpr ⟨rfl, by rw [heq]⟩] at hdiffer
      cases hdiffer
  | none =>
      rw [hdir] at hseen
      obtain ⟨abs, us, hus, hbelow⟩ := exists_isBelow hnormal (hseen.alike rfl)
      have hunits : ∀ v ∈ (build compiler h' (Project.read h config).fileNames options).units,
          v.path.isDeclaration = false → ∃ ns, ns ≠ [] ∧ Tidy v.path abs (us ++ ns) := by
        intro v hv hdecl
        obtain ⟨ns, hns, -⟩ := hbelow _ (hsource v hv hdecl)
        exact ⟨ns, ne_nil_of_isNamed hus hns (hnamed _ (hsource v hv hdecl)), hns⟩
      obtain ⟨root, hroot⟩ := exists_sourceDir hu hdecl
      refine ⟨root, hroot, fun _ => ?_⟩
      obtain ⟨rr, hrr, hdiffer⟩ := tidy_sourceDir hunits hroot
      obtain ⟨ns, hns, hnames⟩ := hbelow _ (hsource u hu hdecl)
      exact ⟨abs, us, ns, rr, hrr, hns, hnames, fun heq => hdiffer u hu hdecl (heq ▸ hns)⟩

/-- Outputs of sources that are seen from one directory lie below the output directory, if that one is
absolute or written in normal form. -/
theorem outputs_lie_below_outDir {h : Host} {config : Path} {options : Options} {out : String}
    (hout : options.text? .outDir = some out)
    (hnormal : (⟨out⟩ : Path).isAbsolute = true ∨ (⟨out⟩ : Path).normalize.same ⟨out⟩ = true)
    (hseen : (Project.read h config).IsSeen
      ((options.text? .rootDir).map fun dir => (⟨dir⟩ : Path).normalize))
    (hnamed : ∀ p ∈ (Project.read h config).sources, p.scriptPath.fileName? ≠ none)
    (compiler : Compiler) (h' : Host) (cwd : Location) :
    ∀ f ∈ (Program.build compiler h' (Project.read h config).fileNames options).emit.files,
      ∃ names, names ≠ [] ∧ f.path.resolveFrom cwd = (⟨out⟩ : Path).resolveFrom cwd ++ names := by
  intro f hf
  obtain ⟨u, hu, hunit⟩ := Program.mem_emit hf
  obtain ⟨hdecl, script, -, hscript, hpath⟩ := Program.mem_unitFiles hunit
  obtain ⟨root, hroot, hbelow⟩ := Program.exists_below hseen hnamed hu hdecl
  have hdir : (Program.build compiler h' (Project.read h config).fileNames options).outDir =
      some (⟨out⟩ : Path).normalize := by
    have hoptions :
        (Program.build compiler h' (Project.read h config).fileNames options).options = options := rfl
    rw [Program.outDir, hoptions, hout]
    rfl
  rw [hdir, hroot] at hscript
  have hstarts : u.path.startsWith root = true := by
    cases hstarts : u.path.startsWith root with
    | true => rfl
    | false => simp [Program.scriptPath, stripPrefix?, hstarts] at hscript
  obtain ⟨abs, us, ns, rr, hrr, hns, hnames, hne⟩ := hbelow hstarts
  obtain ⟨os, hos, -⟩ := (⟨out⟩ : Path).exists_tidy_normalize
  have hname := hnamed _ (Project.mem_sources.mpr ⟨Program.mem_of_mem_units hu, hdecl⟩)
  have hplaces := Program.exists_names_of_scriptPath hos hrr hns hnames hne hname hscript
  obtain ⟨names, hnonempty, hcomponents⟩ : ∃ names : List String, names ≠ [] ∧
      f.path.components = (⟨out⟩ : Path).normalize.components ++ names.map .name := by
    rcases hpath with heq | heq <;> rw [heq]
    · exact hplaces.1
    · exact hplaces.2
  refine ⟨names, hnonempty, ?_⟩
  have hsame : (⟨out⟩ : Path).normalize.resolveFrom cwd = (⟨out⟩ : Path).resolveFrom cwd := by
    rcases hnormal with habs | hsame
    · exact resolveFrom_normalize habs cwd
    · unfold resolveFrom
      rw [of_decide_eq_true hsame]
  rw [resolveFrom_of_names hcomponents, ← hsame]
  rfl

/-- The project of the sources `a.ts` and `lib/b.ts` in the working directory. -/
theorem outputs_lie_below_outDir_of_two :
    let text := "\x7b\"compilerOptions\": \x7b\"outDir\": \"dist\"\x7d, \"files\": [\"a.ts\", \"lib/b.ts\"]\x7d"
    let h : Host :=
      { cwd := ["v"]
        disk := ⟨[(["v"], .dir), (["v", "lib"], .dir),
          (["v", "tsconfig.json"], .file (.text text) none),
          (["v", "a.ts"], .file (.text "const a = 1;\n") none),
          (["v", "lib", "b.ts"], .file (.text "const b = 2;\n") none)]⟩ }
    (Project.read h ⟨"./tsconfig.json"⟩).sources = [⟨"a.ts"⟩, ⟨"lib/b.ts"⟩] ∧
      ∀ f ∈ (Program.build .small h (Project.read h ⟨"./tsconfig.json"⟩).fileNames
          (Project.read h ⟨"./tsconfig.json"⟩).options).emit.files,
        ∃ names, names ≠ [] ∧ f.path.resolveFrom ["v"] = ["v", "dist"] ++ names := by
  intro text h
  have hsources : (Project.read h ⟨"./tsconfig.json"⟩).sources = [⟨"a.ts"⟩, ⟨"lib/b.ts"⟩] := by
    decide +kernel
  have hroot : (Project.read h ⟨"./tsconfig.json"⟩).options.text? .rootDir = none := by
    decide +kernel
  have hout : (Project.read h ⟨"./tsconfig.json"⟩).options.text? .outDir = some "dist" := by
    decide +kernel
  have hnormal : (⟨"dist"⟩ : Path).isAbsolute = true ∨
      (⟨"dist"⟩ : Path).normalize.same ⟨"dist"⟩ = true := .inr (by decide +kernel)
  have hseen : (Project.read h ⟨"./tsconfig.json"⟩).IsSeen
      (((Project.read h ⟨"./tsconfig.json"⟩).options.text? .rootDir).map fun dir =>
        (⟨dir⟩ : Path).normalize) := by
    rw [hroot]
    refine ⟨fun _ => ?_, nofun⟩
    rw [hsources]
    decide +kernel
  have hnamed : ∀ p ∈ (Project.read h ⟨"./tsconfig.json"⟩).sources,
      p.scriptPath.fileName? ≠ none := by
    rw [hsources]
    decide +kernel
  have hplace : (⟨"dist"⟩ : Path).resolveFrom ["v"] = ["v", "dist"] := by decide +kernel
  rw [← hplace]
  exact ⟨hsources, outputs_lie_below_outDir hout hnormal hseen hnamed .small h ["v"]⟩

/-- An absolute file beside a relative one is compiled out of the output directory. So it is with files
above the working directory beside others, with a root directory that is a source, with a source
`..ts`, and with an output directory that begins with two steps up. -/
theorem outputs_outside_of_outDir :
    let emitted := fun (options : String) (names : String) (sources : List Location) =>
      let h : Host :=
        { cwd := ["v", "w"]
          disk := ⟨[(["v"], .dir), (["v", "w"], .dir), (["v", "w", "lib"], .dir),
            (["v", "w", "tsconfig.json"], .file (.text ("\x7b\"compilerOptions\": \x7b" ++ options ++
              "\x7d, \"files\": [" ++ names ++ "]\x7d")) none)] ++
            sources.map (·, .file (.text "const a = 1;\n") none)⟩ }
      let project := Project.read h ⟨"tsconfig.json"⟩
      (project.errors.length, (Program.build .small h project.fileNames project.options).emit.files.map
        fun f => (f.path.text, f.path.resolveFrom h.cwd))
    emitted "\"outDir\": \"dist\"" "\"/v/w/lib/a.ts\", \"b.ts\"" [["v", "w", "lib", "a.ts"], ["v", "w", "b.ts"]] =
        (0, [("/v/w/lib/a.js", ["v", "w", "lib", "a.js"]), ("dist/b.js", ["v", "w", "dist", "b.js"])]) ∧
      emitted "\"outDir\": \"dist\"" "\"../a.ts\", \"b.ts\"" [["v", "a.ts"], ["v", "w", "b.ts"]] =
        (0, [("dist/../a.js", ["v", "w", "a.js"]), ("dist/b.js", ["v", "w", "dist", "b.js"])]) ∧
      emitted "\"outDir\": \"dist\", \"rootDir\": \"b.ts\"" "\"b.ts\"" [["v", "w", "b.ts"]] =
        (0, [("dist/", ["v", "w", "dist"])]) ∧
      emitted "\"outDir\": \"dist\"" "\"..ts\"" [["v", "w", "..ts"]] =
        (0, [("dist/..", ["v", "w"])]) ∧
      emitted "\"outDir\": \"../../dist\"" "\"b.ts\"" [["v", "w", "b.ts"]] =
        (0, [("dist/b.js", ["v", "w", "dist", "b.js"])]) ∧
      (⟨"../../dist"⟩ : Path).resolveFrom ["v", "w"] = ["dist"] := by
  decide +kernel

end ScriptWorks
