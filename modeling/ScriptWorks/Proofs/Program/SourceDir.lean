import ScriptWorks.Proofs.FileSystem.Spelling
import ScriptWorks.Proofs.Program.Inside

/-!
# The directory of all sources

The root directory of a program of absolute sources is the nearest directory above all of them. So it
does not depend on their order, no source lies outside of it, and the outputs keep its layout.
-/

namespace ScriptWorks

open ScriptWorks.Path

/-! ## Nearest common directories -/

/-- The path is above all the others, and no longer one is. -/
structure Path.IsNearestAbove (dir : Path) (ps : List Path) : Prop where
  above : ∀ p ∈ ps, p.startsWith dir = true
  nearest : ∀ q : Path, (∀ p ∈ ps, p.startsWith q = true) → dir.startsWith q = true

namespace Path

variable {p q : Path} {ps : List (List Char)}

theorem startsWith_iff : p.startsWith q = true ↔ q.components <+: p.components :=
  List.isPrefixOf_iff_prefix

/-- What an absolute tidy path begins with is empty, or the root and some of its pieces. -/
theorem Tidy.components_of_startsWith (hp : Tidy p true ps) (h : p.startsWith q = true) :
    q.components = [] ∨ ∃ qs, qs <+: ps ∧ q.components = .root :: qs.map componentOf := by
  have hprefix : q.components <+: .root :: ps.map componentOf := by
    have hprefix := startsWith_iff.mp h
    rwa [hp.components] at hprefix
  rcases List.prefix_cons_iff.mp hprefix with hnil | ⟨cs, hq, hcs⟩
  · exact .inl hnil
  · obtain ⟨rest, hrest⟩ := hcs
    obtain ⟨qs, rs, rfl, hqs, -⟩ := List.map_eq_append_iff.mp hrest.symm
    exact .inr ⟨qs, List.prefix_append qs rs, by rw [hq, hqs]⟩

theorem Tidy.startsWith_of_components {qs : List (List Char)} (hp : Tidy p true (qs ++ ps))
    (hq : q.components = .root :: qs.map componentOf) : p.startsWith q = true := by
  rw [startsWith_iff, hp.components, hq, List.map_append]
  exact List.prefix_append (.root :: qs.map componentOf) _

/-- Two tidy paths that begin with each other are one. -/
theorem Tidy.eq_of_startsWith {qs : List (List Char)} (hp : Tidy p true ps) (hq : Tidy q true qs)
    (h : p.startsWith q = true) (h' : q.startsWith p = true) : p = q := by
  rw [startsWith_iff] at h h'
  have heq := h'.eq_of_length_le h.length_le
  obtain ⟨-, rfl⟩ := hp.eq_of_components hq heq
  rw [hp.eq, hq.eq]

end Path

namespace Program

variable {p : Program}

/-- The directory that the fold arrives at is the nearest one above all directories. -/
theorem isNearestAbove_foldl {current : Path} {dirs : List Path}
    (hdirs : ∀ d ∈ current :: dirs, ∃ ds, Tidy d true ds) :
    (∃ rs, Tidy (dirs.foldl commonDir current) true rs) ∧
      (dirs.foldl commonDir current).IsNearestAbove (current :: dirs) := by
  obtain ⟨⟨ps, hcurrent⟩, hrest⟩ := List.forall_mem_cons.mp hdirs
  obtain ⟨rs, hps, hds, hcommon⟩ :=
    tidy_foldl_commonDir (show Tidy current true ([] ++ ps) from hcurrent) hrest
  refine ⟨⟨rs, hcommon⟩, List.forall_mem_cons.mpr ⟨?_, fun d hd => ?_⟩, fun q hq => ?_⟩
  · obtain ⟨ts, rfl⟩ := hps
    exact hcurrent.startsWith hcommon
  · obtain ⟨ds, hd'⟩ := hrest d hd
    obtain ⟨ts, rfl⟩ := hds d hd ds hd'
    exact hd'.startsWith hcommon
  -- all directories are written below the other one, and so is what they have in common
  · rcases hcurrent.components_of_startsWith (hq current List.mem_cons_self) with hnil | ⟨qs, hqs, hq'⟩
    · rw [startsWith_iff, hnil]
      exact List.nil_prefix
    · have hbelow : ∀ d ∈ current :: dirs, ∃ ds, Tidy d true (qs ++ ds) := by
        intro d hd
        obtain ⟨ds, htidy⟩ := hdirs d hd
        rcases htidy.components_of_startsWith (hq d hd) with hnil | ⟨qs', ⟨ts, rfl⟩, hsame⟩
        · rw [hnil] at hq'
          cases hq'
        · rw [hq', List.cons.injEq, map_componentOf_inj] at hsame
          exact ⟨ts, hsame.2 ▸ htidy⟩
      obtain ⟨⟨ps', hcurrent'⟩, hrest'⟩ := List.forall_mem_cons.mp hbelow
      obtain ⟨rs', -, -, hcommon'⟩ := tidy_foldl_commonDir hcurrent' hrest'
      exact hcommon'.startsWith_of_components hq'

/-- The sources of a program that are compiled. -/
def sources (p : Program) : List SourceUnit := p.units.filter (!·.path.isDeclaration)

theorem mem_sources {u : SourceUnit} : u ∈ p.sources ↔ u ∈ p.units ∧ u.path.isDeclaration = false := by
  simp [sources]

/-- The sources have absolute tidy paths with names. -/
def IsAbsolute (p : Program) : Prop := ∀ u ∈ p.units, ∃ ps, ps ≠ [] ∧ Tidy u.path true ps

theorem isAbsolute_build {compiler : Compiler} {h : Host} {files : List Path} {options : Options}
    (hfiles : ∀ q ∈ files, q.isAbsolute = true ∧ ∃ r : Path, q = r.normalize) :
    (build compiler h files options).IsAbsolute := by
  intro u hu
  obtain ⟨habs, r, hr⟩ := hfiles _ (mem_of_mem_units hu)
  obtain ⟨ps, htidy, -⟩ := r.exists_tidy_normalize
  rw [← hr] at htidy
  rw [← htidy.isAbsolute, habs] at htidy
  refine ⟨ps, ?_, htidy⟩
  -- the root is no file
  rintro rfl
  obtain ⟨result, hresult, hok⟩ := List.mem_filterMap.mp hu
  obtain ⟨q, -, rfl⟩ := List.mem_map.mp hresult
  have hunit := toOption_eq_some.mp hok
  have hpath := path_of_readUnit hunit
  unfold readUnit at hunit
  split at hunit
  case h_2 => cases hunit
  case h_1 text hread =>
    obtain ⟨x, hends, hx⟩ := Host.endsIn_of_isFile (Host.isFile_of_readText (hpath ▸ hread))
    have hlast : u.path.last? = some (componentOf x) := hends.last? hx
    rw [Path.last?, htidy.components] at hlast
    exact componentOf_ne_root x (Option.some.inj hlast).symm

theorem sourceDir_eq_none_iff : p.sourceDir = none ↔ p.sources = [] := by
  unfold sourceDir sources
  cases p.units.filter (!·.path.isDeclaration) <;> simp

/-- The directory of all sources is absolute, and the nearest one above their directories. -/
theorem IsAbsolute.isNearestAbove (hp : p.IsAbsolute) {dir : Path} (hdir : p.sourceDir = some dir) :
    (∃ rs, Tidy dir true rs) ∧ dir.IsNearestAbove (p.sources.map fun u => dirOf u.path) := by
  have hdirs : ∀ d ∈ p.sources.map (fun u => dirOf u.path), ∃ ds, Tidy d true ds := by
    intro d hd
    obtain ⟨u, hu, rfl⟩ := List.mem_map.mp hd
    obtain ⟨ps, hps, htidy⟩ := hp u (mem_sources.mp hu).1
    exact ⟨_, tidy_dirOf (show Tidy u.path true ([] ++ ps) from htidy) hps⟩
  unfold sourceDir at hdir
  split at hdir
  case h_1 => cases hdir
  case h_2 current dirs hlist =>
    have hlist : p.sources.map (fun u => dirOf u.path) = current :: dirs := hlist
    cases hdir
    rw [hlist] at hdirs ⊢
    exact isNearestAbove_foldl hdirs

/-- A program of the same sources has the same directory of all sources. -/
theorem IsAbsolute.sourceDir_congr {p' : Program} (hp : p.IsAbsolute) (hp' : p'.IsAbsolute)
    (hsame : ∀ u, u ∈ p.sources ↔ u ∈ p'.sources) : p.sourceDir = p'.sourceDir := by
  have hdirs : ∀ d, d ∈ p.sources.map (fun u => dirOf u.path) ↔
      d ∈ p'.sources.map (fun u => dirOf u.path) := by
    intro d
    simp only [List.mem_map, hsame]
  cases hdir : p.sourceDir with
  | none =>
      refine (sourceDir_eq_none_iff.mpr (List.eq_nil_iff_forall_not_mem.mpr fun u hu => ?_)).symm
      rw [← hsame, sourceDir_eq_none_iff.mp hdir] at hu
      cases hu
  | some dir =>
      cases hdir' : p'.sourceDir with
      | none =>
          have hnil : p.sources = [] := List.eq_nil_iff_forall_not_mem.mpr fun u hu => by
            rw [hsame, sourceDir_eq_none_iff.mp hdir'] at hu
            cases hu
          rw [sourceDir_eq_none_iff.mpr hnil] at hdir
          cases hdir
      | some dir' =>
          obtain ⟨⟨rs, htidy⟩, hnearest⟩ := hp.isNearestAbove hdir
          obtain ⟨⟨rs', htidy'⟩, hnearest'⟩ := hp'.isNearestAbove hdir'
          refine congrArg some (htidy.eq_of_startsWith htidy' ?_ ?_)
          · exact hnearest.nearest dir' fun d hd => hnearest'.above d ((hdirs d).mp hd)
          · exact hnearest'.nearest dir fun d hd => hnearest.above d ((hdirs d).mpr hd)

theorem mem_units_build {compiler : Compiler} {h : Host} {files : List Path} {options : Options}
    {u : SourceUnit} :
    u ∈ (build compiler h files options).units ↔
      ∃ q ∈ files, readUnit compiler h options q = .ok u := by
  simp [build, toOption_eq_some]

/-! ## Outputs -/

/-- The path from a directory to a source below it leads to the source, and so does the path to its
script. -/
theorem exists_rel {dir q : Path} {rs ps : List (List Char)} (hdir : Tidy dir true rs)
    (hq : Tidy q true ps) (hps : ps ≠ []) (habove : (dirOf q).startsWith dir = true) :
    ∃ rel, q.stripPrefix? dir = some rel ∧ rel.isAbsolute = false ∧ dir.join rel = q ∧
      dir.join rel.scriptPath = q.scriptPath := by
  have hprefix : rs <+: ps.dropLast := by
    have hdirOf := tidy_dirOf (show Tidy q true ([] ++ ps) from hq) hps
    rcases hdirOf.of_startsWith hdir habove with ⟨-, hprefix⟩ | ⟨habs, -⟩
    · exact hprefix
    · cases habs
  obtain ⟨ts, hts⟩ := hprefix.trans (List.dropLast_prefix ps)
  have hstarts : q.startsWith dir = true := (hts ▸ hq).startsWith hdir
  obtain ⟨rel, hrel⟩ : ∃ rel, q.stripPrefix? dir = some rel := by
    unfold stripPrefix?
    rw [if_pos hstarts]
    split <;> exact ⟨_, rfl⟩
  obtain ⟨ts, hts, htidy⟩ : ∃ ts, ps = rs ++ ts ∧ Tidy rel false ts := by
    rcases hq.of_stripPrefix? hdir hrel with ⟨-, hrest⟩ | ⟨habs, -⟩
    · exact hrest
    · cases habs
  have hne : ts ≠ [] := by
    rintro rfl
    have hlength := hprefix.length_le
    rw [hts, List.append_nil, List.length_dropLast] at hlength
    rw [hts, List.append_nil] at hps
    have hpos := List.length_pos_iff.mpr hps
    omega
  have hscripts : scriptPieces ts ≠ [] := by
    obtain ⟨ts, x, rfl⟩ := List.eq_nil_or_concat ts |>.resolve_left hne
    simp
  have hjoin := hdir.join htidy hne
  have hscript := hdir.join htidy.scriptPath hscripts
  have hbeside := hq.scriptPath
  rw [hts, scriptPieces_append hne] at hbeside
  refine ⟨rel, hrel, htidy.isAbsolute, ?_, ?_⟩
  · rw [hjoin.eq, hq.eq, hts]
  · rw [hscript.eq, hbeside.eq]

/-- The path from the directory of all sources to one of them leads to the source. -/
theorem IsAbsolute.exists_rel {dir : Path} {u : SourceUnit} (hp : p.IsAbsolute)
    (hdir : p.sourceDir = some dir) (hu : u ∈ p.sources) :
    ∃ rel, u.path.stripPrefix? dir = some rel ∧ rel.isAbsolute = false ∧ dir.join rel = u.path ∧
      dir.join rel.scriptPath = u.path.scriptPath := by
  obtain ⟨⟨rs, htidy⟩, hnearest⟩ := hp.isNearestAbove hdir
  obtain ⟨ps, hps, hpath⟩ := hp u (mem_sources.mp hu).1
  exact Program.exists_rel htidy hpath hps (hnearest.above _ (List.mem_map.mpr ⟨u, hu, rfl⟩))

theorem emit_of_skipped (h : p.emit.skipped = true) : p.emit.files = [] := by
  unfold emit at h ⊢
  split
  · rfl
  · rename_i hemit
    rw [if_neg hemit] at h
    split
    · rfl
    · rename_i hclean
      rw [if_neg hclean] at h
      cases h

end Program

/-- The source map and the script of a source, for a path of the script. -/
def SourceUnit.outputsAt (u : SourceUnit) (script : Path) : List OutputFile :=
  match u.output.code with
  | none => []
  | some code =>
    (u.output.sourceMap.map (⟨Program.mapPath script, ·⟩)).toList ++ [⟨script, code⟩]

namespace Program

variable {p : Program}

theorem unitFiles_of_isDeclaration {u : SourceUnit} (h : u.path.isDeclaration = true) :
    p.unitFiles u = [] := by
  simp [unitFiles, unitOutput, h, pure, Except.pure]

theorem unitOutput_of_scriptPath {out root : Option Path} {u : SourceUnit} {script : Path}
    (hdecl : u.path.isDeclaration = false) (hscript : scriptPath out root u.path = .ok script) :
    unitOutput out root u = .ok (u.output.code.map fun code =>
      (⟨script, code⟩, u.output.sourceMap.map (⟨mapPath script, ·⟩))) := by
  unfold unitOutput
  cases hcode : u.output.code <;>
    simp [hdecl, hscript, bind, Except.bind, pure, Except.pure]

theorem unitFiles_of_scriptPath {u : SourceUnit} {script : Path}
    (hdecl : u.path.isDeclaration = false)
    (hscript : scriptPath p.outDir p.rootDir u.path = .ok script) :
    p.unitFiles u = u.outputsAt script := by
  unfold unitFiles SourceUnit.outputsAt
  rw [unitOutput_of_scriptPath hdecl hscript]
  cases u.output.code <;> rfl

theorem flatMap_unitFiles (script : Path → Path) {us : List SourceUnit}
    (hscript : ∀ u ∈ us, u.path.isDeclaration = false →
      scriptPath p.outDir p.rootDir u.path = .ok (script u.path)) :
    us.flatMap p.unitFiles =
      (us.filter (!·.path.isDeclaration)).flatMap fun u => u.outputsAt (script u.path) := by
  induction us with
  | nil => rfl
  | cons u us ih =>
      obtain ⟨hu, hus⟩ := List.forall_mem_cons.mp hscript
      rw [List.flatMap_cons, ih hus]
      cases hdecl : u.path.isDeclaration with
      | true =>
          rw [unitFiles_of_isDeclaration hdecl, List.filter_cons_of_neg (by simp [hdecl])]
          rfl
      | false =>
          rw [unitFiles_of_scriptPath hdecl (hu hdecl), List.filter_cons_of_pos (by simp [hdecl]),
            List.flatMap_cons]

/-- If each source has a path for its script, nothing is reported, and unless nothing is written all
scripts and source maps are. -/
theorem emit_of_scriptPath (script : Path → Path)
    (hscript : ∀ u ∈ p.sources, scriptPath p.outDir p.rootDir u.path = .ok (script u.path)) :
    p.emit.diagnostics = [] ∧
      (p.emit.skipped = false →
        p.emit.files.Perm (p.sources.flatMap fun u => u.outputsAt (script u.path))) := by
  have hok : ∀ u ∈ p.units, ∃ r, unitOutput p.outDir p.rootDir u = .ok r := by
    intro u hu
    cases hdecl : u.path.isDeclaration with
    | true => exact ⟨none, by simp [unitOutput, hdecl, pure, Except.pure]⟩
    | false => exact ⟨_, unitOutput_of_scriptPath hdecl (hscript u (mem_sources.mpr ⟨hu, hdecl⟩))⟩
  have hfiles : p.units.flatMap p.unitFiles =
      p.sources.flatMap fun u => u.outputsAt (script u.path) :=
    flatMap_unitFiles script fun u hu hdecl => hscript u (mem_sources.mpr ⟨hu, hdecl⟩)
  unfold emit
  split
  · exact ⟨rfl, nofun⟩
  · split
    · exact ⟨rfl, nofun⟩
    · refine ⟨List.filterMap_eq_nil_iff.mpr fun result hresult => ?_, fun _ => ?_⟩
      · obtain ⟨u, hu, rfl⟩ := List.mem_map.mp hresult
        obtain ⟨r, hr⟩ := hok u hu
        rw [outDir] at hr
        rw [hr]
      · refine (mapsLast_perm _).trans (.of_eq ?_)
        rw [List.flatMap_map, ← hfiles]
        rfl

/-- Without a root directory set, that of a program of absolute normal files is the nearest one above the
directories of all sources that are no declarations, if there are any. It does not depend on the order
of the files. No source is reported to lie outside of it. Below an output directory the outputs lie as
the sources, and the scripts beside them, lie below it. -/
theorem source_dir_is_nearest_above (compiler : Compiler) (h : Host) (files : List Path)
    (options : Options)
    (hroot : options.text? .rootDir = none)
    (hfiles : ∀ q ∈ files, q.isAbsolute = true ∧ ∃ r : Path, q = r.normalize) :
    let p := build compiler h files options
    (p.rootDir = none ↔ p.sources = []) ∧
      (∀ dir, p.rootDir = some dir →
        dir.isAbsolute = true ∧ dir.IsNearestAbove (p.sources.map fun u => dirOf u.path)) ∧
      (∀ files', files'.Perm files → (build compiler h files' options).rootDir = p.rootDir) ∧
      p.emit.diagnostics = [] ∧
      ∀ dir out, p.rootDir = some dir → p.outDir = some out → ∃ rel : Path → Path,
        (∀ u ∈ p.sources, (rel u.path).isAbsolute = false ∧ dir.join (rel u.path) = u.path ∧
          dir.join (rel u.path).scriptPath = u.path.scriptPath) ∧
        p.emit.files.Perm (if p.emit.skipped then [] else
          p.sources.flatMap fun u => u.outputsAt (out.join (rel u.path).scriptPath)) := by
  intro p
  have habs : p.IsAbsolute := isAbsolute_build hfiles
  have hdir : ∀ files', (build compiler h files' options).rootDir =
      (build compiler h files' options).sourceDir := by
    intro files'
    have hoptions : (build compiler h files' options).options = options := rfl
    rw [rootDir, hoptions, hroot]
  refine ⟨?_, fun dir hp => ?_, fun files' hperm => ?_, ?_, fun dir out hp hout => ?_⟩
  · rw [hdir files]
    exact sourceDir_eq_none_iff
  · obtain ⟨⟨rs, htidy⟩, hnearest⟩ := habs.isNearestAbove ((hdir files).symm.trans hp)
    exact ⟨htidy.isAbsolute, hnearest⟩
  · rw [hdir, hdir]
    have habs' : (build compiler h files' options).IsAbsolute :=
      isAbsolute_build fun q hq => hfiles q (hperm.mem_iff.mp hq)
    refine habs'.sourceDir_congr habs fun u => ?_
    simp only [mem_sources, mem_units_build, hperm.mem_iff]
  · refine (emit_of_scriptPath (fun q =>
      (scriptPath p.outDir p.rootDir q).toOption.getD q) fun u hu => ?_).1
    unfold scriptPath
    split
    case h_1 out dir _ hp =>
      obtain ⟨rel, hstrip, -⟩ := habs.exists_rel ((hdir files).symm.trans hp) hu
      rw [hstrip]
      rfl
    case h_2 => rfl
  · refine ⟨fun q => (q.stripPrefix? dir).getD ⟨""⟩, fun u hu => ?_, ?_⟩
    · obtain ⟨rel, hstrip, hplace⟩ := habs.exists_rel ((hdir files).symm.trans hp) hu
      simpa only [hstrip, Option.getD_some] using hplace
    · cases hskipped : p.emit.skipped with
      | true => rw [if_pos rfl, emit_of_skipped hskipped]
      | false =>
          refine (emit_of_scriptPath (fun q =>
            out.join ((q.stripPrefix? dir).getD ⟨""⟩).scriptPath) fun u hu => ?_).2 hskipped
          obtain ⟨rel, hstrip, -⟩ := habs.exists_rel ((hdir files).symm.trans hp) hu
          simp only [scriptPath, hout, hp, hstrip, Option.getD_some]

/-- A source below the one that is read first, one beside its directory, and a declaration elsewhere. -/
theorem source_dir_is_nearest_above_of_three :
    let h : Host :=
      { disk := ⟨[(["v"], .dir), (["v", "src"], .dir), (["v", "src", "lib"], .dir),
          (["v", "src", "lib", "a.ts"], .file (.text "const a = 1;\n") none),
          (["v", "src", "library"], .dir),
          (["v", "src", "library", "b.ts"], .file (.text "const b = 2;\n") none),
          (["v", "types.d.ts"], .file (.text "") none)]⟩ }
    let files : List Path := [⟨"/v/src/lib/a.ts"⟩, ⟨"/v/src/library/b.ts"⟩, ⟨"/v/types.d.ts"⟩]
    let options : Options := (Options.ofJson [("outDir", .str "/v/out")]).1
    (options.text? .rootDir = none ∧
      ∀ q ∈ files, q.isAbsolute = true ∧ ∃ r : Path, q = r.normalize) ∧
    (build .small h files options).rootDir = some ⟨"/v/src"⟩ ∧
    (build .small h files.reverse options).rootDir = some ⟨"/v/src"⟩ ∧
    (build .small h files options).emit.diagnostics = [] := by
  intro h files options
  have hroot : options.text? .rootDir = none := by decide +kernel
  have hfiles : ∀ q ∈ files, q.isAbsolute = true ∧ ∃ r : Path, q = r.normalize := by
    have hnormal : ∀ q ∈ files, q.isAbsolute = true ∧ q = q.normalize := by decide +kernel
    exact fun q hq => ⟨(hnormal q hq).1, q, (hnormal q hq).2⟩
  obtain ⟨-, -, horder, hclean, -⟩ :=
    source_dir_is_nearest_above .small h files options hroot hfiles
  have hdir : (build .small h files options).rootDir = some ⟨"/v/src"⟩ := by decide +kernel
  exact ⟨⟨hroot, hfiles⟩, hdir, (horder _ (List.reverse_perm files)).trans hdir, hclean⟩

end Program

end ScriptWorks
