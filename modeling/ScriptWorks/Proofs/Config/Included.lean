import Mathlib.Data.List.DropRight
import ScriptWorks.Proofs.Config.Patterns
import ScriptWorks.Proofs.Config.Roots

/-!
# Included directories

An entry that names a directory selects the sources below it, however it is written. With a bracket in it
the entry is a pattern: then it covers nothing below the directory.
-/

namespace ScriptWorks

namespace Config

variable {h : Host} {p : Path} {c : Config} {spec : String} {dir names : List String}

/-! ## Spellings -/

/-- Ways to write a directory: its names, perhaps with a slash at the end, and `./` in front as often as
one likes. -/
inductive Spells (dir : List String) : String → Prop
  | names : Spells dir (String.intercalate "/" dir)
  | slash : Spells dir (String.intercalate "/" dir ++ "/")
  | here {spec : String} : Spells dir spec → Spells dir ("./" ++ spec)

theorem trimSpec_here (spec : String) : trimSpec ("./" ++ spec) = trimSpec spec := by
  rw [trimSpec, String.toList_append]
  rfl

/-- Nothing is taken off a text whose first piece is not the dot. -/
theorem dropHere_of_cut {cs : List Char} (hcs : (Text.cut '/' cs).head? ≠ some ['.']) :
    trimSpec.dropHere cs = cs := by
  unfold trimSpec.dropHere
  split
  case h_1 rest =>
    refine absurd ?_ hcs
    have hcut : Text.cut '/' ('.' :: '/' :: rest) = ['.'] :: Text.cut '/' rest :=
      Text.cut_append ['.'] rest
    rw [hcut]
    rfl
  case h_2 => rfl

theorem toList_intercalate_slash (names : List String) :
    (String.intercalate "/" names).toList = Text.glue '/' (names.map String.toList) := by
  rw [String.toList_intercalate, Text.glue_eq_intercalate]
  rfl

theorem notMem_intercalate_slash {d : Char} (hd : d ≠ '/') (hnames : ∀ name ∈ names, d ∉ name.toList) :
    d ∉ (String.intercalate "/" names).toList := by
  rw [String.toList_intercalate]
  refine Text.notMem_intercalate (by simpa using hd) fun piece hpiece => ?_
  obtain ⟨name, hname, rfl⟩ := List.mem_map.mp hpiece
  exact hnames name hname

theorem isLoud_of_entries (hentries : ∀ name ∈ dir, Disk.IsEntryName name) :
    ∀ piece ∈ dir.map String.toList, Path.IsLoud piece := by
  intro piece hpiece
  obtain ⟨name, hname, rfl⟩ := List.mem_map.mp hpiece
  exact (hentries name hname).loud

theorem noSlash_of_entries (hentries : ∀ name ∈ dir, Disk.IsEntryName name) :
    ∀ piece ∈ dir.map String.toList, '/' ∉ piece := fun piece hpiece =>
  (isLoud_of_entries hentries piece hpiece).noSlash

theorem cut_intercalate_slash (hdir : dir ≠ []) (hentries : ∀ name ∈ dir, Disk.IsEntryName name) :
    Text.cut '/' (String.intercalate "/" dir).toList = dir.map String.toList := by
  rw [toList_intercalate_slash]
  exact Text.cut_glue (by simpa using hdir) (noSlash_of_entries hentries)

/-- Names do not end with a slash. -/
theorem trimmed_intercalate_slash (hdir : dir ≠ []) (hentries : ∀ name ∈ dir, Disk.IsEntryName name) :
    (String.intercalate "/" dir).toList.rdropWhile (fun c => decide (c = '/')) =
      (String.intercalate "/" dir).toList := by
  have hcut := cut_intercalate_slash hdir hentries
  refine List.rdropWhile_eq_self_iff.mpr fun hne hslash => ?_
  rw [← List.dropLast_append_getLast hne, of_decide_eq_true hslash, Text.cut_append] at hcut
  have hmem : [] ∈ dir.map String.toList := hcut ▸ List.mem_append_right _ List.mem_cons_self
  exact (isLoud_of_entries hentries [] hmem).ne_nil rfl

theorem trimSpec_of_spells (hdir : dir ≠ []) (hentries : ∀ name ∈ dir, Disk.IsEntryName name)
    (hspells : Spells dir spec) : trimSpec spec = String.intercalate "/" dir := by
  have hcut := cut_intercalate_slash hdir hentries
  have htrimmed := trimmed_intercalate_slash hdir hentries
  have hfirst : ∀ last, (dir.map String.toList ++ last).head? ≠ some ['.'] := by
    intro last
    obtain ⟨name, rest, rfl⟩ := List.exists_cons_of_ne_nil hdir
    simpa using (hentries name List.mem_cons_self).loud.ne_here
  induction hspells with
  | names =>
      have hhead := hfirst []
      rw [List.append_nil, ← hcut] at hhead
      rw [trimSpec, dropHere_of_cut hhead]
      exact (congrArg String.ofList htrimmed).trans String.ofList_toList
  | slash =>
      have hhead := hfirst (Text.cut '/' [])
      have hslash : "/".toList = ['/'] := rfl
      rw [← hcut, ← Text.cut_append] at hhead
      rw [trimSpec, String.toList_append, hslash, dropHere_of_cut hhead]
      refine (congrArg String.ofList ?_).trans String.ofList_toList
      have hslash := List.rdropWhile_concat_pos (fun c => decide (c = '/'))
        (String.intercalate "/" dir).toList '/' (decide_eq_true rfl)
      exact hslash.trans htrimmed
  | here hspells ih => rw [trimSpec_here, ih]

/-! ## What a directory covers -/

theorem isPlain_intercalate_slash (hplain : ∀ name ∈ dir, Glob.IsPlain name.toList) :
    Glob.IsPlain (String.intercalate "/" dir).toList where
  noChar := notMem_intercalate_slash (by decide) fun name hname => (hplain name hname).noChar
  noSequence := notMem_intercalate_slash (by decide) fun name hname => (hplain name hname).noSequence
  noClass := notMem_intercalate_slash (by decide) fun name hname => (hplain name hname).noClass

theorem hasWildcard_eq_false (hspec : Glob.IsPlain spec.toList) : hasWildcard spec = false := by
  refine List.any_eq_false.mpr fun d hd => ?_
  have hquestion : d ≠ '?' := fun heq => hspec.noChar (heq ▸ hd)
  have hstar : d ≠ '*' := fun heq => hspec.noSequence (heq ▸ hd)
  have hbracket : d ≠ '[' := fun heq => hspec.noClass (heq ▸ hd)
  simp [hquestion, hstar, hbracket]

/-- A directory whose names have no wildcards covers what is below it. -/
theorem covers_directory_iff (hdir : dir ≠ []) (hentries : ∀ name ∈ dir, Disk.IsEntryName name)
    (hspells : Spells dir spec) (hplain : ∀ name ∈ dir, Glob.IsPlain name.toList) (hnames : names ≠ [])
    (hentries' : ∀ name ∈ names, Disk.IsEntryName name) :
    Covers Glob.meaning false [spec] names ↔ dir <+: names := by
  have hspec := isPlain_intercalate_slash hplain
  obtain ⟨covers, hmeans, hcovers⟩ := Glob.meaning_of_plain hspec
  obtain ⟨coversBelow, hmeansBelow, hcoversBelow⟩ := Glob.meaning_below_of_plain hspec
  have hpatterns : specPatterns false spec =
      [String.intercalate "/" dir, String.intercalate "/" dir ++ "/**/*"] := by
    rw [specPatterns, trimSpec_of_spells hdir hentries hspells, hasWildcard_eq_false hspec]
    rfl
  have hextends := Text.glue_extends_iff (by simpa using hdir) (noSlash_of_entries hentries)
    (by simpa using hnames) (noSlash_of_entries hentries')
  rw [← toList_intercalate_slash, ← toList_intercalate_slash, String.toList_inj,
    List.prefix_map_iff_of_injective fun s t => String.toList_inj.mp] at hextends
  rw [← hextends]
  simp [Covers, hpatterns, hmeans, hmeansBelow, hcovers, hcoversBelow]

/-- With a bracket in its names a directory covers nothing that is further down than itself. -/
theorem length_le_of_covers (hdir : dir ≠ []) (hentries : ∀ name ∈ dir, Disk.IsEntryName name)
    (hspells : Spells dir spec) (hstar : ∀ name ∈ dir, '*' ∉ name.toList)
    (hbracket : ∃ name ∈ dir, '[' ∈ name.toList) (hnames : names ≠ [])
    (hentries' : ∀ name ∈ names, Disk.IsEntryName name)
    (hcovers : Covers Glob.meaning false [spec] names) : names.length ≤ dir.length := by
  have hwild : hasWildcard (String.intercalate "/" dir) = true := by
    obtain ⟨name, hname, hbracket⟩ := hbracket
    have hmem : '[' ∈ (String.intercalate "/" dir).toList := by
      rw [toList_intercalate_slash]
      exact Text.mem_glue (List.mem_map_of_mem hname) hbracket
    exact List.any_eq_true.mpr ⟨'[', hmem, rfl⟩
  have hpatterns : specPatterns false spec = [String.intercalate "/" dir] := by
    rw [specPatterns, trimSpec_of_spells hdir hentries hspells, hwild]
    rfl
  obtain ⟨spec', hspec, pattern, hpattern, covers, hmeans, hcovers⟩ := hcovers
  rw [List.mem_singleton.mp hspec, hpatterns, List.mem_singleton] at hpattern
  subst hpattern
  have hslashes := Glob.count_slash_le_of_covers (notMem_intercalate_slash (by decide) hstar) hmeans
    hcovers
  have hlength := Text.length_cut '/' (String.intercalate "/" names).toList
  have hlength' := Text.length_cut '/' (String.intercalate "/" dir).toList
  rw [cut_intercalate_slash hnames hentries', List.length_map] at hlength
  rw [cut_intercalate_slash hdir hentries, List.length_map] at hlength'
  omega

/-- An entry of which nothing is left, or a dot only, covers nothing below the directory of the
configuration: no path there starts with such a piece. -/
theorem not_covers_of_here (hspec : trimSpec spec = "" ∨ trimSpec spec = ".") (hnames : names ≠ [])
    (hentries : ∀ name ∈ names, Disk.IsEntryName name) :
    ¬ Covers Glob.meaning false [spec] names := by
  have hplain : Glob.IsPlain (trimSpec spec).toList := by
    rcases hspec with h | h <;> rw [h] <;> exact ⟨by decide, by decide, by decide⟩
  have hslash : '/' ∉ (trimSpec spec).toList := by
    rcases hspec with h | h <;> rw [h] <;> decide
  have hpatterns : specPatterns false spec = [trimSpec spec, trimSpec spec ++ "/**/*"] := by
    rw [specPatterns, hasWildcard_eq_false hplain]
    rfl
  obtain ⟨covers, hmeans, hcovers⟩ := Glob.meaning_of_plain hplain
  obtain ⟨coversBelow, hmeansBelow, hcoversBelow⟩ := Glob.meaning_below_of_plain hplain
  have hcut := cut_intercalate_slash hnames hentries
  have hstarts : Covers Glob.meaning false [spec] names →
      (names.map String.toList).head? = some (trimSpec spec).toList := by
    simp only [Covers, hpatterns, exists_eq_left, List.mem_cons, List.not_mem_nil,
      or_false, exists_eq_or_imp, hmeans, hmeansBelow, Option.some.injEq, exists_eq_left', hcovers,
      hcoversBelow]
    rintro (heq | ⟨rest, heq⟩)
    · rw [← hcut, heq, Text.cut_of_notMem hslash]
      rfl
    · rw [← hcut, heq, Text.cut_append, Text.cut_of_notMem hslash]
      rfl
  intro hcovers
  obtain ⟨first, rest, rfl⟩ := List.exists_cons_of_ne_nil hnames
  have hloud := (hentries first List.mem_cons_self).loud
  have hfirst : first.toList = (trimSpec spec).toList := Option.some.inj (hstarts hcovers)
  rcases hspec with h | h <;> rw [h] at hfirst
  · exact hloud.ne_nil hfirst
  · exact hloud.ne_here hfirst

theorem selects_directory_iff {options : Options} (hincludes : c.includes = some [spec])
    (hexcludes : c.excludes = some []) (htree : h.disk.IsTreeAt h.cwd c.specDir) (hdir : dir ≠ [])
    (hentries : ∀ name ∈ dir, Disk.IsEntryName name) (hspells : Spells dir spec)
    (hplain : ∀ name ∈ dir, Glob.IsPlain name.toList) :
    c.Selects Glob.meaning h options names ↔ dir <+: names ∧ h.disk.HasBelow h.cwd c.specDir names ∧
      (c.specDir.below names).isSource = true := by
  have hcovers : h.disk.HasBelow h.cwd c.specDir names →
      (Covers Glob.meaning false c.includeSpecs names ↔ dir <+: names) := by
    intro hfile
    rw [includeSpecs, hincludes]
    exact covers_directory_iff hdir hentries hspells hplain hfile.ne_nil (hfile.isEntryName htree)
  constructor
  · exact fun hselects => ⟨(hcovers hselects.file).mp hselects.included, hselects.file, hselects.source⟩
  · rintro ⟨hbelow, hfile, hsource⟩
    refine ⟨hfile, hsource, (hcovers hfile).mpr hbelow, fun front _ _ => ?_⟩
    rw [excludeSpecs, hexcludes]
    rintro ⟨spec, hspec, -⟩
    cases hspec

/-- A directory in the place of all entries selects exactly the sources below it, however it is written,
if its names have no wildcards. With a bracket in its names the entry is a pattern, and no file below the
directory is selected. -/
theorem included_directory_selects {base : Location} (hload : loadWithExtends h p = .ok c)
    (hincludes : c.includes = some [spec]) (hexcludes : c.excludes = some []) (hfiles : c.files = none)
    (hbase : h.disk.node h.cwd c.specDir = .ok (base, .dir)) (htree : h.disk.IsTreeBelow base)
    (hdir : h.disk.lookup? (base ++ dir) = some .dir) (hne : dir ≠ []) (hspells : Spells dir spec)
    (hwild : ∀ name ∈ dir, '*' ∉ name.toList ∧ '?' ∉ name.toList) :
    ((∀ name ∈ dir, '[' ∉ name.toList) → ∀ q, q ∈ (Project.read h p).fileNames ↔
      ∃ names, dir <+: names ∧ h.disk.HasBelow h.cwd c.specDir names ∧
        (c.specDir.below names).isSource = true ∧ q = (c.specDir.below names).normalize) ∧
    ((∃ name ∈ dir, '[' ∈ name.toList) → ∀ names, dir <+: names →
      h.disk.HasBelow h.cwd c.specDir names →
        (c.specDir.below names).normalize ∉ (Project.read h p).fileNames) := by
  have htreeAt := htree.isTreeAt hbase
  have hentries : ∀ name ∈ dir, Disk.IsEntryName name :=
    htree.isEntryName (by rw [hdir]; exact Option.some_ne_none _)
  constructor
  · intro hbracket q
    have hplain : ∀ name ∈ dir, Glob.IsPlain name.toList := fun name hname =>
      ⟨(hwild name hname).2, (hwild name hname).1, hbracket name hname⟩
    simp only [Project.mem_fileNames_iff hload hfiles htreeAt, and_assoc,
      selects_directory_iff hincludes hexcludes htreeAt hne hentries hspells hplain]
  · intro hbracket names hbelow hfile hmem
    have hentries' := hfile.isEntryName htreeAt
    have hincluded := ((Project.mem_fileNames_below_iff hload hfiles htreeAt hentries').mp hmem).included
    rw [includeSpecs, hincludes] at hincluded
    have hlength := length_le_of_covers hne hentries hspells (fun name hname => (hwild name hname).1)
      hbracket hfile.ne_nil hentries' hincluded
    -- A file is further down than a directory above it.
    have heq : dir = names := hbelow.eq_of_length_le hlength
    obtain ⟨base', hbase', hcontent⟩ := hfile
    cases hbase.symm.trans hbase'
    rw [← heq, Disk.contentAt, hdir] at hcontent
    exact hcontent rfl

/-- The directory is written with `./` and a slash, and a source lies further down. -/
theorem included_directory_selects_of_spelled :
    let text := "\x7b\"include\": [\"./src/\"], \"exclude\": []\x7d"
    let h : Host :=
      { disk := ⟨[(["v"], .dir), (["v", "tsconfig.json"], .file (.text text) none),
          (["v", "a.ts"], .file (.text "") none), (["v", "src"], .dir), (["v", "src", "lib"], .dir),
          (["v", "src", "lib", "b.ts"], .file (.text "") none)]⟩ }
    let p : Path := ⟨"/v/tsconfig.json"⟩
    Spells ["src"] "./src/" ∧ ∃ c, loadWithExtends h p = .ok c ∧ c.includes = some ["./src/"] ∧
      c.excludes = some [] ∧ c.files = none ∧ h.disk.IsTreeBelow ["v"] ∧
      ⟨"/v/src/lib/b.ts"⟩ ∈ (Project.read h p).fileNames := by
  intro text h p
  have hspells : Spells ["src"] "./src/" := .here .slash
  have hread : (loadWithExtends h p).toOption.map (fun c => (c.includes, c.excludes, c.files, c.specDir)) =
    some (some ["./src/"], some [], none, ⟨"/v"⟩) := by decide +kernel
  obtain ⟨c, hload, hlists⟩ := Option.map_eq_some_iff.mp hread
  have hload : loadWithExtends h p = .ok c := toOption_eq_some.mp hload
  simp only [Prod.mk.injEq] at hlists
  obtain ⟨hincludes, hexcludes, hfiles, hspec⟩ := hlists
  have htree : h.disk.IsTreeBelow ["v"] := by decide +kernel
  have hbase : h.disk.node h.cwd c.specDir = .ok (["v"], .dir) := by rw [hspec]; rfl
  have hdir : h.disk.lookup? (["v"] ++ ["src"]) = some .dir := rfl
  obtain ⟨hselects, -⟩ := included_directory_selects hload hincludes hexcludes hfiles hbase htree hdir
    (by decide) hspells (by decide)
  refine ⟨hspells, c, hload, hincludes, hexcludes, hfiles, htree, (hselects (by decide) _).mpr ?_⟩
  refine ⟨["src", "lib", "b.ts"], by decide, ⟨["v"], hbase, by decide +kernel⟩, ?_, ?_⟩
  · rw [hspec]
    decide +kernel
  · rw [hspec]
    decide +kernel

/-- A source lies in the directory that is included, but the entry is a pattern. -/
theorem bracketed_directory_selects_nothing :
    let text := "\x7b\"include\": [\"a[b]\"], \"exclude\": []\x7d"
    let h : Host :=
      { disk := ⟨[(["v"], .dir), (["v", "tsconfig.json"], .file (.text text) none),
          (["v", "a[b]"], .dir), (["v", "a[b]", "c.ts"], .file (.text "") none)]⟩ }
    Spells ["a[b]"] "a[b]" ∧ h.disk.IsTreeBelow ["v"] ∧ h.isFile ⟨"/v/a[b]/c.ts"⟩ = true ∧
      Path.isSource ⟨"/v/a[b]/c.ts"⟩ = true ∧
      ⟨"/v/a[b]/c.ts"⟩ ∉ (Project.read h ⟨"/v/tsconfig.json"⟩).fileNames := by
  intro text h
  have htree : h.disk.IsTreeBelow ["v"] := by decide +kernel
  have hread : (loadWithExtends h ⟨"/v/tsconfig.json"⟩).toOption.map
      (fun c => (c.includes, c.files, c.specDir)) = some (some ["a[b]"], none, ⟨"/v"⟩) := by decide +kernel
  obtain ⟨c, hload, hlists⟩ := Option.map_eq_some_iff.mp hread
  have hload := toOption_eq_some.mp hload
  simp only [Prod.mk.injEq] at hlists
  obtain ⟨hincludes, hfiles, hspec⟩ := hlists
  have hbase : h.disk.node h.cwd c.specDir = .ok (["v"], .dir) := by rw [hspec]; rfl
  have htreeAt := htree.isTreeAt hbase
  refine ⟨.names, htree, by decide +kernel, by decide +kernel, fun hmem => ?_⟩
  have hnames : ∀ name ∈ ["a[b]", "c.ts"], Disk.IsEntryName name := by decide
  have hpath : (c.specDir.below ["a[b]", "c.ts"]).normalize = ⟨"/v/a[b]/c.ts"⟩ := by
    rw [hspec]
    decide +kernel
  have hselects := (Project.mem_fileNames_below_iff hload hfiles htreeAt hnames).mp (hpath ▸ hmem)
  have hincluded := hselects.included
  rw [includeSpecs, hincludes] at hincluded
  exact absurd hincluded (by decide +kernel)

/-- The directory of the configuration itself, in the place of all entries, selects nothing either: what
is left of the entry are patterns of no path. -/
theorem own_directory_selects_nothing (hload : loadWithExtends h p = .ok c)
    (hincludes : c.includes = some [spec]) (hspec : spec ∈ [".", "./"]) (hfiles : c.files = none)
    (htree : h.disk.IsTreeAt h.cwd c.specDir) : (Project.read h p).fileNames = [] := by
  refine List.eq_nil_iff_forall_not_mem.mpr fun q hq => ?_
  obtain ⟨names, hselects, -⟩ := (Project.mem_fileNames_iff hload hfiles htree).mp hq
  have hincluded := hselects.included
  rw [includeSpecs, hincludes] at hincluded
  refine not_covers_of_here ?_ hselects.file.ne_nil (hselects.file.isEntryName htree) hincluded
  rcases List.mem_pair.mp hspec with rfl | rfl
  · exact .inr (by decide)
  · exact .inl (by decide)

end Config

end ScriptWorks
