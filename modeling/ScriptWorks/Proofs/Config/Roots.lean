import ScriptWorks.Proofs.Config.Following
import ScriptWorks.Proofs.Config.Selection
import ScriptWorks.Proofs.Program.Layout

/-!
# Repeated and missing root files

Selected files are added to the root files only if they are not there yet, but listed files always are.
So root files repeat only if entries of the list do. A configuration that selects nothing is an error,
but one that lists nothing is none: a project without errors has root files unless its list is empty.
-/

namespace ScriptWorks

/-- Normal paths that are the same are written alike. -/
theorem Path.normalize_eq_of_same {p q : Path} (h : p.normalize.same q.normalize = true) :
    p.normalize = q.normalize := by
  obtain ⟨ps, hp, -⟩ := p.exists_tidy_normalize
  obtain ⟨qs, hq, -⟩ := q.exists_tidy_normalize
  obtain ⟨habs, hpieces⟩ := (hp.same_iff hq).mp h
  rw [hp.eq, hq.eq, habs, hpieces]

namespace Config

variable {h : Host} {c : Config} {options : Options} {configPath : Path}

/-! ## Loaded chains -/

theorem Trail.isChain {r : Path} {ls rest : List Link} {l : Link} (htrail : Trail h configPath ls r)
    (hl : l.1 = r) (hrest : IsChain h (l :: rest)) : IsChain h (ls ++ l :: rest) := by
  induction htrail generalizing l rest with
  | start => exact hrest
  | @step ls k q htrail hextends ih =>
      obtain ⟨⟨text, hread, hparse⟩, name, hname, hbase⟩ := hextends
      rw [List.append_assoc]
      exact ih rfl (.link hread hparse hname (hl ▸ hbase) hrest)

theorem Trail.head_eq {r : Path} {ls : List Link} {l : Link} (htrail : Trail h configPath ls r)
    (hl : l.1 = r) : ∃ k rest, ls ++ [l] = k :: rest ∧ k.1 = configPath := by
  induction htrail generalizing l with
  | start => exact ⟨l, [], rfl, hl⟩
  | @step ls k q htrail hextends ih =>
      obtain ⟨top, rest, heq, htop⟩ := ih (l := k) rfl
      exact ⟨top, rest ++ [l], by rw [heq]; rfl, htop⟩

theorem IsChain.reads {l : Link} {rest : List Link} (hchain : IsChain h (l :: rest)) : Reads h l := by
  cases hchain with
  | last hread hparse _ | link hread hparse => exact ⟨_, hread, hparse⟩

/-- What is loaded is a chain of different files. -/
theorem exists_isChain_of_load (hload : loadWithExtends h configPath = .ok c) :
    ∃ l rest, l.1 = configPath ∧ IsChain h (l :: rest) ∧ ((l :: rest).map (·.1.normalize)).Nodup := by
  obtain ⟨ls, r, last, htrail, hdistinct, hends⟩ :=
    exists_end fun ls r (htrail : Trail h configPath ls r) => htrail.length_le
  rw [loadWithExtends_of_end htrail hdistinct hends] at hload
  cases hends with
  | circular | unreadable | malformed | baseNotFound => cases hload
  | @complete bottom hnew hreads hextends =>
      obtain ⟨text, hread, hparse⟩ := hreads
      have hchain : IsChain h (ls ++ [(r, bottom)]) :=
        htrail.isChain rfl (.last hread hparse hextends)
      have hnodup : (normals (ls ++ [(r, bottom)])).Nodup :=
        nodup_normals_concat.mpr ⟨hdistinct, hnew⟩
      obtain ⟨l, rest, heq, hl⟩ := htrail.head_eq (l := (r, bottom)) rfl
      rw [heq] at hchain hnodup
      exact ⟨l, rest, hl, hchain, hnodup⟩

theorem inherits_of_load {l : Link} {rest : List Link} (hchain : IsChain h (l :: rest))
    (hdistinct : ((l :: rest).map (·.1.normalize)).Nodup) (hload : loadWithExtends h l.1 = .ok c) :
    Inherits (l :: rest) c := by
  obtain ⟨c', hload', hinherits⟩ := loadChain_of_isChain hchain hdistinct
    (hchain.length_le hdistinct) (fun _ _ => List.not_mem_nil : ∀ k ∈ l :: rest, k.1.normalize ∉ [])
  cases (hload' l rfl).symm.trans hload
  exact hinherits

/-! ## Repeated files -/

/-- What is added was not there, and is added once. -/
theorem exists_addNew (found ps : List Path) : ∃ added, addNew found ps = found ++ added ∧
    added.Nodup ∧ ∀ p, p ∈ added ↔ p ∈ ps ∧ p ∉ found := by
  induction ps generalizing found with
  | nil => exact ⟨[], by simp [addNew], .nil, by simp⟩
  | cons p ps ih =>
      have hstep : addNew found (p :: ps) =
          addNew (if found.contains p then found else found ++ [p]) ps := rfl
      rw [hstep]
      by_cases hp : p ∈ found
      · rw [if_pos (List.contains_iff_mem.mpr hp)]
        obtain ⟨added, hadded, hnodup, hmem⟩ := ih found
        refine ⟨added, hadded, hnodup, fun q => ?_⟩
        rw [hmem, List.mem_cons]
        constructor
        · exact fun ⟨hq, hnew⟩ => ⟨.inr hq, hnew⟩
        · rintro ⟨rfl | hq, hnew⟩
          · exact absurd hp hnew
          · exact ⟨hq, hnew⟩
      · rw [if_neg (mt List.contains_iff_mem.mp hp)]
        obtain ⟨added, hadded, hnodup, hmem⟩ := ih (found ++ [p])
        refine ⟨p :: added, by rw [hadded, List.append_assoc]; rfl, ?_, fun q => ?_⟩
        · refine List.nodup_cons.mpr ⟨fun hmem' => ?_, hnodup⟩
          exact ((hmem p).mp hmem').2 (by simp)
        · simp only [List.mem_cons, hmem, List.mem_append, List.not_mem_nil, or_false]
          by_cases hq : q = p
          · simp [hq, hp]
          · simp [hq]

/-- The normal path of an entry of the list. -/
def entryPath (c : Config) (name : String) : Path := (c.specDir.child name).normalize

/-- The entries of the list that are there. -/
def presentFiles (c : Config) (h : Host) : List Path :=
  ((c.files.getD []).map c.entryPath).filter h.isFile

theorem listed_fst (h : Host) (c : Config) : (c.listed h (c.files.getD [])).1 = c.presentFiles h := rfl

/-- The stages of the selection: the list alone, or also what the patterns select. -/
theorem rootFiles_eq (h : Host) (c : Config) (options : Options) (configPath : Path) :
    c.rootFiles h options configPath =
      if c.files.isSome && c.includes.isNone then c.listed h (c.files.getD [])
      else if (addNew (c.presentFiles h) (c.selected h options)).isEmpty &&
          (c.listed h (c.files.getD [])).2.isEmpty then
        (addNew (c.presentFiles h) (c.selected h options), [c.noInputs options configPath])
      else (addNew (c.presentFiles h) (c.selected h options), (c.listed h (c.files.getD [])).2) := by
  unfold rootFiles
  rw [← listed_fst]
  cases c.files <;> rfl

/-- The root files are the entries of the list that are there, and then selected files that were not
there yet. -/
theorem exists_rootFiles (h : Host) (c : Config) (options : Options) (configPath : Path) :
    ∃ added, (c.rootFiles h options configPath).1 = c.presentFiles h ++ added ∧ added.Nodup ∧
      ∀ p ∈ added, p ∈ c.selected h options ∧ p ∉ c.presentFiles h := by
  rw [rootFiles_eq]
  split
  · exact ⟨[], (List.append_nil _).symm, .nil, nofun⟩
  · obtain ⟨added, hadded, hnodup, hmem⟩ := exists_addNew (c.presentFiles h) (c.selected h options)
    refine ⟨added, ?_, hnodup, fun p hp => (hmem p).mp hp⟩
    split <;> exact hadded

theorem differ_of_selected {p q : Path} (hp : p ∈ c.selected h options)
    (hq : q ∈ c.selected h options ∨ q ∈ c.presentFiles h) (hne : q ≠ p) : q.same p = false := by
  have hnormal : ∀ {r}, r ∈ c.selected h options ∨ r ∈ c.presentFiles h →
      ∃ r' : Path, r = r'.normalize := by
    rintro r (hr | hr)
    · obtain ⟨f, -, rfl⟩ := List.mem_map.mp hr
      exact ⟨_, rfl⟩
    · obtain ⟨name, -, rfl⟩ := List.mem_map.mp (List.mem_filter.mp hr).1
      exact ⟨_, rfl⟩
  obtain ⟨p', rfl⟩ := hnormal (.inl hp)
  obtain ⟨q', rfl⟩ := hnormal hq
  exact Bool.eq_false_iff.mpr fun hsame => hne (Path.normalize_eq_of_same hsame)

/-! ## Missing files -/

theorem listed_eq_nil_iff {names : List String} : c.listed h names = ([], []) ↔ names = [] := by
  constructor
  · intro hnil
    obtain ⟨hpresent, hmissing⟩ := Prod.mk.inj hnil
    refine List.eq_nil_iff_forall_not_mem.mpr fun name hname => ?_
    have hmem : c.entryPath name ∈ names.map c.entryPath := List.mem_map_of_mem hname
    cases hfile : h.isFile (c.entryPath name) with
    | true => exact List.filter_eq_nil_iff.mp hpresent _ hmem hfile
    | false =>
        exact List.filter_eq_nil_iff.mp (List.map_eq_nil_iff.mp hmissing) _ hmem (by simp [hfile])
  · rintro rfl
    rfl

/-- Only an empty list without patterns selects nothing and is no error. -/
theorem rootFiles_eq_nil_iff :
    c.rootFiles h options configPath = ([], []) ↔ c.files = some [] ∧ c.includes = none := by
  rw [rootFiles_eq]
  split
  · next halone =>
      obtain ⟨hfiles, hincludes⟩ := Bool.and_eq_true_iff.mp halone
      obtain ⟨names, hnames⟩ := Option.isSome_iff_exists.mp hfiles
      rw [listed_eq_nil_iff, hnames, Option.getD_some, Option.some_inj]
      exact (and_iff_left (Option.isNone_iff_eq_none.mp hincludes)).symm
  · next hpatterns =>
      refine iff_of_false (fun hnil => ?_) fun ⟨hfiles, hincludes⟩ => ?_
      · -- The error is there where there is nothing else.
        split at hnil
        · cases (Prod.mk.inj hnil).2
        · next hsome =>
            obtain ⟨hfound, herrors⟩ := Prod.mk.inj hnil
            exact hsome (by rw [hfound, herrors]; rfl)
      · exact hpatterns (by rw [hfiles, hincludes]; rfl)

end Config

namespace Project

variable {h : Host} {p : Path} {c : Config}

theorem fileNames_of_load (hload : Config.loadWithExtends h p = .ok c) :
    (read h p).fileNames = (c.rootFiles h (Options.ofJson c.compilerOptions).1 p).1 := by
  unfold read
  rw [hload]

theorem options_of_load (hload : Config.loadWithExtends h p = .ok c) :
    (read h p).options = (Options.ofJson c.compilerOptions).1 := by
  unfold read
  rw [hload]

/-- The root files of a project without a list of files are those that it selects. -/
theorem mem_fileNames_iff (hload : Config.loadWithExtends h p = .ok c) (hfiles : c.files = none)
    (htree : h.disk.IsTreeAt h.cwd c.specDir) {q : Path} : q ∈ (read h p).fileNames ↔
      ∃ names, c.Selects Glob.meaning h (Options.ofJson c.compilerOptions).1 names ∧
        q = (c.specDir.below names).normalize := by
  obtain ⟨added, hadded, -, hmem⟩ := Config.exists_addNew []
    (c.selected h (Options.ofJson c.compilerOptions).1)
  rw [fileNames_of_load hload, Config.rootFiles_fst (.inr hfiles), ← Config.mem_selected_iff htree, hfiles]
  have hlisted : (c.listed h (Option.getD none [])).1 = [] := rfl
  rw [hlisted, hadded, List.nil_append, hmem]
  simp

theorem mem_fileNames_below_iff (hload : Config.loadWithExtends h p = .ok c) (hfiles : c.files = none)
    (htree : h.disk.IsTreeAt h.cwd c.specDir) (hnames : ∀ name ∈ names, Disk.IsEntryName name) :
    (c.specDir.below names).normalize ∈ (read h p).fileNames ↔
      c.Selects Glob.meaning h (Options.ofJson c.compilerOptions).1 names := by
  rw [mem_fileNames_iff hload hfiles htree]
  constructor
  · rintro ⟨names', hselects, heq⟩
    rwa [Path.names_eq_of_normalize_below hnames (hselects.file.isEntryName htree) heq]
  · exact fun hselects => ⟨names, hselects, rfl⟩

theorem fileNames_of_load_error {e : LoadFault} (hload : Config.loadWithExtends h p = .error e) :
    (read h p).fileNames = [] := by
  unfold read
  rw [hload]

theorem errors_of_load_error {e : LoadFault} (hload : Config.loadWithExtends h p = .error e) :
    (read h p).errors = [e.diagnostic] := by
  unfold read
  rw [hload]

theorem errors_eq_nil_iff_of_load (hload : Config.loadWithExtends h p = .ok c) :
    (read h p).errors = [] ↔ (Options.ofJson c.compilerOptions).2 = [] ∧
      (c.rootFiles h (Options.ofJson c.compilerOptions).1 p).2 = [] := by
  unfold read
  rw [hload]
  exact List.append_eq_nil_iff.trans (and_congr_left' List.map_eq_nil_iff)

/-- Files that are selected by patterns are root files once, and only if they are not listed. So the root
files are different paths exactly if no two entries of the list have the normal path of one file. -/
theorem root_files_differ_iff (h : Host) (p : Path) :
    (∀ c, Config.loadWithExtends h p = .ok c → ∃ added,
      (read h p).fileNames = c.presentFiles h ++ added ∧
        added.Pairwise (fun q r => q.same r = false) ∧
        ∀ q ∈ c.presentFiles h, ∀ r ∈ added, q.same r = false) ∧
    ((read h p).fileNames.Pairwise (fun q r => q.same r = false) ↔
      ∀ c names, Config.loadWithExtends h p = .ok c → c.files = some names →
        names.Pairwise fun s t => h.isFile (c.entryPath s) = true →
          (c.entryPath s).same (c.entryPath t) = false) := by
  have hadded : ∀ c, Config.loadWithExtends h p = .ok c → ∃ added,
      (read h p).fileNames = c.presentFiles h ++ added ∧
        added.Pairwise (fun q r => q.same r = false) ∧
        ∀ q ∈ c.presentFiles h, ∀ r ∈ added, q.same r = false := by
    intro c hload
    obtain ⟨added, hfiles, hnodup, hadded⟩ :=
      Config.exists_rootFiles h c (Options.ofJson c.compilerOptions).1 p
    refine ⟨added, (fileNames_of_load hload).trans hfiles, ?_, fun q hq r hr => ?_⟩
    · exact hnodup.imp_of_mem fun hq hr hne =>
        Config.differ_of_selected (hadded _ hr).1 (.inl (hadded _ hq).1) hne
    · obtain ⟨hselected, hnew⟩ := hadded r hr
      exact Config.differ_of_selected hselected (.inr hq) fun heq => hnew (heq ▸ hq)
  refine ⟨hadded, ?_⟩
  cases hload : Config.loadWithExtends h p with
  | error e => simp [fileNames_of_load_error hload]
  | ok c =>
      obtain ⟨added, hfiles, hdiffer, hapart⟩ := hadded c hload
      have hlisted : (read h p).fileNames.Pairwise (fun q r => q.same r = false) ↔
          (c.presentFiles h).Pairwise fun q r => q.same r = false := by
        rw [hfiles, List.pairwise_append]
        exact ⟨fun h => h.1, fun h => ⟨h, hdiffer, hapart⟩⟩
      rw [hlisted, Config.presentFiles, List.pairwise_filter, List.pairwise_map]
      constructor
      · rintro hpairs c names ⟨⟩ hnames
        rw [hnames, Option.getD_some] at hpairs
        refine hpairs.imp fun {s t} hst hs => ?_
        -- two paths that are the same are there both or not at all
        refine Bool.eq_false_iff.mpr fun hsame => ?_
        have heq : c.entryPath s = c.entryPath t := Path.normalize_eq_of_same hsame
        rw [hst hs (heq ▸ hs)] at hsame
        cases hsame
      · intro hpairs
        cases hnames : c.files with
        | none => exact .nil
        | some names => exact (hpairs c names rfl hnames).imp fun hst hs _ => hst hs

/-- A file that is listed under two spellings is a root file twice. -/
theorem listed_files_repeat :
    let text := "\x7b\"files\": [\"a.ts\", \"./a.ts\"]\x7d"
    let h : Host :=
      { disk := ⟨[(["v"], .dir), (["v", "tsconfig.json"], .file (.text text) none),
          (["v", "a.ts"], .file (.text "") none)]⟩ }
    (read h ⟨"/v/tsconfig.json"⟩).errors.length = 0 ∧
      (read h ⟨"/v/tsconfig.json"⟩).fileNames = [⟨"/v/a.ts"⟩, ⟨"/v/a.ts"⟩] ∧
      Path.same ⟨"/v/a.ts"⟩ ⟨"/v/a.ts"⟩ = true := by
  decide +kernel

/-- A project without errors has root files, except where the first list of files in the chain is empty
and no file of the chain has patterns: nothing else is selected then, and this is no error. -/
theorem no_errors_no_root_files_iff (h : Host) (p : Path) :
    (read h p).errors = [] ∧ (read h p).fileNames = [] ↔
      ∃ l rest c, l.1 = p ∧ Config.IsChain h (l :: rest) ∧
        ((l :: rest).map (·.1.normalize)).Nodup ∧ Config.loadWithExtends h p = .ok c ∧
        (Options.ofJson c.compilerOptions).2 = [] ∧
        (l :: rest).findSome? (·.2.files) = some [] ∧
        (l :: rest).findSome? (·.2.includes) = none := by
  have hnil : ∀ c, Config.loadWithExtends h p = .ok c →
      ((read h p).errors = [] ∧ (read h p).fileNames = [] ↔
        (Options.ofJson c.compilerOptions).2 = [] ∧ c.files = some [] ∧ c.includes = none) := by
    intro c hload
    have hroots : c.rootFiles h (Options.ofJson c.compilerOptions).1 p = ([], []) ↔
        c.files = some [] ∧ c.includes = none := Config.rootFiles_eq_nil_iff
    rw [errors_eq_nil_iff_of_load hload, fileNames_of_load hload, and_assoc, ← hroots, Prod.ext_iff]
    exact and_congr_right' and_comm
  constructor
  · intro hsilent
    cases hload : Config.loadWithExtends h p with
    | error e => cases (errors_of_load_error hload).symm.trans hsilent.1
    | ok c =>
        obtain ⟨hoptions, hfiles, hincludes⟩ := (hnil c hload).mp hsilent
        obtain ⟨l, rest, rfl, hchain, hdistinct⟩ := Config.exists_isChain_of_load hload
        have hinherits := Config.inherits_of_load hchain hdistinct hload
        exact ⟨l, rest, c, rfl, hchain, hdistinct, rfl, hoptions, hinherits.files ▸ hfiles,
          hinherits.includes ▸ hincludes⟩
  · rintro ⟨l, rest, c, rfl, hchain, hdistinct, hload, hoptions, hfiles, hincludes⟩
    have hinherits := Config.inherits_of_load hchain hdistinct hload
    exact (hnil c hload).mpr
      ⟨hoptions, hinherits.files.trans hfiles, hinherits.includes.trans hincludes⟩

/-- An empty list is taken at its word: there is a file beside it, but there are no root files and no
errors. -/
theorem empty_list_selects_nothing :
    let h : Host :=
      { disk := ⟨[(["v"], .dir), (["v", "tsconfig.json"], .file (.text "\x7b\"files\": []\x7d") none),
          (["v", "a.ts"], .file (.text "") none)]⟩ }
    (read h ⟨"/v/tsconfig.json"⟩).errors.length = 0 ∧
      (read h ⟨"/v/tsconfig.json"⟩).fileNames = [] := by
  decide +kernel

end Project

end ScriptWorks
