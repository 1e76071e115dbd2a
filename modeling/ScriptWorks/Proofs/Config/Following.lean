import Mathlib.Data.List.Nodup
import ScriptWorks.Proofs.Config.Chain
import ScriptWorks.Proofs.FileSystem.Linkless
import ScriptWorks.Proofs.FileSystem.Tree
import ScriptWorks.Proofs.Path.Ancestors
import ScriptWorks.Proofs.Path.Resolving

/-!
# Where following `extends` ends

A configuration file is loaded by following what it and its bases extend, up to a file that extends
nothing, the first one that cannot be loaded, or one that was passed before. Files are told apart by their
normal paths. On a disk without links there are no more than two of those for each file, so that the end
comes after so many steps.
-/

namespace ScriptWorks.Config

/-! ## Following links -/

/-- The configuration is what stands in the file. -/
def Reads (h : Host) (l : Link) : Prop := ∃ text, h.readText l.1 = .ok text ∧ parse text = .ok l.2

/-- The file names another one as its base. -/
def Extends (h : Host) (l : Link) (q : Path) : Prop :=
  Reads h l ∧ ∃ name, l.2.extends? = some name ∧ basePath? h (dirOf l.1) name = some q

/-- The files that are passed from the path `p` on, each one extending the next, and the path that is
reached then. -/
inductive Trail (h : Host) (p : Path) : List Link → Path → Prop
  | start : Trail h p [] p
  | step {ls l q} : Trail h p ls l.1 → Extends h l q → Trail h p (ls ++ [l]) q

/-- The normal paths of the files. -/
def normals (ls : List Link) : List Path := ls.map (·.1.normalize)

/-- What comes of the path that is reached, where no further file is to be loaded: it was seen before,
or it cannot be loaded, or it extends nothing. -/
inductive Ends (h : Host) (seen : List Path) (r : Path) : Except LoadFault Config → Prop
  | circular : r.normalize ∈ seen → Ends h seen r (.error (.circular r.normalize))
  | unreadable {cause} : r.normalize ∉ seen → h.readText r = .error cause →
      Ends h seen r (.error (.unreadable r cause))
  | malformed {text fault} : r.normalize ∉ seen → h.readText r = .ok text →
      parse text = .error fault → Ends h seen r (.error (.malformed r text fault))
  | baseNotFound {c name} : r.normalize ∉ seen → Reads h (r, c) → c.extends? = some name →
      basePath? h (dirOf r) name = none → Ends h seen r (.error (.baseNotFound r name))
  | complete {c} : r.normalize ∉ seen → Reads h (r, c) → c.extends? = none →
      Ends h seen r (.ok (anchored (r, c)))

/-- The configuration at the end of a trail, overridden by those that extend it. -/
def mergedOnto (ls : List Link) (base : Config) : Config :=
  ls.foldr (fun l base => merge base { anchored l with extends? := none }) base

variable {h : Host} {p q r : Path} {l : Link} {ls : List Link} {seen visited : List Path}
  {last : Except LoadFault Config}

theorem normals_concat (ls : List Link) (l : Link) :
    normals (ls ++ [l]) = normals ls ++ [l.1.normalize] := List.map_append

theorem nodup_normals_concat : (normals (ls ++ [l])).Nodup ↔
    (normals ls).Nodup ∧ l.1.normalize ∉ normals ls := by
  rw [normals_concat, ← List.concat_eq_append, List.nodup_concat, and_comm]

theorem mergedOnto_concat (ls : List Link) (l : Link) (base : Config) :
    mergedOnto (ls ++ [l]) base =
      mergedOnto ls (merge base { anchored l with extends? := none }) := by
  rw [mergedOnto, List.foldr_append]
  rfl

/-! ## One file -/

/-- A path is the end of a trail, or it is that of a file that extends another one. -/
theorem ends_or_extends (h : Host) (seen : List Path) (r : Path) :
    (∃ last, Ends h seen r last) ∨ r.normalize ∉ seen ∧ ∃ c q, Extends h (r, c) q := by
  by_cases hseen : r.normalize ∈ seen
  · exact .inl ⟨_, .circular hseen⟩
  cases hread : h.readText r with
  | error cause => exact .inl ⟨_, .unreadable hseen hread⟩
  | ok text =>
      cases hparse : parse text with
      | error fault => exact .inl ⟨_, .malformed hseen hread hparse⟩
      | ok c =>
          have hreads : Reads h (r, c) := ⟨text, hread, hparse⟩
          cases hextends : c.extends? with
          | none => exact .inl ⟨_, .complete hseen hreads hextends⟩
          | some name =>
              cases hbase : basePath? h (dirOf r) name with
              | none => exact .inl ⟨_, .baseNotFound hseen hreads hextends hbase⟩
              | some q => exact .inr ⟨hseen, c, q, hreads, name, hextends, hbase⟩

theorem loadChain_of_ends (hends : Ends h seen r last) (hseen : ∀ k, k ∈ visited ↔ k ∈ seen)
    (fuel : Nat) : loadChain h (fuel + 1) visited r = last := by
  cases hends with
  | circular hold => simp [loadChain, (hseen _).mpr hold]
  | unreadable hnew hread => simp [loadChain, mt (hseen _).mp hnew, load, hread]
  | malformed hnew hread hparse => simp [loadChain, mt (hseen _).mp hnew, load, hread, hparse]
  | @baseNotFound c name hnew hreads hextends hbase =>
      obtain ⟨text, hread, hparse⟩ := hreads
      have hext : (anchored (r, c)).extends? = some name := hextends
      simp [loadChain, mt (hseen _).mp hnew, load_eq hread hparse, hext, hbase]
  | complete hnew hreads hextends =>
      obtain ⟨text, hread, hparse⟩ := hreads
      exact loadChain_of_last fuel (mt (hseen _).mp hnew) hread hparse hextends

/-! ## Trails -/

/-- Loading goes along a trail as long as its files are different. -/
theorem loadChain_of_trail (htrail : Trail h p ls r) (hdistinct : (normals ls).Nodup) (fuel : Nat) :
    loadChain h (ls.length + fuel) [] p =
      (loadChain h fuel (normals ls).reverse r).map (mergedOnto ls) := by
  induction htrail generalizing fuel with
  | start =>
      rw [List.length_nil, Nat.zero_add]
      cases hload : loadChain h fuel [] p <;> simp [hload, Except.map, mergedOnto, normals]
  | @step ls l q htrail hextends ih =>
      obtain ⟨⟨text, hread, hparse⟩, name, hname, hbase⟩ := hextends
      obtain ⟨hdistinct, hnew⟩ := nodup_normals_concat.mp hdistinct
      have hlink := loadChain_of_link fuel (mt List.mem_reverse.mp hnew) hread hparse hname hbase
      rw [List.length_append, List.length_singleton, Nat.add_assoc, Nat.add_comm 1, ih hdistinct,
        hlink, normals_concat, List.reverse_append]
      cases hload : loadChain h fuel (l.1.normalize :: (normals ls).reverse) q with
      | error fault => simp [Except.map, hload]
      | ok base => simp [Except.map, hload, mergedOnto_concat]

/-- A trail of different files leads to its end, or it is as long as one likes. -/
theorem exists_end_or_trail (h : Host) (p : Path) (n : Nat) :
    (∃ ls r last, Trail h p ls r ∧ (normals ls).Nodup ∧ Ends h (normals ls) r last) ∨
      ∃ ls r, Trail h p ls r ∧ (normals ls).Nodup ∧ ls.length = n := by
  induction n with
  | zero => exact .inr ⟨[], p, .start, .nil, rfl⟩
  | succ n ih =>
      rcases ih with hend | ⟨ls, r, htrail, hdistinct, hlength⟩
      · exact .inl hend
      · rcases ends_or_extends h (normals ls) r with ⟨last, hends⟩ | ⟨hnew, c, q, hextends⟩
        · exact .inl ⟨ls, r, last, htrail, hdistinct, hends⟩
        · exact .inr ⟨ls ++ [(r, c)], q, htrail.step hextends,
            nodup_normals_concat.mpr ⟨hdistinct, hnew⟩, by simp [hlength]⟩

theorem exists_end {n : Nat}
    (hbound : ∀ ls r, Trail h p ls r → (normals ls).Nodup → ls.length ≤ n) :
    ∃ ls r last, Trail h p ls r ∧ (normals ls).Nodup ∧ Ends h (normals ls) r last := by
  refine (exists_end_or_trail h p (n + 1)).resolve_right ?_
  rintro ⟨ls, r, htrail, hdistinct, hlength⟩
  have hle := hbound ls r htrail hdistinct
  omega

theorem Trail.exists_readText (htrail : Trail h p ls r) :
    ∀ l ∈ ls, ∃ text, h.readText l.1 = .ok text := by
  induction htrail with
  | start => nofun
  | @step ls l q _ hextends ih =>
      obtain ⟨⟨text, hread, -⟩, -⟩ := hextends
      exact List.forall_mem_append.mpr ⟨ih, List.forall_mem_singleton.mpr ⟨text, hread⟩⟩

/-! ## The limit -/

theorem isFile_of_basePath? {dir : Path} {name : String} (hbase : basePath? h dir name = some q) :
    h.isFile q = true := by
  unfold basePath? firstFile? at hbase
  exact List.find?_some hbase

theorem Trail.isFile (htrail : Trail h p ls r) (hls : ls ≠ []) : h.isFile r = true := by
  cases htrail with
  | start => exact absurd rfl hls
  | step _ hextends =>
      obtain ⟨-, name, -, hbase⟩ := hextends
      exact isFile_of_basePath? hbase

theorem Trail.length_le_of_files (htrail : Trail h p ls r) :
    ∀ q ∈ ls.map Prod.fst, q.text.utf8ByteSize ≤ Disk.maxPathLength := by
  intro q hq
  obtain ⟨l, hl, rfl⟩ := List.mem_map.mp hq
  obtain ⟨text, hread⟩ := htrail.exists_readText l hl
  exact Host.length_le_of_readText hread

/-- No trail of different files is longer than the limit, -/
theorem Trail.length_le (htrail : Trail h p ls r) (hdistinct : (normals ls).Nodup) :
    ls.length ≤ chainLimit := by
  have hle := @length_le_of_distinct (ls.map Prod.fst) (by rwa [List.map_map])
    htrail.length_le_of_files
  rwa [List.length_map] at hle

/-- and if its end is another file, it is shorter. -/
theorem Trail.length_lt (htrail : Trail h p ls r) (hdistinct : (normals ls).Nodup)
    (hnew : r.normalize ∉ normals ls) : ls.length < chainLimit := by
  by_cases hls : ls = []
  · rw [hls]
    exact Nat.pos_of_ne_zero chainLimit_ne_zero
  · have hpaths : ((ls.map Prod.fst ++ [r]).map Path.normalize).Nodup := by
      rw [List.map_append, List.map_map, List.nodup_append_comm]
      exact List.nodup_cons.mpr ⟨hnew, hdistinct⟩
    have hle := length_le_of_distinct hpaths <| List.forall_mem_append.mpr
      ⟨htrail.length_le_of_files,
        List.forall_mem_singleton.mpr (Host.length_le_of_isFile (htrail.isFile hls))⟩
    rwa [List.length_append, List.length_map] at hle

/-- With fuel for the files of a trail, the result is what comes of its end. -/
theorem loadChain_of_end (htrail : Trail h p ls r) (hdistinct : (normals ls).Nodup)
    (hends : Ends h (normals ls) r last) {fuel : Nat} (hle : ls.length ≤ fuel)
    (hlt : r.normalize ∉ normals ls → ls.length < fuel) :
    loadChain h fuel [] p = last.map (mergedOnto ls) := by
  obtain ⟨rest, rfl⟩ := Nat.exists_eq_add_of_le hle
  rw [loadChain_of_trail htrail hdistinct]
  cases rest with
  | zero =>
      -- Where the fuel ends, the path counts as one that was seen before.
      cases hends with
      | circular => rfl
      | unreadable hnew | malformed hnew | baseNotFound hnew | complete hnew =>
          exact absurd (hlt hnew) (Nat.lt_irrefl _)
  | succ rest => rw [loadChain_of_ends hends (fun k => List.mem_reverse) rest]

theorem loadWithExtends_of_end (htrail : Trail h p ls r) (hdistinct : (normals ls).Nodup)
    (hends : Ends h (normals ls) r last) : loadWithExtends h p = last.map (mergedOnto ls) :=
  loadChain_of_end htrail hdistinct hends (htrail.length_le hdistinct) (htrail.length_lt hdistinct)

/-! ## Disks without links -/

theorem exists_entry_of_readText (hd : h.disk.Linkless) {text : String}
    (hread : h.readText p = .ok text) :
    p.resolveFrom h.cwd ≠ [] ∧ ∃ n, (p.resolveFrom h.cwd, n) ∈ h.disk.entries := by
  unfold Host.readText Disk.readText at hread
  obtain ⟨⟨l, n⟩, hnode, hfile⟩ := bind_eq_ok.mp hread
  have hlookup := Disk.lookup?_of_node hnode
  obtain ⟨l', hlocate, hnode⟩ := bind_eq_ok.mp hnode
  obtain rfl : l' = l := by
    split at hnode
    case h_1 => cases hnode; rfl
    case h_2 => cases hnode
  obtain rfl := Disk.resolveFrom_of_locate hd hlocate
  have hroot : p.resolveFrom h.cwd ≠ [] := by
    intro hroot
    rw [hroot, Disk.lookup?_nil] at hlookup
    cases hlookup
    cases hfile
  exact ⟨hroot, n, Disk.mem_of_lookup? hroot hlookup⟩

/-- An absolute path extends absolute paths only. -/
theorem isAbsolute_of_extends (hd : h.disk.Linkless) (hl : l.1.isAbsolute = true)
    (hextends : Extends h l q) : q.isAbsolute = true := by
  obtain ⟨⟨text, hread, -⟩, name, -, hbase⟩ := hextends
  have hdir : (dirOf l.1).isAbsolute = true := by
    cases hparent : l.1.parent? with
    | none =>
        -- Without a parent the path is the root, which cannot be read.
        have hroot : l.1.resolveFrom h.cwd = [] := by
          rw [Path.resolveFrom, Path.parent?_eq_none hparent, hl]
          rfl
        exact absurd hroot (exists_entry_of_readText hd hread).1
    | some dir =>
        have habs := (Path.parent?_eq_some hparent).1.isAbsolute.trans hl
        simp [dirOf, hparent, Path.isEmpty_of_isAbsolute habs, habs]
  unfold basePath? firstFile? baseCandidates at hbase
  have hmem := List.mem_of_find?_eq_some hbase
  split at hmem
  case isTrue =>
    simp only [List.mem_cons, List.not_mem_nil, or_false] at hmem
    rcases hmem with rfl | rfl <;> exact Path.isAbsolute_join hdir _
  case isFalse =>
    obtain ⟨dir, hancestor, hmem⟩ := List.mem_flatMap.mp hmem
    have habs := (Path.above_of_mem_ancestors hancestor).isAbsolute.trans hdir
    have hmodules := Path.isAbsolute_join habs ⟨"node_modules"⟩
    simp only [packageCandidates, List.mem_cons, List.not_mem_nil, or_false] at hmem
    rcases hmem with rfl | rfl | rfl
    · exact Path.isAbsolute_join hmodules _
    · exact Path.isAbsolute_join hmodules _
    · exact Path.isAbsolute_join (Path.isAbsolute_join hmodules _) _

theorem Trail.isAbsolute (htrail : Trail h p ls r) (hd : h.disk.Linkless)
    (hp : p.isAbsolute = true) : (∀ l ∈ ls, l.1.isAbsolute = true) ∧ r.isAbsolute = true := by
  induction htrail with
  | start => exact ⟨nofun, hp⟩
  | step _ hextends ih =>
      exact ⟨List.forall_mem_append.mpr ⟨ih.1, List.forall_mem_singleton.mpr ih.2⟩,
        isAbsolute_of_extends hd ih.2 hextends⟩

/-- Each entry of the disk is passed under its two normal paths at most. -/
theorem Trail.length_le_entries (htrail : Trail h p ls r) (hd : h.disk.Linkless)
    (hp : p.isAbsolute = true) (hdistinct : (normals ls).Nodup) :
    ls.length ≤ 2 * h.disk.entries.length := by
  have hsub : normals ls ⊆ h.disk.entries.flatMap fun e => Path.normalForms e.1 := by
    intro k hk
    obtain ⟨l, hl, rfl⟩ := List.mem_map.mp hk
    obtain ⟨text, hread⟩ := htrail.exists_readText l hl
    obtain ⟨-, n, hentry⟩ := exists_entry_of_readText hd hread
    exact List.mem_flatMap.mpr ⟨_, hentry,
      Path.normalize_mem_normalForms ((htrail.isAbsolute hd hp).1 l hl) h.cwd⟩
  have hle := hdistinct.length_le_of_subset hsub
  simpa [normals, Path.normalForms, List.length_flatMap, List.map_const', Nat.mul_comm] using hle

/-! ## All configurations -/

/-- Loading follows what the files extend and gives what comes of the end: the circle exactly if a path is
reached whose normal form was passed, else the first fault, else the configuration of the last file
overridden by the others. No two of the files have one normal path, and on a disk without links there are
no more than two for each of its entries, so that the limit plays no part. -/
theorem loading_follows_extends (h : Host) (p : Path) :
    (h.disk.Linkless → p.isAbsolute = true →
      (∀ ls r, Trail h p ls r → (normals ls).Nodup → ls.length ≤ 2 * h.disk.entries.length) ∧
      ∀ fuel, 2 * h.disk.entries.length < fuel → loadChain h fuel [] p = loadWithExtends h p) ∧
    (∀ k, loadWithExtends h p = .error (.circular k) ↔
      ∃ ls r, Trail h p ls r ∧ (normals ls).Nodup ∧ r.normalize = k ∧ k ∈ normals ls) ∧
    ∀ result, loadWithExtends h p = result ↔
      ∃ ls r last, Trail h p ls r ∧ (normals ls).Nodup ∧ Ends h (normals ls) r last ∧
        result = last.map (mergedOnto ls) := by
  have hiff : ∀ result, loadWithExtends h p = result ↔
      ∃ ls r last, Trail h p ls r ∧ (normals ls).Nodup ∧ Ends h (normals ls) r last ∧
        result = last.map (mergedOnto ls) := by
    intro result
    constructor
    · rintro rfl
      obtain ⟨ls, r, last, htrail, hdistinct, hends⟩ :=
        exists_end fun ls r (htrail : Trail h p ls r) => htrail.length_le
      exact ⟨ls, r, last, htrail, hdistinct, hends, loadWithExtends_of_end htrail hdistinct hends⟩
    · rintro ⟨ls, r, last, htrail, hdistinct, hends, rfl⟩
      exact loadWithExtends_of_end htrail hdistinct hends
  refine ⟨fun hd hp => ?_, fun k => (hiff _).trans ⟨?_, ?_⟩, hiff⟩
  · have hbound : ∀ ls r, Trail h p ls r → (normals ls).Nodup →
        ls.length ≤ 2 * h.disk.entries.length :=
      fun ls r htrail => htrail.length_le_entries hd hp
    refine ⟨hbound, fun fuel hfuel => ?_⟩
    obtain ⟨ls, r, last, htrail, hdistinct, hends⟩ := exists_end hbound
    have hlt := Nat.lt_of_le_of_lt (hbound ls r htrail hdistinct) hfuel
    rw [loadChain_of_end htrail hdistinct hends (Nat.le_of_lt hlt) fun _ => hlt,
      loadWithExtends_of_end htrail hdistinct hends]
  · rintro ⟨ls, r, last, htrail, hdistinct, hends, heq⟩
    cases hends with
    | circular hold =>
        cases heq
        exact ⟨ls, r, htrail, hdistinct, rfl, hold⟩
    | unreadable | malformed | baseNotFound | complete => cases heq
  · rintro ⟨ls, r, htrail, hdistinct, rfl, hold⟩
    exact ⟨ls, r, _, htrail, hdistinct, .circular hold, rfl⟩

/-- A package extends the file that extends it, by another spelling of its path. -/
theorem loading_follows_extends_of_circle :
    let p : Path := ⟨"/p/a.json"⟩
    let q : Path := ⟨"/node_modules/base/tsconfig.json"⟩
    let r : Path := ⟨"/node_modules/base/../.././p/a.json"⟩
    let text := "\x7b\"extends\": \"base\"\x7d"
    let baseText := "\x7b\"extends\": \"../.././p/a.json\"\x7d"
    let h : Host :=
      { disk := ⟨[(["p"], .dir), (["p", "a.json"], .file (.text text) none),
          (["node_modules"], .dir), (["node_modules", "base"], .dir),
          (["node_modules", "base", "tsconfig.json"], .file (.text baseText) none)]⟩ }
    h.disk.Linkless ∧ p.isAbsolute = true ∧
      (∃ c base, Trail h p [(p, c), (q, base)] r) ∧ r.normalize = p ∧
      loadWithExtends h p = .error (.circular p) ∧ loadChain h 11 [] p = .error (.circular p) := by
  intro p q r text baseText h
  have hread : h.readText p = .ok text := toOption_eq_some.mp (by decide +kernel)
  have hreadBase : h.readText q = .ok baseText := toOption_eq_some.mp (by decide +kernel)
  have hbase : basePath? h (dirOf p) "base" = some q := by decide +kernel
  have hback : basePath? h (dirOf q) "../.././p/a.json" = some r := by decide +kernel
  have htop : (parse text).toOption.map (·.extends?) = some (some "base") := by decide +kernel
  have hbottom : (parse baseText).toOption.map (·.extends?) = some (some "../.././p/a.json") := by
    decide +kernel
  obtain ⟨c, hc, hextends⟩ := Option.map_eq_some_iff.mp htop
  obtain ⟨base, hb, hextendsBase⟩ := Option.map_eq_some_iff.mp hbottom
  have hfirst : Extends h (p, c) q :=
    ⟨⟨text, hread, toOption_eq_some.mp hc⟩, "base", hextends, hbase⟩
  have hsecond : Extends h (q, base) r :=
    ⟨⟨baseText, hreadBase, toOption_eq_some.mp hb⟩, "../.././p/a.json", hextendsBase, hback⟩
  have htrail : Trail h p ([] ++ [(p, c)] ++ [(q, base)]) r :=
    .step (l := (q, base)) (.step (l := (p, c)) .start hfirst) hsecond
  have hlinks : h.disk.Linkless := Disk.linkless_of_all (by simp [h])
  have hp : p.isAbsolute = true := by decide
  have hnormal : r.normalize = p := by decide +kernel
  have hself : p.normalize = p := by decide +kernel
  have hother : q.normalize ≠ p := by decide +kernel
  obtain ⟨hbound, hcircular, -⟩ := loading_follows_extends h p
  have hload := (hcircular p).mpr ⟨_, r, htrail, by simp [normals, hself, hother.symm], hnormal,
    by simp [normals, hself]⟩
  exact ⟨hlinks, hp, ⟨c, base, htrail⟩, hnormal, hload,
    ((hbound hlinks hp).2 11 (by decide)).trans hload⟩

end ScriptWorks.Config
