import ScriptWorks.Proofs.FileSystem.Spelling
import ScriptWorks.Proofs.Path.Ancestors
import ScriptWorks.Resolution
import ScriptWorks.Small.Compiler

/-!
# The nearest configuration

The search for a configuration goes through the ancestors of its start as that is written. For a path
from the root these are all directories above it; for a relative path they end at the working directory.
-/

namespace ScriptWorks

/-! ## Paths that the system takes -/

namespace Path

variable {p q : Path} {s : String}

theorem text_child (hs : IsLoud s.toList) (p : Path) :
    (p.child s).text = p.text ++ s ∨ (p.child s).text = p.text ++ "/" ++ s := by
  have hq : Tidy ⟨s⟩ false [s.toList] :=
    ⟨chars_inj.mp (chars_ofChars _).symm, by simpa using hs⟩
  unfold child join
  rw [hq.isAbsolute, if_neg (by decide)]
  split
  · exact .inl rfl
  · exact .inr rfl

theorem endsIn_child (hs : IsLoud s.toList) (p : Path) : (p.child s).EndsIn s.toList :=
  EndsIn.join ⟨hs.noSlash, .inl rfl⟩ p

theorem isEmpty_child (hs : IsLoud s.toList) (p : Path) : (p.child s).isEmpty = false := by
  have hne : s ≠ "" := fun h => hs.ne_nil (by rw [h]; rfl)
  rcases text_child hs p with h | h <;> simp [isEmpty, h, hne]

theorem nul_mem_child (hs : IsLoud s.toList) (p : Path) :
    '\x00' ∈ (p.child s).chars ↔ '\x00' ∈ p.chars ∨ '\x00' ∈ s.toList := by
  simp only [chars]
  rcases text_child hs p with h | h <;> simp [h]

/-- What stands in a directory above can be asked for if it can be asked for below. -/
theorem Above.checkPath_child (h : Above q p) (hs : IsLoud s.toList)
    (hcheck : Disk.checkPath (p.child s) = .ok ()) : Disk.checkPath (q.child s) = .ok () := by
  by_cases heq : q = p
  · rwa [heq]
  obtain ⟨rest, hrest⟩ := h.chars
  have htext : p.text = q.text ++ String.ofList rest := by
    rw [← String.toList_inj, String.toList_append, String.toList_ofList]
    exact hrest.symm
  have hlong : 1 ≤ (String.ofList rest).utf8ByteSize := by
    refine Nat.one_le_iff_ne_zero.mpr fun hzero => heq ?_
    have hnil : String.ofList rest = "" := String.utf8ByteSize_eq_zero_iff.mp hzero
    rw [hnil, String.append_empty] at htext
    exact congrArg Path.mk htext.symm
  obtain ⟨-, hnul, hshort⟩ := Disk.checkPath_eq_ok.mp hcheck
  have hslash : "/".utf8ByteSize = 1 := rfl
  have hsize : (q.child s).text.utf8ByteSize ≤ (p.child s).text.utf8ByteSize := by
    rcases text_child hs q with hq | hq <;> rcases text_child hs p with hp | hp <;>
      simp only [hq, hp, htext, String.utf8ByteSize_append, hslash] <;> omega
  refine Disk.checkPath_eq_ok.mpr ⟨isEmpty_child hs q, fun hmem => hnul ?_, hsize.trans hshort⟩
  rw [nul_mem_child hs] at hmem ⊢
  exact hmem.imp_left fun hmem => h.chars.subset hmem

end Path

/-! ## Ancestors on a disk -/

namespace Host

variable {h : Host} {a b d dir : Path} {name : String}

theorem above_seen_cwd (hcwd : h.Stands) (hd : d.isAbsolute = false) :
    h.cwd.path.components <+: h.trail d := by
  rw [hcwd.tidy.components, hcwd.map_componentOf, trail, if_neg (by simp [hd])]
  exact ⟨_, rfl⟩

/-- The trail of an ancestor is what the trail begins with. -/
theorem trail_isPrefix (h : Host) (hab : Path.Above a d) : h.trail a <+: h.trail d := by
  unfold trail
  rw [hab.isAbsolute]
  split
  · exact hab.components
  · exact (List.prefix_append_right_inj _).mpr (hab.components.filter _)

theorem trail_le_of_le {d : Path} (ha : a ∈ d.ancestors) (hb : b ∈ d.ancestors)
    (hle : a.components.length ≤ b.components.length) :
    (h.trail a).length ≤ (h.trail b).length := by
  have ha' := Path.above_of_mem_ancestors ha
  have hb' := Path.above_of_mem_ancestors hb
  have hab := List.prefix_of_prefix_length_le ha'.components hb'.components hle
  unfold trail
  rw [ha'.isAbsolute, hb'.isAbsolute]
  split
  · exact hle
  · simpa using (hab.filter (· ≠ .here)).length_le

/-- The path is another one as it is seen from the root. -/
structure Sees (h : Host) (d root : Path) : Prop where
  isAbsolute : root.isAbsolute = true
  components : root.components = h.trail d

theorem Sees.trail_eq {root : Path} (hroot : h.Sees d root) (hdir : dir ∈ root.ancestors) :
    h.trail dir = dir.components := by
  rw [trail, (Path.above_of_mem_ancestors hdir).isAbsolute, hroot.isAbsolute, if_pos rfl]

/-- Every ancestor is an ancestor from the root on. -/
theorem Sees.exists_from_root {root : Path} (hroot : h.Sees d root) (ha : a ∈ d.ancestors) :
    ∃ dir ∈ root.ancestors, dir.components = h.trail a := by
  refine Path.exists_mem_ancestors ?_ ?_
  · rw [hroot.isAbsolute]
    obtain ⟨cs, hcs⟩ := List.head?_eq_some_iff.mp (head?_trail (h := h) a)
    exact ⟨cs, hcs.symm⟩
  · rw [hroot.components]
    exact h.trail_isPrefix (Path.above_of_mem_ancestors ha)

/-- An ancestor from the root on that is not above the working directory is one as the path is
written. -/
theorem Sees.exists_as_written {root : Path} (hcwd : h.Stands) (hroot : h.Sees d root)
    (hdir : dir ∈ root.ancestors)
    (hbelow : d.isAbsolute = true ∨ h.cwd.path.components <+: dir.components) :
    ∃ a ∈ d.ancestors, h.trail a = dir.components := by
  have habove := (Path.above_of_mem_ancestors hdir).components
  rw [hroot.components] at habove
  cases hd : d.isAbsolute with
  | true =>
      rw [trail, if_pos hd] at habove
      have hstart : Path.rootPart d.isAbsolute <+: dir.components := by
        have hdirAbs := (Path.above_of_mem_ancestors hdir).isAbsolute.trans hroot.isAbsolute
        rw [hd, ← hdirAbs]
        exact dir.rootPart_isPrefix_components
      obtain ⟨a, ha, heq⟩ := Path.exists_mem_ancestors hstart habove
      refine ⟨a, ha, ?_⟩
      rw [trail, (Path.above_of_mem_ancestors ha).isAbsolute, hd, if_pos rfl, heq]
  | false =>
      obtain ⟨cs, hcs⟩ := hbelow.resolve_left (by simp [hd])
      rw [hcwd.tidy.components, hcwd.map_componentOf] at hcs
      rw [← hcs, trail, if_neg (by simp [hd])] at habove
      have hrest : cs <+: d.components.filter (· ≠ .here) :=
        (List.prefix_append_right_inj _).mp habove
      obtain ⟨front, hfront, rfl⟩ := List.prefix_filter_iff.mp hrest
      obtain ⟨a, ha, rfl⟩ := Path.exists_mem_ancestors
        (by rw [hd]; exact List.nil_prefix) hfront
      refine ⟨a, ha, ?_⟩
      rw [trail, (Path.above_of_mem_ancestors ha).isAbsolute, hd, if_neg (by decide), ← hcs]
      rfl

theorem sees_join (hcwd : h.Stands) (d : Path) : h.Sees d (h.cwd.path.join d) :=
  ⟨isAbsolute_seen hcwd d, components_seen hcwd d⟩

/-- One directory holds one file, however it is written. -/
theorem isFile_child_eq (hcwd : h.Stands) (hname : Path.IsLoud name.toList)
    (ha : Disk.checkPath (a.child name) = .ok ()) (hdir : Disk.checkPath (dir.child name) = .ok ())
    (htrail : h.trail a = h.trail dir) : h.isFile (a.child name) = h.isFile (dir.child name) := by
  refine isFile_eq_of_trail hcwd hname (Path.endsIn_child hname a) ha (Path.endsIn_child hname dir)
    hdir ?_
  rw [trail_child hname, trail_child hname, htrail]

end Host

/-! ## The search -/

/-- Where the search for a configuration starts: for a file in its directory. -/
def searchStart {ω : Type} [FileSystem ω] (w : ω) (start : Path) : Path :=
  if FileSystem.isFile w start then start.parent?.getD start else start

namespace Engine

variable {ω π : Type} [FileSystem ω] {e : Engine ω π} {w : ω} {start c : Path}

theorem findConfig_eq_some (h : e.findConfig w start = some c) :
    ∃ a ∈ (searchStart w start).ancestors, c = a.child e.configFileName ∧
      FileSystem.isFile w c = true ∧
      ∀ b ∈ (searchStart w start).ancestors, FileSystem.isFile w (b.child e.configFileName) = true →
        b.components.length ≤ a.components.length := by
  unfold findConfig at h
  rw [List.find?_map] at h
  obtain ⟨a, ha, rfl⟩ := Option.map_eq_some_iff.mp h
  have hfile := List.find?_some ha
  exact ⟨a, List.mem_of_find?_eq_some ha, rfl, hfile,
    fun b hb hheld => Path.length_le_of_find?_ancestors ha hb hheld⟩

theorem findConfig_eq_none (h : e.findConfig w start = none) :
    ∀ b ∈ (searchStart w start).ancestors, FileSystem.isFile w (b.child e.configFileName) = false := by
  unfold findConfig at h
  intro b hb
  exact Bool.eq_false_iff.mpr (List.find?_eq_none.mp h _ (List.mem_map_of_mem hb))

end Engine

/-- Of the directories that hold a file of the name it is the closest. -/
structure Host.IsClosest (h : Host) (name : String) (dirs : List Path) (dir : Path) : Prop where
  mem : dir ∈ dirs
  isFile : h.isFile (dir.child name) = true
  longest : ∀ other ∈ dirs, h.isFile (other.child name) = true →
    other.components.length ≤ dir.components.length

theorem Host.IsClosest.components_eq {h : Host} {name : String} {root dir dir' : Path}
    (hdir : h.IsClosest name root.ancestors dir) (hdir' : h.IsClosest name root.ancestors dir') :
    dir.components = dir'.components := by
  have hle := hdir'.longest dir hdir.mem hdir.isFile
  have hge := hdir.longest dir' hdir'.mem hdir'.isFile
  have hbegin := List.prefix_of_prefix_length_le (Path.above_of_mem_ancestors hdir.mem).components
    (Path.above_of_mem_ancestors hdir'.mem).components hle
  exact hbegin.eq_of_length (Nat.le_antisymm hle hge)

namespace Engine

variable {π : Type} (e : Engine Workstation π) {w : Workstation} {start c : Path}

theorem closest_of_findConfig (hcwd : w.host.Stands) (hname : Path.IsLoud e.configFileName.toList)
    {root : Path} (hroot : w.host.Sees (searchStart w start) root)
    (hstart : Disk.checkPath ((searchStart w start).child e.configFileName) = .ok ())
    (hcheck : Disk.checkPath (root.child e.configFileName) = .ok ())
    (h : e.findConfig w start = some c) :
    ∃ dir, w.host.IsClosest e.configFileName root.ancestors dir ∧
      w.host.trail c = (dir.child e.configFileName).components := by
  obtain ⟨a, ha, rfl, hfile, hlongest⟩ := findConfig_eq_some h
  generalize searchStart w start = d at *
  have hsame : ∀ b ∈ d.ancestors, ∀ dir ∈ root.ancestors, dir.components = w.host.trail b →
      w.host.isFile (b.child e.configFileName) = w.host.isFile (dir.child e.configFileName) := by
    intro b hb dir hdir heq
    refine Host.isFile_child_eq hcwd hname
      ((Path.above_of_mem_ancestors hb).checkPath_child hname hstart)
      ((Path.above_of_mem_ancestors hdir).checkPath_child hname hcheck) ?_
    rw [hroot.trail_eq hdir, heq]
  obtain ⟨dir, hdir, hcomponents⟩ := hroot.exists_from_root ha
  refine ⟨dir, ⟨hdir, (hsame a ha dir hdir hcomponents).symm.trans hfile, fun other hother hheld => ?_⟩,
    ?_⟩
  · by_cases hbelow : d.isAbsolute = true ∨ w.host.cwd.path.components <+: other.components
    · obtain ⟨b, hb, hbtrail⟩ := hroot.exists_as_written hcwd hother hbelow
      rw [← hsame b hb other hother hbtrail.symm] at hheld
      rw [← hbtrail, hcomponents]
      exact Host.trail_le_of_le hb ha (hlongest b hb hheld)
    · -- above the working directory, where the search of a relative path does not come
      rw [not_or] at hbelow
      have hrel : d.isAbsolute = false := Bool.eq_false_iff.mpr hbelow.1
      have hother' := (Path.above_of_mem_ancestors hother).components
      rw [hroot.components] at hother'
      have hshort : other.components.length ≤ w.host.cwd.path.components.length := by
        refine Nat.le_of_not_le fun hle => hbelow.2 ?_
        exact List.prefix_of_prefix_length_le (Host.above_seen_cwd hcwd hrel) hother' hle
      have hlong : w.host.cwd.path.components <+: w.host.trail a :=
        Host.above_seen_cwd hcwd ((Path.above_of_mem_ancestors ha).isAbsolute.trans hrel)
      rw [hcomponents]
      exact hshort.trans hlong.length_le
  · rw [Host.trail_child hname, Path.components_child hname, hcomponents]

theorem not_held_of_findConfig (hcwd : w.host.Stands) (hname : Path.IsLoud e.configFileName.toList)
    {root : Path} (hroot : w.host.Sees (searchStart w start) root)
    (hstart : Disk.checkPath ((searchStart w start).child e.configFileName) = .ok ())
    (hcheck : Disk.checkPath (root.child e.configFileName) = .ok ())
    (h : e.findConfig w start = none) {dir : Path} (hdir : dir ∈ root.ancestors)
    (hbelow : (searchStart w start).isAbsolute = true ∨
      w.host.cwd.path.components <+: dir.components) :
    w.host.isFile (dir.child e.configFileName) = false := by
  obtain ⟨b, hb, hbtrail⟩ := hroot.exists_as_written hcwd hdir hbelow
  rw [← Host.isFile_child_eq hcwd hname
    ((Path.above_of_mem_ancestors hb).checkPath_child hname hstart)
    ((Path.above_of_mem_ancestors hdir).checkPath_child hname hcheck)
    (by rw [hroot.trail_eq hdir, hbtrail])]
  exact findConfig_eq_none h b hb

end Engine

theorem isAbsolute_searchStart {ω : Type} [FileSystem ω] (w : ω) (start : Path) :
    (searchStart w start).isAbsolute = start.isAbsolute := by
  unfold searchStart
  split
  · cases hparent : start.parent? with
    | none => rfl
    | some q => exact (Path.parent?_eq_some hparent).1.isAbsolute
  · rfl

/-- The configuration that is found is the one of the closest directory that holds one; where none is
found, no directory up to the root holds one, or for a relative path none up to the working
directory. -/
theorem nearest_config_is_found (compiler : Compiler) (checker : Option Path) (w : Workstation)
    (start : Path)
    (hcwd : w.host.Stands)
    (hstart : Disk.checkPath ((searchStart w start).child "tsconfig.json") = .ok ())
    (hseen : Disk.checkPath
      ((w.host.cwd.path.join (searchStart w start)).child "tsconfig.json") = .ok ()) :
    let dirs := (w.host.cwd.path.join (searchStart w start)).ancestors
    match (compiler.engine checker).findConfig w start with
    | some config => ∃ dir, w.host.IsClosest "tsconfig.json" dirs dir ∧
        (w.host.absolute config).same (dir.child "tsconfig.json") = true
    | none => ∀ dir ∈ dirs, start.isAbsolute = true ∨ dir.startsWith w.host.cwd.path = true →
        w.host.isFile (dir.child "tsconfig.json") = false := by
  intro dirs
  have hname : Path.IsLoud "tsconfig.json".toList := ⟨by decide, by decide⟩
  have hroot := Host.sees_join hcwd (searchStart w start)
  split
  case h_1 config hconfig =>
    obtain ⟨dir, hclosest, htrail⟩ :=
      (compiler.engine checker).closest_of_findConfig hcwd hname hroot hstart hseen hconfig
    refine ⟨dir, hclosest, decide_eq_true ?_⟩
    obtain ⟨a, -, rfl, -⟩ := Engine.findConfig_eq_some hconfig
    exact (Host.components_absolute hcwd (Path.isEmpty_child hname a)).trans htrail
  case h_2 hconfig =>
    intro dir hdir hbelow
    refine (compiler.engine checker).not_held_of_findConfig hcwd hname hroot hstart hseen hconfig hdir ?_
    rw [isAbsolute_searchStart]
    exact hbelow.imp_right List.isPrefixOf_iff_prefix.mp

/-- A start that does not exist, below two directories with a configuration. -/
theorem nearest_config_is_found_of_nested :
    let w : Workstation :=
      { host :=
        { cwd := ["v", "w"]
          disk := ⟨[(["v"], .dir), (["v", "w"], .dir), (["v", "w", "lib"], .dir),
            (["v", "w", "tsconfig.json"], .file (.text "\x7b\x7d") none),
            (["v", "w", "lib", "tsconfig.json"], .file (.text "\x7b\x7d") none)]⟩ } }
    (Engine.onHost none).findConfig w ⟨"./lib/new/a.ts"⟩ = some ⟨"./lib/tsconfig.json"⟩ ∧
      ∃ dir, w.host.IsClosest "tsconfig.json" (⟨"/v/w/./lib/new/a.ts"⟩ : Path).ancestors dir ∧
        (w.host.absolute ⟨"./lib/tsconfig.json"⟩).same (dir.child "tsconfig.json") = true := by
  intro w
  have hconfig : (Engine.onHost none).findConfig w ⟨"./lib/new/a.ts"⟩ = some ⟨"./lib/tsconfig.json"⟩ := by
    decide +kernel
  have hcwd : w.host.Stands := Host.stands_iff.mpr (by decide +kernel)
  have hclosest := nearest_config_is_found .small none w ⟨"./lib/new/a.ts"⟩ hcwd (by decide +kernel)
    (by decide +kernel)
  have hstart : searchStart w ⟨"./lib/new/a.ts"⟩ = ⟨"./lib/new/a.ts"⟩ := by decide +kernel
  have hseen : w.host.cwd.path.join ⟨"./lib/new/a.ts"⟩ = ⟨"/v/w/./lib/new/a.ts"⟩ := by decide +kernel
  rw [hconfig, hstart, hseen] at hclosest
  exact ⟨hconfig, hclosest⟩

/-- A configuration above the working directory is not found for a relative path, though it is for the
absolute one. -/
theorem config_above_cwd_is_missed :
    let w : Workstation :=
      { host :=
        { cwd := ["v", "w"]
          disk := ⟨[(["v"], .dir), (["v", "w"], .dir),
            (["v", "tsconfig.json"], .file (.text "\x7b\x7d") none),
            (["v", "w", "a.ts"], .file (.text "const a = 1;\n") none)]⟩ } }
    (Engine.onHost none).findConfig w ⟨"a.ts"⟩ = none ∧
      (Engine.onHost none).findConfig w ⟨"/v/w/a.ts"⟩ = some ⟨"/v/tsconfig.json"⟩ ∧
      (∃ dir ∈ (w.host.cwd.path.join (searchStart w ⟨"a.ts"⟩)).ancestors,
        w.host.isFile (dir.child "tsconfig.json") = true) := by
  decide +kernel

end ScriptWorks
