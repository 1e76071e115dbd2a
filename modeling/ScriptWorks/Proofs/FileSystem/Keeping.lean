import ScriptWorks.Proofs.FileSystem.Gaining
import ScriptWorks.Proofs.FileSystem.Tree

/-!
# Hosts that outputs are written on

A disk on which an output is written gains it and the directories on the way. The output can be written
again, to the same place, and every file that is read under another name stays what it is.
-/

namespace ScriptWorks

namespace Disk

variable {d d' : Disk} {cwd l : Location} {p : Path} {name : String} {n : Node} {s : String}

/-! ## Changes -/

theorem Gains.put (hl : l ≠ []) (hn : Gain l (d.lookup? l) (some n)) : Gains d (d.put l n) := by
  intro m
  rw [lookup?_put d hl]
  split
  case isTrue heq => exact heq ▸ hn
  case isFalse => exact .same

/-- What is put into a directory, in place of no other directory, stands in one. -/
theorem Closed.put (hd : d.Closed) (hdir : d.lookup? l = some .dir)
    (hentry : d.lookup? (l ++ [name]) ≠ some .dir) (n : Node) : (d.put (l ++ [name]) n).Closed := by
  intro m other hthere
  rw [lookup?_put d (by simp)] at hthere ⊢
  have hm : d.lookup? m = some .dir := by
    split at hthere
    case isTrue heq =>
      rw [(List.append_inj' heq rfl).1, hdir]
    case isFalse => exact hd m other hthere
  have hne : m ≠ l ++ [name] := by
    rintro rfl
    exact hentry hm
  rw [if_neg hne, hm]

/-- That a disk is a tree can be seen in the table. -/
theorem closed_of_all (h : ∀ e ∈ d.entries, d.lookup? e.1.dropLast = some .dir) : d.Closed := by
  intro l name hthere
  obtain ⟨n, hn⟩ := Option.ne_none_iff_exists'.mp hthere
  simpa using h _ (mem_of_lookup? (by simp) hn)

theorem Linkless.unlinked (hd : d.Linkless) : d.Unlinked := fun l target hl => absurd hl (hd l target)

theorem dir_of_slot {e : Slot} (h : d.slot cwd p = .ok e) : d.lookup? e.dir = some .dir := by
  unfold slot at h
  obtain ⟨u, -, h⟩ := bind_eq_ok.mp h
  obtain ⟨dir, -, h⟩ := bind_eq_ok.mp h
  split at h
  case h_2 => cases h
  case h_1 hdir =>
    split at h
    case isTrue => cases h
    case isFalse =>
      cases h
      exact hdir

theorem exists_put_of_makeDir (h : d.makeDir cwd p = .ok d') :
    ∃ dir name, d.lookup? dir = some .dir ∧ d.lookup? (dir ++ [name]) = none ∧
      d' = d.put (dir ++ [name]) .dir := by
  unfold makeDir at h
  obtain ⟨e, hslot, h⟩ := bind_eq_ok.mp h
  cases hr : e.isRelative with
  | true => simp [hr] at h
  | false =>
      cases hl : d.lookup? e.location with
      | some n => simp [hr, hl] at h
      | none =>
          simp only [hr, hl, Bool.false_eq_true, if_false] at h
          cases h
          exact ⟨e.dir, e.name, dir_of_slot hslot, hl, rfl⟩

theorem Gains.makeDirs {ps : List Path} (h : d.makeDirs cwd ps = .ok d') :
    Gains d d' ∧ (d.Closed → d'.Closed) := by
  refine makeDirs_induct (R := fun d d' => Gains d d' ∧ (d.Closed → d'.Closed))
    (fun d => ⟨.refl d, id⟩) (fun h h' => ⟨h.1.trans h'.1, h'.2 ∘ h.2⟩) (fun h => ?_) h
  obtain ⟨dir, name, hdir, hnone, rfl⟩ := exists_put_of_makeDir h
  refine ⟨.put (by simp) ?_, fun hd => hd.put hdir (by simp [hnone]) _⟩
  rw [hnone]
  exact .dir

theorem writeText_eq_ok (h : d.writeText cwd p s = (.ok (), d')) :
    ∃ made, ∃ e : Slot, d.makeDirs cwd (parentDir p).ancestors = .ok made ∧ e.IsFor made cwd p ∧
      made.lookup? e.location ≠ some .dir ∧ d.target cwd p = e.location ∧
      d' = made.put e.location (.file (.text s) none) := by
  unfold writeText at h
  split at h
  case h_1 => cases h
  case h_2 made hmade =>
    split at h
    case h_1 => cases h
    case h_2 hreplace =>
      cases h
      obtain ⟨e, hslot, he, hentry, hput⟩ := isFor_of_replaceFile hreplace
      refine ⟨made, e, hmade, he, hentry, ?_, hput⟩
      unfold target
      rw [hmade]
      simp only [hslot]

namespace Slot.IsFor

variable {e : Slot}

/-- What can be moved to the entry is named like the path. -/
theorem fileName? (he : e.IsFor d cwd p) : p.fileName? = some e.name := by
  rw [he.endsIn.fileName? he.loud he.isName, String.ofList_toList]

theorem gain (he : e.IsFor d cwd p) (hd : d.Unlinked) (hp : p.isInput = false)
    (hentry : d.lookup? e.location ≠ some .dir) (s : String) :
    Gain e.location (d.lookup? e.location) (some (.file (.text s) none)) := by
  have hout : Location.namesOutput e.location = true := by
    rw [Slot.location, Location.namesOutput_concat]
    exact Path.isInput_eq_false_iff.mp hp e.name he.fileName?
  cases hn : d.lookup? e.location with
  | none => exact .created hout
  | some n =>
      cases n with
      | dir => exact absurd hn hentry
      | file => exact .replaced hout
      | link target =>
          rw [hd _ target hn] at hout
          cases hout

end Slot.IsFor

end Disk

namespace Host

variable {h h' : Host} {p : Path} {s : String} {l : Location} {content : Content}
  {behaviour : Option Behaviour}

/-- The disk is a tree, the working directory is there, and no link has the name of an output. -/
structure Steady (h : Host) : Prop where
  cwd : h.disk.lookup? h.cwd = some .dir
  closed : h.disk.Closed
  unlinked : h.disk.Unlinked

/-- No output that is written leads the path to another file. -/
def Sure (h : Host) (p : Path) : Prop :=
  h.disk.Sure (if p.isAbsolute then [] else h.cwd) (Path.steps p.components)

/-- Outputs were written, and the process is where it was. -/
structure Gains (h h' : Host) : Prop where
  disk : h.disk.Gains h'.disk
  cwd : h'.cwd = h.cwd

/-- The path names a file by the entry that the file stands at. -/
def Holds (h : Host) (p : Path) (l : Location) : Prop :=
  ∃ dir x content behaviour, l = dir ++ [String.ofList x] ∧ h.NamesIn dir p x ∧
    String.ofList x ≠ ".." ∧ (String.ofList x).utf8ByteSize ≤ Disk.maxNameLength ∧
    h.disk.lookup? l = some (.file content behaviour)

namespace Holds

theorem target_eq (hp : h.Holds p l) : h.disk.target h.cwd p = l := by
  obtain ⟨dir, x, content, behaviour, rfl, hnames, -, hshort, -⟩ := hp
  unfold Disk.target
  rw [hnames.makeDirs_eq]
  simp only [hnames.slot_eq, Nat.not_lt.mpr hshort, if_false, Disk.Slot.location]

theorem writable (hp : h.Holds p l) (s : String) :
    ∃ h', FileSystem.writeText h p s = (.ok (), h') := by
  obtain ⟨dir, x, content, behaviour, rfl, hnames, hup, hshort, hfile⟩ := hp
  refine ⟨_, hnames.writeText_eq_ok_iff.mpr ⟨⟨hshort, hup, ?_⟩, rfl⟩⟩
  rw [hfile]
  nofun

theorem gains (hp : h.Holds p l) (hg : h.Gains h') : h'.Holds p l := by
  obtain ⟨dir, x, content, behaviour, rfl, hnames, hup, hshort, hfile⟩ := hp
  obtain ⟨content', behaviour', hfile'⟩ := hg.disk.file hfile
  refine ⟨dir, x, content', behaviour', rfl, ?_, hup, hshort, hfile'⟩
  refine ⟨hnames.check, hnames.endsIn, hnames.loud, ?_, hg.disk.dir hnames.isDir⟩
  rw [hg.cwd]
  exact hg.disk.leads hnames.leads

end Holds

/-- An output that is written is gained, and is from then on at the place that it was written to. -/
theorem Steady.writeText (hs : h.Steady) (hp : p.isInput = false)
    (hw : FileSystem.writeText h p s = (.ok (), h')) :
    h'.Steady ∧ h.Gains h' ∧ h'.Holds p (h.disk.target h.cwd p) := by
  obtain ⟨made, e, hmade, he, hentry, htarget, hput⟩ := Disk.writeText_eq_ok (disk_of_writeText hw)
  have hcwd := cwd_of_writeText hw
  obtain ⟨hmake, hclosed⟩ := Disk.Gains.makeDirs hmade
  have hreplace : made.Gains h'.disk := by
    rw [hput]
    exact .put (by simp [Disk.Slot.location]) (he.gain (hmake.unlinked hs.unlinked) hp hentry s)
  have hgains := hmake.trans hreplace
  refine ⟨⟨?_, ?_, hgains.unlinked hs.unlinked⟩, ⟨hgains, hcwd⟩, ?_⟩
  · rw [hcwd]
    exact hgains.dir hs.cwd
  · rw [hput]
    exact (hclosed hs.closed).put he.dir hentry _
  · obtain ⟨init, hnames, hdir⟩ := he.names
    obtain ⟨hslash, init', hplain, -⟩ := exists_pathNames he.endsIn he.loud
    rw [Disk.pathNames, if_neg hslash] at hnames
    refine ⟨e.dir, e.name.toList, .text s, none, ?_, ⟨he.check, he.endsIn, he.loud, ?_, ?_⟩, ?_,
      ?_, ?_⟩
    · rw [htarget, String.ofList_toList, Disk.Slot.location]
    · rw [Disk.plainNames, hnames, List.dropLast_concat, hcwd]
      exact hreplace.leads (Disk.follow_eq_ok.mp hdir)
    · exact hreplace.dir he.dir
    · rw [String.ofList_toList]
      exact he.ne_parent
    · rw [String.ofList_toList]
      exact he.short
    · rw [htarget, hput, Disk.lookup?_put _ (by simp [Disk.Slot.location]), if_pos rfl]

/-! ## Files that are read -/

theorem node_iff_leads {x : List Char} (hx : p.EndsIn x) (hloud : Path.IsLoud x) (d : Disk)
    (cwd : Location) {n : Node} :
    d.node cwd p = .ok (l, n) ↔ Disk.checkPath p = .ok () ∧
      d.Leads Disk.linkLimit (if p.isAbsolute then [] else cwd) (Path.steps p.components) l ∧
      d.lookup? l = some n := by
  have hfollow := follow_pathNames (h := { disk := d }) hx hloud Disk.linkLimit
    (if p.isAbsolute then [] else cwd)
  rw [Disk.node_eq_ok_iff, ← Disk.follow_eq_ok, ← Disk.follow_eq_ok]
  exact hfollow ▸ Iff.rfl

/-- The way to an input ends in the name of an input. -/
theorem exists_steps (hp : p.isInput = true) : ∃ init name, Path.steps p.components = init ++ [name] ∧
    Path.namesOutput name = false ∧ name ≠ "." ∧ name ≠ ".." := by
  obtain ⟨name, hname, hin⟩ := Path.isInput_iff.mp hp
  obtain ⟨cs, hcs⟩ := List.getLast?_eq_some_iff.mp (Path.last?_of_fileName? hname)
  obtain ⟨hloud, hup⟩ := Path.isLoud_of_fileName? hname
  refine ⟨Path.steps cs, name, ?_, hin, ?_, ?_⟩
  · rw [hcs, Path.steps_append]
    rfl
  · rintro rfl
    exact hloud.ne_here rfl
  · rintro rfl
    exact hup rfl

/-- The file that an input path leads to is the same after outputs were written. -/
theorem Steady.node_iff (hs : h.Steady) (hg : h.Gains h') (hp : p.isInput = true) (hsure : h.Sure p)
    {x : List Char} (hx : p.EndsIn x) (hloud : Path.IsLoud x) :
    h'.disk.node h.cwd p = .ok (l, .file content behaviour) ↔
      h.disk.node h.cwd p = .ok (l, .file content behaviour) := by
  rw [node_iff_leads hx hloud, node_iff_leads hx hloud]
  refine and_congr_right fun _ => ⟨?_, ?_⟩
  · rintro ⟨hleads, hfile⟩
    have hstart : h.disk.lookup? (if p.isAbsolute then [] else h.cwd) ≠ none := by
      split
      · simp [Disk.lookup?_nil]
      · simp [hs.cwd]
    have hdots : "." ∉ Path.steps p.components := by simp [Path.steps_components]
    have hlast : (Path.steps p.components).getLast?.any Path.namesOutput = false := by
      obtain ⟨init, name, hsteps, hin, -⟩ := exists_steps hp
      rw [hsteps, List.getLast?_concat, Option.any_some, hin]
    obtain ⟨k, hk⟩ := hg.disk.arrives hs.closed hstart hsure hdots hlast hleads hfile
    obtain ⟨content', behaviour', hfile'⟩ := hg.disk.exists_file hfile (hk.there hs.closed hstart)
    have hin := hsure.file ⟨k, hk⟩ hfile'
    exact ⟨hg.disk.leads_back hk hleads, (hg.disk.lookup?_of_file hin).mp hfile⟩
  · rintro ⟨hleads, hfile⟩
    have hin := hsure.file ⟨_, hleads⟩ hfile
    exact ⟨hg.disk.leads hleads, (hg.disk.lookup?_of_file hin).mpr hfile⟩

/-! ## Disks without links -/

/-- Without links, only a path that goes up may be led elsewhere. -/
theorem sure_of_linkless (hd : h.disk.Linkless) (hp : p.isInput = true)
    (hup : ".." ∉ Path.steps p.components) : h.Sure p := by
  refine ⟨fun hnames => ?_, fun _ _ hlink => absurd hlink (hd _ _), fun {m _ _} harrives _ => ?_⟩
  · rw [hnames] at hup
    simp at hup
  · obtain ⟨k, hk⟩ := harrives
    obtain ⟨init, name, hsteps, hin, hdot, hdots⟩ := exists_steps hp
    rw [(Disk.reaches_of_follow hd (Disk.follow_eq_ok.mpr hk)).eq_foldl, hsteps, List.foldl_append,
      List.foldl_cons, List.foldl_nil, Disk.walkStep, if_neg hdot, if_neg hdots,
      Location.namesOutput_concat, hin]

end Host

end ScriptWorks
