import ScriptWorks.Proofs.FileSystem.Entry

/-!
# Disks without links

On a disk without links a path leads where its components lead. What was written to a path can be read
there as long as nothing else is written to that place.
-/

namespace ScriptWorks

namespace Disk

variable {d d' : Disk} {cwd l m : Location} {p : Path}

/-! ## Disks that grow -/

/-- No link stands on the disk. -/
def Linkless (d : Disk) : Prop := ∀ l target, d.lookup? l ≠ some (.link target)

/-- Directories stay directories, and links are not made. -/
structure Grows (d d' : Disk) : Prop where
  dirs : ∀ l, d.lookup? l = some .dir → d'.lookup? l = some .dir
  linkless : d.Linkless → d'.Linkless

theorem Grows.refl (d : Disk) : Grows d d := ⟨fun _ h => h, fun h => h⟩

theorem Grows.trans {d₁ d₂ d₃ : Disk} (h : Grows d₁ d₂) (h' : Grows d₂ d₃) : Grows d₁ d₃ :=
  ⟨fun l hl => h'.dirs l (h.dirs l hl), fun hd => h'.linkless (h.linkless hd)⟩

theorem Grows.put (hl : l ≠ []) (hdir : d.lookup? l ≠ some .dir) {n : Node}
    (hn : ∀ target, n ≠ .link target) : Grows d (d.put l n) := by
  refine ⟨fun m hm => ?_, fun hd m target => ?_⟩
  · rw [lookup?_put d hl, if_neg fun h => hdir (by rw [← h, hm]), hm]
  · rw [lookup?_put d hl]
    split
    · exact fun h => hn target (Option.some.inj h)
    · exact hd m target

theorem Grows.makeDirs {ps : List Path} (h : d.makeDirs cwd ps = .ok d') : Grows d d' := by
  refine makeDirs_induct .refl .trans (fun h => ?_) h
  obtain ⟨l, hl, hnone, rfl⟩ := makeDir_eq_ok h
  exact .put hl (by simp [hnone]) nofun

/-! ## Walks on disks without links -/

/-- The names lead from one location to another through directories and no link. -/
inductive Reaches (d : Disk) : Location → List String → Location → Prop
  | arrived {l : Location} : Reaches d l [] l
  | here {l m : Location} {names} : d.lookup? l = some .dir → Reaches d l names m →
      Reaches d l ("." :: names) m
  | parent {l m : Location} {names} : d.lookup? l = some .dir → Reaches d l.dropLast names m →
      Reaches d l (".." :: names) m
  | child {l m : Location} {name names n} : d.lookup? l = some .dir → name ≠ "." → name ≠ ".." →
      name.utf8ByteSize ≤ maxNameLength → d.lookup? (l ++ [name]) = some n →
      (∀ target, n ≠ .link target) → Reaches d (l ++ [name]) names m → Reaches d l (name :: names) m

variable {names rest : List String}

theorem Reaches.of_advance (hd : d.Linkless) {halt : Halt} (h : d.advance l names = .ok halt) :
    ∃ m, halt = .arrived m ∧ Reaches d l names m := by
  induction names generalizing l with
  | nil =>
      cases h
      exact ⟨l, rfl, .arrived⟩
  | cons name names ih =>
      unfold advance at h
      split at h
      case h_1 hdir =>
        split at h
        case isTrue hdot =>
          obtain ⟨m, hm, hreaches⟩ := ih h
          exact ⟨m, hm, hdot ▸ .here hdir hreaches⟩
        case isFalse hdot =>
          split at h
          case isTrue hdots =>
            obtain ⟨m, hm, hreaches⟩ := ih h
            exact ⟨m, hm, hdots ▸ .parent hdir hreaches⟩
          case isFalse hdots =>
            split at h
            case isTrue => cases h
            case isFalse hlong =>
              split at h
              case h_1 => cases h
              case h_2 target htarget => exact absurd htarget (hd _ target)
              case h_3 n hlink hn =>
                obtain ⟨m, hm, hreaches⟩ := ih h
                exact ⟨m, hm, .child hdir hdot hdots (Nat.le_of_not_lt hlong) hn
                  (fun target => hlink target) hreaches⟩
      case h_2 => cases h
      case h_3 => cases h

namespace Reaches

theorem advance (h : Reaches d l names m) : d.advance l names = .ok (.arrived m) := by
  induction h with
  | arrived => rfl
  | here hdir _ ih => simpa [Disk.advance, hdir] using ih
  | parent hdir _ ih => simpa [Disk.advance, hdir] using ih
  | @child l m name names n hdir hdot hdots hlong hn hlink _ ih =>
      have hshort : ¬ maxNameLength < name.utf8ByteSize := Nat.not_lt.mpr hlong
      rw [← ih]
      simp only [Disk.advance, hdir, hdot, hdots, hshort, hn, if_false]

theorem eq_foldl (h : Reaches d l names m) : m = names.foldl walkStep l := by
  induction h with
  | arrived => rfl
  | here _ _ ih => exact ih
  | parent _ _ ih => exact ih
  | child _ hdot hdots _ _ _ _ ih => rw [List.foldl_cons, walkStep, if_neg hdot, if_neg hdots, ih]

theorem append (h : Reaches d l names m) {m' : Location} (h' : Reaches d m rest m') :
    Reaches d l (names ++ rest) m' := by
  induction h with
  | arrived => exact h'
  | here hdir _ ih => exact .here hdir (ih h')
  | parent hdir _ ih => exact .parent hdir (ih h')
  | child hdir hdot hdots hlong hn hlink _ ih => exact .child hdir hdot hdots hlong hn hlink (ih h')

/-- A place from which one can go on is a directory. -/
theorem exists_of_lookup? (h : Reaches d l names m) (hgrows : Grows d d')
    (hm : d'.lookup? m ≠ none) : d'.lookup? l ≠ none := by
  cases h with
  | arrived => exact hm
  | here hdir | parent hdir | child hdir =>
      simp [hgrows.dirs l hdir]

/-- Names that lead to a place still do so when the disk has grown and the place is not gone. -/
theorem of_grows (h : Reaches d l names m) (hd : d.Linkless) (hgrows : Grows d d')
    (hm : d'.lookup? m ≠ none) : Reaches d' l names m := by
  induction h with
  | arrived => exact .arrived
  | here hdir _ ih => exact .here (hgrows.dirs _ hdir) (ih hm)
  | parent hdir _ ih => exact .parent (hgrows.dirs _ hdir) (ih hm)
  | child hdir hdot hdots hlong hn hlink hrest ih =>
      obtain ⟨n, hn⟩ := Option.ne_none_iff_exists'.mp (hrest.exists_of_lookup? hgrows hm)
      refine .child (hgrows.dirs _ hdir) hdot hdots hlong hn (fun target htarget => ?_) (ih hm)
      exact hgrows.linkless hd _ target (htarget ▸ hn)

end Reaches

theorem reaches_of_follow (hd : d.Linkless) {links : Nat} (h : d.follow links l names = .ok m) :
    Reaches d l names m := by
  unfold follow at h
  split at h
  case h_1 => cases h
  case h_2 hadvance =>
    cases h
    obtain ⟨m', hm, hreaches⟩ := Reaches.of_advance hd hadvance
    cases hm
    exact hreaches
  case h_3 hadvance =>
    obtain ⟨m', hm, -⟩ := Reaches.of_advance hd hadvance
    cases hm

theorem Reaches.follow (h : Reaches d l names m) (links : Nat) : d.follow links l names = .ok m := by
  unfold Disk.follow
  rw [h.advance]

theorem locate_eq_ok_iff (hd : d.Linkless) :
    d.locate cwd p = .ok l ↔
      checkPath p = .ok () ∧ Reaches d (if p.isAbsolute then [] else cwd) (pathNames p) l := by
  unfold locate
  rw [bind_eq_ok]
  constructor
  · rintro ⟨_, hcheck, h⟩
    exact ⟨hcheck, reaches_of_follow hd h⟩
  · rintro ⟨hcheck, h⟩
    exact ⟨(), hcheck, h.follow linkLimit⟩

theorem locate_of_isAbsolute (hp : p.isAbsolute = true) (l m : Location) :
    d.locate l p = d.locate m p := by
  unfold locate
  rw [hp]
  rfl

/-- On a disk without links, a path leads where it leads in the text. -/
theorem resolveFrom_of_locate (hd : d.Linkless) (h : d.locate cwd p = .ok l) :
    l = p.resolveFrom cwd := by
  rw [((locate_eq_ok_iff hd).mp h).2.eq_foldl, foldl_pathNames]

theorem locate_of_grows (hd : d.Linkless) (hgrows : Grows d d') (h : d.locate cwd p = .ok l)
    (hl : d'.lookup? l ≠ none) : d'.locate cwd p = .ok l := by
  obtain ⟨hcheck, hreaches⟩ := (locate_eq_ok_iff hd).mp h
  exact (locate_eq_ok_iff (hgrows.linkless hd)).mpr ⟨hcheck, hreaches.of_grows hd hgrows hl⟩

/-! ## Writing -/

/-- What is moved to a path stands where the path leads. -/
theorem Slot.IsFor.location_eq (hd : d.Linkless) {e : Slot} (he : e.IsFor d cwd p) :
    e.location = p.resolveFrom cwd := by
  obtain ⟨init, hnames, hdir⟩ := he.names
  rw [← foldl_pathNames, hnames, List.foldl_append, ← (reaches_of_follow hd hdir).eq_foldl]
  simp [walkStep, he.ne_here, he.ne_parent, Slot.location]

/-- A text that is written to a path can be read there. -/
theorem locate_of_replaceFile (hd : d.Linkless) {s : String}
    (h : d.replaceFile cwd p (.file (.text s) none) = .ok d') :
    Grows d d' ∧ d'.locate cwd p = .ok (p.resolveFrom cwd) ∧
      d'.contentAt (p.resolveFrom cwd) = some (.text s) := by
  obtain ⟨e, -, he, hdir, rfl⟩ := isFor_of_replaceFile h
  have hne : e.location ≠ [] := by simp [Slot.location]
  have hgrows : Grows d (d.put e.location (.file (.text s) none)) :=
    .put hne hdir (by rintro _ ⟨⟩)
  have hfile : (d.put e.location (.file (.text s) none)).lookup? e.location =
      some (.file (.text s) none) := by rw [lookup?_put d hne, if_pos rfl]
  rw [← he.location_eq hd]
  have hstay : (d.put e.location (.file (.text s) none)).lookup? e.dir = some .dir :=
    hgrows.dirs _ he.dir
  refine ⟨hgrows, (locate_eq_ok_iff (hgrows.linkless hd)).mpr ⟨he.check, ?_⟩,
    by simp [contentAt, hfile, Node.content?]⟩
  obtain ⟨init, hnames, hfollow⟩ := he.names
  rw [hnames]
  refine ((reaches_of_follow hd hfollow).of_grows hd hgrows (by simp [hstay])).append ?_
  exact .child hstay he.ne_here he.ne_parent he.short hfile (by rintro _ ⟨⟩) .arrived

theorem locate_of_writeText (hd : d.Linkless) {s : String}
    (h : d.writeText cwd p s = (.ok (), d')) :
    Grows d d' ∧ d'.locate cwd p = .ok (p.resolveFrom cwd) ∧
      d'.contentAt (p.resolveFrom cwd) = some (.text s) ∧
      ∀ l, l ≠ p.resolveFrom cwd → d'.contentAt l = d.contentAt l := by
  have htarget := contentAt_writeText h
  unfold writeText at h
  split at h
  case h_1 => cases h
  case h_2 made hmade =>
    split at h
    case h_1 => cases h
    case h_2 d₂ hreplace =>
      cases h
      have hmake : Grows d made := .makeDirs hmade
      obtain ⟨e, -, he, -, hput⟩ := isFor_of_replaceFile hreplace
      obtain ⟨hgrows, hlocate, hcontent⟩ := locate_of_replaceFile (hmake.linkless hd) hreplace
      refine ⟨hmake.trans hgrows, hlocate, hcontent, fun l hl => ?_⟩
      rw [hput, contentAt_put (by simp [Slot.location]), he.location_eq (hmake.linkless hd), if_neg hl,
        contentAt_makeDirs hmade]

theorem grows_of_writeText_error {s : String} {cause : FileError}
    (h : d.writeText cwd p s = (.error cause, d')) : Grows d d' := by
  unfold writeText at h
  split at h
  case h_1 =>
    cases h
    exact .refl d
  case h_2 made hmade =>
    split at h
    case h_1 =>
      cases h
      exact .makeDirs hmade
    case h_2 => cases h

/-- Links can be seen in the table. -/
theorem linkless_of_all (h : ∀ e ∈ d.entries, ∀ target, e.2 ≠ .link target) : d.Linkless := by
  intro l target hl
  unfold lookup? at hl
  split at hl
  · cases hl
  · obtain ⟨e, he, hl⟩ := Option.map_eq_some_iff.mp hl
    exact h e (List.mem_of_find?_eq_some he) target hl

end Disk

/-! ## Hosts -/

namespace Host

variable {h h' : Host} {p q : Path} {s t : String}

/-- The path leads to a file with the text. -/
structure Shows (h : Host) (p : Path) (s : String) : Prop where
  locate : h.disk.locate h.cwd p = .ok (p.resolveFrom h.cwd)
  content : h.disk.contentAt (p.resolveFrom h.cwd) = some (.text s)

theorem Shows.readText (hp : h.Shows p s) : h.readText p = .ok s := by
  have hcontent := hp.content
  unfold Disk.contentAt at hcontent
  obtain ⟨n, hn, hcontent⟩ := Option.bind_eq_some_iff.mp hcontent
  cases n with
  | dir | link => cases hcontent
  | file content behaviour =>
      cases hcontent
      have hnode : h.disk.node h.cwd p = .ok (p.resolveFrom h.cwd, .file (.text s) behaviour) := by
        unfold Disk.node
        rw [hp.locate, ok_bind, hn]
        rfl
      unfold Host.readText Disk.readText
      rw [hnode, ok_bind]
      rfl

theorem cwd_of_writeText {result : Except FileError Unit}
    (hw : FileSystem.writeText h p s = (result, h')) : h'.cwd = h.cwd := by
  have hsnd : (FileSystem.writeText h p s).2.cwd = h.cwd := rfl
  rwa [hw] at hsnd

/-- What is shown stays so while directories stay and the file is the same. -/
theorem Shows.of_grows (hq : h.Shows q t) (hd : h.disk.Linkless) (hgrows : h.disk.Grows h'.disk)
    (hcwd : h'.cwd = h.cwd) (hsame : h'.disk.contentAt (q.resolveFrom h.cwd) =
      h.disk.contentAt (q.resolveFrom h.cwd)) : h'.Shows q t := by
  have hkept := hsame.trans hq.content
  have hthere : h'.disk.lookup? (q.resolveFrom h.cwd) ≠ none := by
    intro hnone
    rw [Disk.contentAt, hnone] at hkept
    cases hkept
  have hplace := Disk.locate_of_grows hd hgrows hq.locate hthere
  constructor <;> rw [hcwd] <;> assumption

/-- A text that is written is shown, and so is what was shown elsewhere. -/
theorem shows_of_writeText (hd : h.disk.Linkless)
    (hw : FileSystem.writeText h p s = (.ok (), h')) :
    h'.disk.Linkless ∧ h'.Shows p s ∧
      ∀ q t, h.Shows q t → q.resolveFrom h.cwd ≠ p.resolveFrom h.cwd → h'.Shows q t := by
  obtain ⟨hgrows, hlocate, hcontent, hframe⟩ := Disk.locate_of_writeText hd (disk_of_writeText hw)
  have hcwd := cwd_of_writeText hw
  refine ⟨hgrows.linkless hd, ?_, fun q t hq hne => hq.of_grows hd hgrows hcwd (hframe _ hne)⟩
  constructor <;> rw [hcwd] <;> assumption

theorem Shows.of_writeText_error (hq : h.Shows q t) (hd : h.disk.Linkless) {cause : FileError}
    (hw : FileSystem.writeText h p s = (.error cause, h')) : h'.Shows q t :=
  hq.of_grows hd (Disk.grows_of_writeText_error (disk_of_writeText hw)) (cwd_of_writeText hw)
    (Disk.contentAt_of_writeText_error (disk_of_writeText hw) _)

end Host

end ScriptWorks
