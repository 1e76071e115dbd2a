import ScriptWorks.Proofs.Compilation.Committing
import ScriptWorks.Proofs.FileSystem.Keeping

/-!
# File systems that outputs are written to

Outputs that were written can be written again, with no file changed by that, and what is read under
other names stays the same. Files in memory always are like this, disks as long as no link interferes.
-/

namespace ScriptWorks

open LawfulFileSystem

/-- There is one file at the path in both states of the world, or there is none in either. -/
structure SameRead {ω : Type} [FileSystem ω] (w w' : ω) (p : Path) : Prop where
  isFile : FileSystem.isFile w' p = FileSystem.isFile w p
  readText : FileSystem.isFile w p = true → FileSystem.readText w' p = FileSystem.readText w p

theorem SameRead.trans {ω : Type} [FileSystem ω] {w w₁ w₂ : ω} {p : Path} (h : SameRead w w₁ p)
    (h' : SameRead w₁ w₂ p) : SameRead w w₂ p :=
  ⟨h'.isFile.trans h.isFile, fun hp => (h'.readText (h.isFile.trans hp)).trans (h.readText hp)⟩

/-- File systems next to which a world may keep more: what is read and written is up to the files. -/
class BareFileSystem (ω : Type) [FileSystem ω] [LawfulFileSystem ω] where
  /-- The world with nothing but its files. -/
  bare : ω → ω
  cwd_bare (w : ω) : (FileSystem.host (bare w)).cwd = (FileSystem.host w).cwd
  isFile_bare (w : ω) (p : Path) : FileSystem.isFile (bare w) p = FileSystem.isFile w p
  readText_bare (w : ω) (p : Path) : FileSystem.readText (bare w) p = FileSystem.readText w p
  contentAt_bare (w : ω) (l : Place ω) : contentAt (bare w) l = contentAt w l
  writeText_bare (w : ω) (p : Path) (s : String) : FileSystem.writeText (bare w) p s =
    ((FileSystem.writeText w p s).1, bare (FileSystem.writeText w p s).2)

/-- File systems that gain the outputs that are written to them. -/
class GainingFileSystem (ω : Type) [FileSystem ω] [LawfulFileSystem ω] where
  /-- Nothing is in the way of outputs. -/
  Steady : ω → Prop
  /-- No output that is written leads the path to another file. -/
  Sure : ω → Path → Prop
  /-- Outputs were written. -/
  Gains : ω → ω → Prop
  /-- The path names a file at the place, which can be written again. -/
  Holds : ω → Path → Place ω → Prop
  gains_refl (w : ω) : Gains w w
  gains_trans {w w₁ w₂ : ω} : Gains w w₁ → Gains w₁ w₂ → Gains w w₂
  gains_writeText {w w' : ω} {p : Path} {s : String} : Steady w → p.isInput = false →
    FileSystem.writeText w p s = (.ok (), w') → Steady w' ∧ Gains w w' ∧ Holds w' p (placeOf w p)
  cwd_gains {w w' : ω} : Gains w w' → (FileSystem.host w').cwd = (FileSystem.host w).cwd
  sameRead {w w' : ω} {p : Path} : Steady w → Gains w w' → p.isInput = true → Sure w p →
    SameRead w w' p
  holds_gains {w w' : ω} {p : Path} {l : Place ω} : Holds w p l → Gains w w' → Holds w' p l
  placeOf_eq {w : ω} {p : Path} {l : Place ω} : Holds w p l → placeOf w p = l
  writable {w : ω} {p : Path} {l : Place ω} (s : String) : Holds w p l →
    ∃ w', FileSystem.writeText w p s = (.ok (), w')

variable {ω : Type} [FileSystem ω] [LawfulFileSystem ω] {w w' v : ω} {fs : List OutputFile}

/-! ## Worlds with the same files -/

section

open BareFileSystem

variable [BareFileSystem ω]

theorem SameRead.of_bare (h : bare v = bare w) (p : Path) : SameRead w v p :=
  ⟨by rw [← isFile_bare v, h, isFile_bare], fun _ => by rw [← readText_bare v, h, readText_bare]⟩

theorem SameFiles.of_bare (h : bare v = bare w) : SameFiles w v :=
  fun l => by rw [← contentAt_bare v, h, contentAt_bare]

theorem cwd_of_bare (h : bare v = bare w) : (FileSystem.host v).cwd = (FileSystem.host w).cwd := by
  rw [← cwd_bare v, h, cwd_bare]

/-- What can be written in one world can be written in another one with the same files. -/
theorem Writes.of_bare (h : Writes w fs w') (hv : bare v = bare w) :
    ∃ v', Writes v fs v' ∧ bare v' = bare w' := by
  induction h generalizing v with
  | nil => exact ⟨v, .nil, hv⟩
  | @cons w w₁ w' f fs hf _ ih =>
      have hwrite := writeText_bare w f.path f.content
      rw [← hv, writeText_bare, hf, Prod.mk.injEq] at hwrite
      obtain ⟨v', hv', hsame⟩ := ih hwrite.2
      have hfirst : FileSystem.writeText v f.path f.content =
        (.ok (), (FileSystem.writeText v f.path f.content).2) := Prod.ext hwrite.1 rfl
      exact ⟨v', .cons hfirst hv', hsame⟩

end

/-! ## Writing to known places -/

/-- The files are written one after another, each to the place of its path. -/
inductive WritesTo (place : Path → Place ω) : ω → List OutputFile → ω → Prop
  | nil {w : ω} : WritesTo place w [] w
  | cons {w w₁ w' : ω} {f : OutputFile} {fs : List OutputFile} :
      FileSystem.writeText w f.path f.content = (.ok (), w₁) →
      placeOf w f.path = place f.path → WritesTo place w₁ fs w' → WritesTo place w (f :: fs) w'

/-- The last of the files that goes to the place. -/
def lastAt [DecidableEq (Place ω)] (place : Path → Place ω) (fs : List OutputFile) (l : Place ω) :
    Option Content :=
  (fs.reverse.find? fun f => place f.path = l).map (.text ·.content)

namespace WritesTo

variable {place : Path → Place ω}

theorem writes (h : WritesTo place w fs w') : Writes w fs w' := by
  induction h with
  | nil => exact .nil
  | cons hf _ _ ih => exact .cons hf ih

/-- A place holds the last file that went to it, or what it held before. -/
theorem contentAt_eq [DecidableEq (Place ω)] (h : WritesTo place w fs w') (l : Place ω) :
    contentAt w' l = (lastAt place fs l).or (contentAt w l) := by
  induction h with
  | nil => rfl
  | @cons w w₁ w' f fs hf hplace _ ih =>
      rw [ih, lastAt, lastAt, List.reverse_cons, List.find?_append, Option.map_or, Option.or_assoc]
      congr 1
      by_cases hl : place f.path = l
      · have hfilled := contentAt_placeOf hf
        rw [hplace, hl] at hfilled
        simp [hl, hfilled]
      · rw [contentAt_of_ne hf fun heq => hl (hplace.symm.trans heq.symm)]
        simp [hl]

end WritesTo

/-! ## Writing again -/

section

open GainingFileSystem

variable [GainingFileSystem ω]

/-- Files that are written are gained. Each is at the place that it was written to. -/
theorem Writes.gains (hs : Steady w) (hfs : ∀ f ∈ fs, f.path.isInput = false) (h : Writes w fs w') :
    Steady w' ∧ Gains w w' ∧ WritesTo (placeOf w') w fs w' ∧
      ∀ f ∈ fs, Holds w' f.path (placeOf w' f.path) := by
  induction h with
  | nil => exact ⟨hs, gains_refl _, .nil, nofun⟩
  | @cons w w₁ w' f fs hf _ ih =>
      obtain ⟨hfirst, hrest⟩ := List.forall_mem_cons.mp hfs
      obtain ⟨hs₁, hgains, hholds⟩ := gains_writeText hs hfirst hf
      obtain ⟨hs', hmore, hwrites, hall⟩ := ih hs₁ hrest
      have hplace := placeOf_eq (holds_gains hholds hmore)
      refine ⟨hs', gains_trans hgains hmore, .cons hf hplace.symm hwrites,
        List.forall_mem_cons.mpr ⟨?_, hall⟩⟩
      rw [hplace]
      exact holds_gains hholds hmore

theorem WritesTo.exists {place : Path → Place ω} (hs : Steady w)
    (hfs : ∀ f ∈ fs, f.path.isInput = false) (hall : ∀ f ∈ fs, Holds w f.path (place f.path)) :
    ∃ w', WritesTo place w fs w' := by
  induction fs generalizing w with
  | nil => exact ⟨w, .nil⟩
  | cons f fs ih =>
      obtain ⟨hfirst, hrest⟩ := List.forall_mem_cons.mp hfs
      obtain ⟨hhere, hall⟩ := List.forall_mem_cons.mp hall
      obtain ⟨w₁, hf⟩ := writable f.content hhere
      obtain ⟨hs₁, hgains, -⟩ := gains_writeText hs hfirst hf
      obtain ⟨w', hwrites⟩ := ih hs₁ hrest fun g hg => holds_gains (hall g hg) hgains
      exact ⟨w', .cons hf (placeOf_eq hhere) hwrites⟩

/-- Outputs that were written can be written again, and that changes no file. -/
theorem Writes.again (hs : Steady w) (hfs : ∀ f ∈ fs, f.path.isInput = false) (h : Writes w fs w') :
    ∃ w'', Writes w' fs w'' ∧ SameFiles w' w'' := by
  classical
  obtain ⟨hs', -, hfirst, hall⟩ := h.gains hs hfs
  obtain ⟨w'', hagain⟩ := WritesTo.exists hs' hfs hall
  refine ⟨w'', hagain.writes, fun l => ?_⟩
  rw [hagain.contentAt_eq, hfirst.contentAt_eq, ← Option.or_assoc, Option.or_self]

end

/-! ## Disks -/

namespace Host

variable {h h' : Host} {p : Path}

theorem Steady.sameRead (hs : h.Steady) (hg : h.Gains h') (hp : p.isInput = true) (hsure : h.Sure p) :
    SameRead h h' p := by
  have hnode {x : List Char} (hx : p.EndsIn x) (hloud : Path.IsLoud x) (l : Location)
      (content : Content) (behaviour : Option Behaviour) :
      h'.disk.node h'.cwd p = .ok (l, .file content behaviour) ↔
        h.disk.node h.cwd p = .ok (l, .file content behaviour) := by
    rw [hg.cwd]
    exact hs.node_iff hg hp hsure hx hloud
  constructor
  · refine Bool.eq_iff_iff.mpr ⟨fun hfile => ?_, fun hfile => ?_⟩
    all_goals
      obtain ⟨x, hx, hloud⟩ := endsIn_of_isFile hfile
      obtain ⟨l, content, behaviour, hleads⟩ := isFile_iff.mp hfile
    · exact isFile_iff.mpr ⟨l, content, behaviour, (hnode hx hloud ..).mp hleads⟩
    · exact isFile_iff.mpr ⟨l, content, behaviour, (hnode hx hloud ..).mpr hleads⟩
  · intro hfile
    obtain ⟨x, hx, hloud⟩ := endsIn_of_isFile hfile
    obtain ⟨l, content, behaviour, hleads⟩ := isFile_iff.mp hfile
    show h'.disk.readText h'.cwd p = h.disk.readText h.cwd p
    unfold Disk.readText
    rw [hleads, (hnode hx hloud ..).mpr hleads]

end Host

instance : BareFileSystem Workstation where
  bare w := { host := w.host }
  cwd_bare _ := rfl
  isFile_bare _ _ := rfl
  readText_bare _ _ := rfl
  contentAt_bare _ _ := rfl
  writeText_bare _ _ _ := rfl

instance : GainingFileSystem Workstation where
  Steady w := w.host.Steady
  Sure w := w.host.Sure
  Gains w w' := w.host.Gains w'.host
  Holds w := w.host.Holds
  gains_refl w := ⟨.refl w.host.disk, rfl⟩
  gains_trans h h' := ⟨h.disk.trans h'.disk, h'.cwd.trans h.cwd⟩
  gains_writeText hs hp hw := hs.writeText hp (Workstation.host_of_writeText hw)
  cwd_gains h := h.cwd
  sameRead hs hg hp hsure :=
    have hsame := hs.sameRead hg hp hsure
    ⟨hsame.isFile, hsame.readText⟩
  holds_gains h hg := h.gains hg
  placeOf_eq h := h.target_eq
  writable s h := (h.writable s).imp' _ fun _ hw => Workstation.writeText_eq_ok hw

/-! ## Files in memory -/

instance : BareFileSystem Rehearsal where
  bare w := { memory := w.memory, host := w.host }
  cwd_bare _ := rfl
  isFile_bare _ _ := rfl
  readText_bare _ _ := rfl
  contentAt_bare _ _ := rfl
  writeText_bare _ _ _ := rfl

namespace Rehearsal

/-- Texts are only added under other names than those of inputs. -/
structure Gains (w w' : Rehearsal) : Prop where
  host : w'.host = w.host
  readOnly : w'.memory.readOnly = w.memory.readOnly
  get?_eq {p : Path} : p.isInput = true → w'.memory.get? p = w.memory.get? p

theorem gains_writeText {w w' : Rehearsal} {p : Path} {s : String} (hp : p.isInput = false)
    (hw : FileSystem.writeText w p s = (.ok (), w')) :
    w.Gains w' ∧ w'.memory.readOnly.any (p.startsWith ·) = false := by
  obtain ⟨hopen, rfl⟩ := writeText_eq_ok_iff.mp hw
  refine ⟨⟨rfl, rfl, fun {q} hq => ?_⟩, hopen⟩
  have hne : p.components ≠ q.components := fun heq => by
    have hname : p.isInput = q.isInput := by
      unfold Path.isInput Path.fileName? Path.last?
      rw [heq]
    rw [hname, hq] at hp
    cases hp
  exact (Memory.get?_insert w.memory p s q).trans (if_neg hne)

end Rehearsal

instance : GainingFileSystem Rehearsal where
  Steady _ := True
  Sure _ _ := True
  Gains := Rehearsal.Gains
  Holds w p l := l = p.components ∧ w.memory.readOnly.any (p.startsWith ·) = false
  gains_refl _ := ⟨rfl, rfl, fun _ => rfl⟩
  gains_trans h h' := ⟨h'.host.trans h.host, h'.readOnly.trans h.readOnly,
    fun hp => (h'.get?_eq hp).trans (h.get?_eq hp)⟩
  gains_writeText _ hp hw :=
    have hgains := Rehearsal.gains_writeText hp hw
    ⟨trivial, hgains.1, rfl, hgains.2⟩
  cwd_gains h := congrArg Host.cwd h.host
  sameRead _ h hp _ :=
    ⟨congrArg Option.isSome (h.get?_eq hp), fun _ => by
      show Memory.readText _ _ = Memory.readText _ _
      unfold Memory.readText
      rw [h.get?_eq hp]⟩
  holds_gains h hg := ⟨h.1, by rw [hg.readOnly, h.2]⟩
  placeOf_eq h := h.1.symm
  writable s h := ⟨_, Rehearsal.writeText_eq_ok_iff.mpr ⟨h.2, rfl⟩⟩

end ScriptWorks
