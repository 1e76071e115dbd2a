import ScriptWorks.Engine.Checked
import ScriptWorks.Engine.Scripted
import ScriptWorks.Proofs.FileSystem.Disk

/-!
# File systems that keep files apart

A write that succeeds fills one place with its text; a write that fails leaves every file as it was.
Disks and files in memory both keep this promise, whatever they hold and wherever writing is denied.
-/

namespace ScriptWorks

/-- File systems in which a write changes the content of one file, or of none when it fails. -/
class LawfulFileSystem (ω : Type) [FileSystem ω] where
  /-- Where a file can stand. -/
  Place : Type
  /-- What the regular file at a place holds, if there is one. -/
  contentAt : ω → Place → Option Content
  /-- The place that a write to a path fills. -/
  placeOf : ω → Path → Place
  contentAt_placeOf {w w' : ω} {p : Path} {s : String} :
    FileSystem.writeText w p s = (.ok (), w') → contentAt w' (placeOf w p) = some (.text s)
  contentAt_of_ne {w w' : ω} {p : Path} {s : String} {l : Place} :
    FileSystem.writeText w p s = (.ok (), w') → l ≠ placeOf w p → contentAt w' l = contentAt w l
  contentAt_of_error {w w' : ω} {p : Path} {s : String} {cause : FileError} (l : Place) :
    FileSystem.writeText w p s = (.error cause, w') → contentAt w' l = contentAt w l

open LawfulFileSystem

section

variable {ω : Type} [FileSystem ω] [LawfulFileSystem ω] {w w₁ w₂ : ω}

/-- Every file is the same in both states of the world. -/
def SameFiles (w w' : ω) : Prop := ∀ l : Place ω, contentAt w' l = contentAt w l

theorem SameFiles.refl (w : ω) : SameFiles w w := fun _ => rfl

theorem SameFiles.trans (h₁ : SameFiles w w₁) (h₂ : SameFiles w₁ w₂) : SameFiles w w₂ :=
  fun l => (h₂ l).trans (h₁ l)

/-- The text was written to the path, and no other file changed. -/
structure Wrote (w : ω) (p : Path) (s : String) (w' : ω) : Prop where
  here : contentAt w' (placeOf w p) = some (.text s)
  elsewhere : ∀ l : Place ω, l ≠ placeOf w p → contentAt w' l = contentAt w l

theorem Wrote.of_writeText {p : Path} {s : String} (h : FileSystem.writeText w p s = (.ok (), w₁)) :
    Wrote w p s w₁ :=
  ⟨contentAt_placeOf h, fun _ hl => contentAt_of_ne h hl⟩

theorem SameFiles.of_writeText {p : Path} {s : String} {cause : FileError}
    (h : FileSystem.writeText w p s = (.error cause, w₁)) : SameFiles w w₁ :=
  fun l => contentAt_of_error l h

end

/-- A step of a part of the world, seen from the whole. -/
theorem eq_of_put {α β γ : Type} (part : γ → β) (put : β → γ) (hput : ∀ b, part (put b) = b)
    (x : α × β) {a : α} {c : γ} (h : (x.1, put x.2) = (a, c)) : x = (a, part c) := by
  cases h
  exact Prod.ext rfl (hput x.2).symm

/-! ## Disks -/

theorem Host.disk_of_writeText {h h' : Host} {p : Path} {s : String} {result : Except FileError Unit}
    (hw : FileSystem.writeText h p s = (result, h')) :
    h.disk.writeText h.cwd p s = (result, h'.disk) :=
  eq_of_put Host.disk (fun disk => { h with disk }) (fun _ => rfl) _ hw

instance : LawfulFileSystem Host where
  Place := Location
  contentAt h l := h.disk.contentAt l
  placeOf h p := h.disk.target h.cwd p
  contentAt_placeOf hw := by rw [Disk.contentAt_writeText (Host.disk_of_writeText hw), if_pos rfl]
  contentAt_of_ne hw hl := by rw [Disk.contentAt_writeText (Host.disk_of_writeText hw), if_neg hl]
  contentAt_of_error l hw := Disk.contentAt_of_writeText_error (Host.disk_of_writeText hw) l

theorem Workstation.host_of_writeText {w w' : Workstation} {p : Path} {s : String}
    {result : Except FileError Unit} (hw : FileSystem.writeText w p s = (result, w')) :
    FileSystem.writeText w.host p s = (result, w'.host) :=
  eq_of_put Workstation.host (fun host => { w with host }) (fun _ => rfl) _ hw

instance : LawfulFileSystem Workstation where
  Place := Location
  contentAt w l := contentAt w.host l
  placeOf w p := placeOf w.host p
  contentAt_placeOf hw := contentAt_placeOf (Workstation.host_of_writeText hw)
  contentAt_of_ne hw hl := contentAt_of_ne (Workstation.host_of_writeText hw) hl
  contentAt_of_error l hw := contentAt_of_error l (Workstation.host_of_writeText hw)

/-! ## Files in memory -/

namespace Memory

/-- The text under the components of a path. -/
def textAt? (m : Memory) (cs : List Path.Component) : Option String :=
  (m.files.find? (·.1.components = cs)).map (·.2)

theorem find?_insertFile (p : Path) (s : String) (files : List (Path × String))
    (cs : List Path.Component) :
    ((insertFile p s files).find? (·.1.components = cs)).map (·.2) =
      if p.components = cs then some s else (files.find? (·.1.components = cs)).map (·.2) := by
  induction files with
  | nil => by_cases h : p.components = cs <;> simp [insertFile, h]
  | cons f files ih =>
      obtain ⟨q, t⟩ := f
      by_cases hq : p.components = q.components
      · have hsame : p.same q = true := decide_eq_true hq
        rw [insertFile, if_pos hsame, hq]
        by_cases h : q.components = cs <;> simp [h]
      · have hsame : ¬ p.same q = true := fun h => hq (of_decide_eq_true h)
        rw [insertFile, if_neg hsame]
        by_cases hb : p.before q
        · rw [if_pos hb]
          by_cases h : p.components = cs <;> simp [h]
        · rw [if_neg hb]
          by_cases h : q.components = cs
          · have hne : ¬ p.components = cs := fun hp => hq (hp.trans h.symm)
            simp [h, hne]
          · simpa [h] using ih

theorem textAt?_insert (m : Memory) (p : Path) (s : String) (cs : List Path.Component) :
    (m.insert p s).textAt? cs = if p.components = cs then some s else m.textAt? cs :=
  find?_insertFile p s m.files cs

theorem eq_of_writeText {m m' : Memory} {p : Path} {s : String} {result : Except FileError Unit}
    (h : m.writeText p s = (result, m')) :
    result = .ok () ∧ m' = m.insert p s ∨ result = .error (.readOnly p) ∧ m' = m := by
  unfold writeText at h
  split at h
  · rw [Prod.mk.injEq] at h
    exact .inr ⟨h.1.symm, h.2.symm⟩
  · rw [Prod.mk.injEq] at h
    exact .inl ⟨h.1.symm, h.2.symm⟩

end Memory

theorem Rehearsal.memory_of_writeText {w w' : Rehearsal} {p : Path} {s : String}
    {result : Except FileError Unit} (hw : FileSystem.writeText w p s = (result, w')) :
    w.memory.writeText p s = (result, w'.memory) :=
  eq_of_put Rehearsal.memory (fun memory => { w with memory }) (fun _ => rfl) _ hw

theorem Rehearsal.textAt?_of_writeText {w w' : Rehearsal} {p : Path} {s : String}
    (hw : FileSystem.writeText w p s = (.ok (), w')) (cs : List Path.Component) :
    w'.memory.textAt? cs = if p.components = cs then some s else w.memory.textAt? cs := by
  rcases Memory.eq_of_writeText (Rehearsal.memory_of_writeText hw) with ⟨-, h⟩ | ⟨h, -⟩
  · rw [h, Memory.textAt?_insert]
  · cases h

instance : LawfulFileSystem Rehearsal where
  Place := List Path.Component
  contentAt w cs := (w.memory.textAt? cs).map .text
  placeOf _ p := p.components
  contentAt_placeOf hw := by rw [Rehearsal.textAt?_of_writeText hw, if_pos rfl]; rfl
  contentAt_of_ne hw hl := by rw [Rehearsal.textAt?_of_writeText hw, if_neg (Ne.symm hl)]
  contentAt_of_error l hw := by
    rcases Memory.eq_of_writeText (Rehearsal.memory_of_writeText hw) with ⟨h, -⟩ | ⟨-, h⟩
    · cases h
    · rw [h]

end ScriptWorks
