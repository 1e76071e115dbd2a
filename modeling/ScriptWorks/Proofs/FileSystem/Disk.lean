import ScriptWorks.FileSystem.Disk
import ScriptWorks.Proofs.Failing

/-!
# Files on a disk

What stands where after a disk was changed. Making directories changes no file, and a text that is
written changes the file at one location.
-/

namespace ScriptWorks

def Node.content? : Node → Option Content
  | .file content _ => some content
  | _ => none

namespace Disk

variable {d d' : Disk} {cwd l m : Location} {p : Path}

/-- What the file at a location holds, if there is a regular file. -/
def contentAt (d : Disk) (l : Location) : Option Content := (d.lookup? l).bind Node.content?

theorem lookup?_nil (d : Disk) : d.lookup? [] = some .dir := if_pos rfl

private theorem find?_replace {es : List (Location × Node)} {n : Node} (h : es.any (·.1 = l)) :
    ((es.map fun e => if e.1 = l then (l, n) else e).find? (·.1 = m)).map (·.2) =
      if m = l then some n else (es.find? (·.1 = m)).map (·.2) := by
  induction es with
  | nil => simp at h
  | cons e es ih =>
      by_cases he : e.1 = l
      · by_cases hm : m = l
        · simp [he, hm]
        · have hne : ¬ l = m := fun h => hm h.symm
          have hem : ¬ e.1 = m := by rw [he]; exact hne
          by_cases hes : es.any (·.1 = l)
          · simpa [he, hm, hne, hem] using ih hes
          · have hid : (es.map fun e => if e.1 = l then (l, n) else e) = es := by
              refine (List.map_congr_left fun x hx => ?_).trans (List.map_id es)
              have hx : ¬ x.1 = l := fun h => hes (List.any_eq_true.mpr ⟨x, hx, by simp [h]⟩)
              simp [hx]
            simp [he, hm, hne, hid]
      · have hes : es.any (·.1 = l) := by simpa [he] using h
        by_cases hem : e.1 = m
        · have hm : ¬ m = l := fun h => he (hem.trans h)
          simp [hem, hm]
        · simpa [he, hem] using ih hes

/-- Putting something at a location changes what stands there, and nothing else. -/
theorem lookup?_put (d : Disk) (hl : l ≠ []) (n : Node) (m : Location) :
    (d.put l n).lookup? m = if m = l then some n else d.lookup? m := by
  by_cases hm : m = []
  · subst hm
    simp [lookup?_nil, Ne.symm hl]
  · unfold put lookup?
    by_cases ha : d.entries.any (·.1 = l)
    · simp only [ha, if_true, hm, if_false]
      exact find?_replace ha
    · rw [if_neg ha, if_neg hm, if_neg hm, List.find?_append]
      have hnone : ∀ e ∈ d.entries, ¬ e.1 = l := fun e he h =>
        ha (List.any_eq_true.mpr ⟨e, he, by simp [h]⟩)
      by_cases hml : m = l
      · subst hml
        have hfind : d.entries.find? (·.1 = m) = none :=
          List.find?_eq_none.mpr fun e he => by simpa using hnone e he
        simp [hfind]
      · have hlm : ¬ l = m := fun h => hml h.symm
        simp [hml, hlm]

theorem contentAt_put (hl : l ≠ []) (n : Node) (m : Location) :
    (d.put l n).contentAt m =
      if m = l then n.content? else d.contentAt m := by
  unfold contentAt
  rw [lookup?_put d hl]
  by_cases hm : m = l <;> simp [hm]

/-! ## Directories -/

theorem makeDir_eq_ok (h : d.makeDir cwd p = .ok d') :
    ∃ l, l ≠ [] ∧ d.lookup? l = none ∧ d' = d.put l .dir := by
  unfold makeDir at h
  obtain ⟨e, -, h⟩ := bind_eq_ok.mp h
  cases hr : e.isRelative with
  | true => simp [hr] at h
  | false =>
      cases hl : d.lookup? e.location with
      | some n => simp [hr, hl] at h
      | none =>
          simp only [hr, hl, Bool.false_eq_true, if_false] at h
          cases h
          exact ⟨e.location, by simp [Slot.location], hl, rfl⟩

theorem contentAt_makeDir (h : d.makeDir cwd p = .ok d') (m : Location) :
    d'.contentAt m = d.contentAt m := by
  obtain ⟨l, hl, hnone, rfl⟩ := makeDir_eq_ok h
  rw [contentAt_put hl]
  by_cases hm : m = l
  · simp [hm, contentAt, hnone, Node.content?]
  · simp [hm]

/-- What making one directory does, over and over, making directories does. -/
theorem makeDirs_induct {R : Disk → Disk → Prop} (refl : ∀ d, R d d)
    (trans : ∀ {d₁ d₂ d₃}, R d₁ d₂ → R d₂ d₃ → R d₁ d₃)
    (step : ∀ {d d' p}, d.makeDir cwd p = .ok d' → R d d') {ps : List Path}
    (h : d.makeDirs cwd ps = .ok d') : R d d' := by
  induction ps generalizing d d' with
  | nil => cases h
  | cons p ps ih =>
      unfold makeDirs at h
      split at h
      · rename_i d₁ h₁
        cases h
        exact step h₁
      · split at h
        · cases h
        · rename_i d₁ h₁
          split at h
          · rename_i d₂ h₂
            cases h
            exact trans (ih h₁) (step h₂)
          · split at h
            · cases h
              exact ih h₁
            · cases h
      · split at h
        · cases h
          exact refl d
        · cases h

theorem contentAt_makeDirs {ps : List Path} (h : d.makeDirs cwd ps = .ok d') (m : Location) :
    d'.contentAt m = d.contentAt m :=
  makeDirs_induct (R := fun d d' => d'.contentAt m = d.contentAt m) (fun _ => rfl)
    (fun h₁ h₂ => h₂.trans h₁) (fun h₁ => contentAt_makeDir h₁ m) h

/-! ## Files -/

/-- The location of the entry that a path names, once the directories on the way are made. -/
def target (d : Disk) (cwd : Location) (p : Path) : Location :=
  match d.makeDirs cwd (parentDir p).ancestors with
  | .ok made => match made.slot cwd p with
    | .ok e => e.location
    | .error _ => []
  | .error _ => []

theorem replaceFile_eq_ok {n : Node} (h : d.replaceFile cwd p n = .ok d') :
    ∃ e, d.slot cwd p = .ok e ∧ d' = d.put e.location n := by
  unfold replaceFile at h
  cases hn : p.chars.contains '\x00' with
  | true => simp only [hn, if_true, throw_eq_error, error_bind, reduceCtorEq] at h
  | false =>
      simp only [hn, Bool.false_eq_true, if_false] at h
      obtain ⟨e, he, h⟩ := bind_eq_ok.mp h
      refine ⟨e, he, ?_⟩
      cases hr : e.isRelative with
      | true => simp [hr] at h
      | false =>
          cases hs : e.hasSlash with
          | true => simp [hr, hs] at h
          | false =>
              simp only [hr, hs, Bool.false_eq_true, if_false] at h
              split at h
              · cases h
              · exact (Except.ok.inj h).symm

/-- A text that is written is the content of the file at its target, and no other file changes. -/
theorem contentAt_writeText {s : String} (h : d.writeText cwd p s = (.ok (), d')) (m : Location) :
    d'.contentAt m = if m = d.target cwd p then some (.text s) else d.contentAt m := by
  unfold writeText at h
  split at h
  · cases h
  · rename_i made hmade
    split at h
    · cases h
    · rename_i d₂ hreplace
      cases h
      obtain ⟨e, he, rfl⟩ := replaceFile_eq_ok hreplace
      have htarget : d.target cwd p = e.location := by
        unfold target
        rw [hmade]
        simp only [he]
      rw [contentAt_put (by simp [Slot.location]), htarget, contentAt_makeDirs hmade, Node.content?]

/-- A text that cannot be written changes no file. -/
theorem contentAt_of_writeText_error {s : String} {cause : FileError}
    (h : d.writeText cwd p s = (.error cause, d')) (m : Location) :
    d'.contentAt m = d.contentAt m := by
  unfold writeText at h
  split at h
  · cases h
    rfl
  · rename_i made hmade
    split at h
    · cases h
      exact contentAt_makeDirs hmade m
    · cases h

end Disk

end ScriptWorks
