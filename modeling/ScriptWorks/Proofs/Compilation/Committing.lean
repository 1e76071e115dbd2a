import ScriptWorks.Compilation
import ScriptWorks.Proofs.FileSystem.Lawful

/-!
# Committed compilations

Files are written one after another, up to the first that cannot be written. What is reported as
written is what was written, and nothing else changed.
-/

namespace ScriptWorks

variable {ω : Type} [FileSystem ω]

/-- The files are written one after another. -/
inductive Writes : ω → List OutputFile → ω → Prop
  | nil {w} : Writes w [] w
  | cons {w w₁ w' f fs} : FileSystem.writeText w f.path f.content = (.ok (), w₁) →
      Writes w₁ fs w' → Writes w (f :: fs) w'

/-- Writing comes to its end: nothing is left, or the next file cannot be written. -/
inductive Stops : ω → List OutputFile → Option Problem → ω → Prop
  | finished {w} : Stops w [] none w
  | failed {w w' f fs cause} : FileSystem.writeText w f.path f.content = (.error cause, w') →
      Stops w (f :: fs) (some (.writeFailed f.path cause)) w'

variable {w w' : ω} {fs rest : List OutputFile} {stop : Option Problem}

namespace Stops

/-- Whatever stops the writing is reported as an error. -/
theorem rest_eq_nil (h : Stops w rest stop w') (hgood : ∀ p ∈ stop.toList, p.severity ≠ .error) :
    rest = [] := by
  cases h with
  | finished => rfl
  | failed => exact absurd rfl (hgood _ List.mem_cons_self)

theorem sameFiles [LawfulFileSystem ω] (h : Stops w rest stop w') : SameFiles w w' := by
  cases h with
  | finished => exact .refl w
  | failed hf => exact .of_writeText hf

end Stops

open LawfulFileSystem in
/-- What a file holds after files were written is what it held before, or is one of them. -/
theorem Writes.contentAt_eq [LawfulFileSystem ω] (h : Writes w fs w') (l : Place ω) :
    contentAt w' l = contentAt w l ∨ ∃ f ∈ fs, contentAt w' l = some (.text f.content) := by
  induction h with
  | nil => exact .inl rfl
  | @cons w w₁ w' f fs hf _ ih =>
      rcases ih with ih | ⟨g, hg, ih⟩
      · by_cases hl : l = placeOf w f.path
        · have hfilled := contentAt_placeOf hf
          rw [← hl] at hfilled
          exact .inr ⟨f, List.mem_cons_self, ih.trans hfilled⟩
        · exact .inl (ih.trans (contentAt_of_ne hf hl))
      · exact .inr ⟨g, List.mem_cons_of_mem f hg, ih⟩

namespace Draft

/-- The files that are written come first; what stopped the writing is the next one. -/
theorem writeAll_eq {written : List OutputFile} (h : writeAll fs w = ((written, stop), w')) :
    ∃ rest after, fs = written ++ rest ∧ Writes w written after ∧ Stops after rest stop w' := by
  induction fs generalizing w written with
  | nil =>
      obtain ⟨⟨rfl, rfl⟩, rfl⟩ : ([] = written ∧ none = stop) ∧ w = w' := by simpa [writeAll] using h
      exact ⟨[], w, rfl, .nil, .finished⟩
  | cons f fs ih =>
      unfold writeAll at h
      split at h
      · rename_i cause left hf
        obtain ⟨⟨rfl, rfl⟩, rfl⟩ : ([] = written ∧ some (.writeFailed f.path cause) = stop) ∧
          left = w' := by simpa using h
        exact ⟨f :: fs, w, rfl, .nil, .failed hf⟩
      · rename_i left hf
        cases hrest : writeAll fs left with
        | mk result w₂ =>
            obtain ⟨done, stop₂⟩ := result
            rw [hrest] at h
            obtain ⟨⟨rfl, rfl⟩, rfl⟩ : (f :: done = written ∧ stop₂ = stop) ∧ w₂ = w' := by
              simpa using h
            obtain ⟨rest, after, rfl, hw, hs⟩ := ih hrest
            exact ⟨rest, after, rfl, .cons hf hw, hs⟩

theorem commit_eq {d : Draft} {c : Compilation} (h : d.commit w = (c, w')) :
    ∃ rest stop after, d.files = c.outputFiles ++ rest ∧ Writes w c.outputFiles after ∧
      Stops after rest stop w' ∧ c.diagnostics = d.diagnostics ++ stop.toList ∧
      c.success = (!d.incomplete && !hasErrors c.diagnostics) := by
  unfold commit at h
  cases hwritten : writeAll d.files w with
  | mk result left =>
      obtain ⟨written, stop⟩ := result
      rw [hwritten, Prod.mk.injEq] at h
      obtain ⟨rfl, rfl⟩ := h
      obtain ⟨rest, after, hfiles, hw, hs⟩ := writeAll_eq hwritten
      exact ⟨rest, stop, after, hfiles, hw, hs, rfl, rfl⟩

end Draft

end ScriptWorks
