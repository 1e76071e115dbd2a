import ScriptWorks.Proofs.Path.Tidy

/-!
# Normal paths

What `normalize` makes is tidy, and `..` stands in it at most once and before all names. Resolving an
absolute path in the text does not change where it leads.
-/

namespace ScriptWorks.Path

/-- The piece that means the directory above. -/
abbrev up : List Char := ['.', '.']

theorem componentOf_up : componentOf up = .parent := rfl

theorem componentOf_of_ne {x : List Char} (h : x ≠ up) :
    componentOf x = .name (String.ofList x) := if_neg h

theorem text_componentOf (x : List Char) : (componentOf x).text.toList = x := by
  unfold componentOf
  split
  · rename_i h
    rw [h]
    rfl
  · exact String.toList_ofList

/-- All components of a path but the root are `.` or made by loud pieces. -/
theorem exists_components (p : Path) : ∃ cs, p.components = rootPart p.isAbsolute ++ cs ∧
    ∀ c ∈ cs, c = .here ∨ ∃ x, IsLoud x ∧ c = componentOf x := by
  have hslash : ∀ x ∈ p.pieces, '/' ∉ x := by
    intro x hx
    unfold pieces at hx
    split at hx
    · exact Text.notMem_of_mem_cut (List.mem_of_mem_tail hx)
    · exact Text.notMem_of_mem_cut hx
  have hrest : ∀ xs : List (List Char), (∀ x ∈ xs, '/' ∉ x) → ∀ c ∈ xs.filterMap component?,
      c = .here ∨ ∃ x, IsLoud x ∧ c = componentOf x := by
    intro xs hxs c hc
    obtain ⟨x, hx, hc⟩ := List.mem_filterMap.mp hc
    exact .inr ⟨x, exists_loud_of_component? (hxs x hx) hc⟩
  unfold components rootPart
  cases habs : p.isAbsolute with
  | true => exact ⟨_, rfl, hrest _ hslash⟩
  | false =>
      cases hpieces : p.pieces with
      | nil => exact ⟨[], by simp⟩
      | cons first rest =>
          rw [hpieces] at hslash
          obtain ⟨hfirst, hslash⟩ := List.forall_mem_cons.mp hslash
          refine ⟨_, rfl, fun c hc => ?_⟩
          rcases List.mem_append.mp hc with hc | hc
          · rw [Option.mem_toList] at hc
            unfold firstComponent? at hc
            split at hc
            · exact .inl (Option.some.inj hc).symm
            · exact .inr ⟨first, exists_loud_of_component? hfirst hc⟩
          · exact hrest rest hslash c hc

/-- The components of a normal path, last one first. -/
def IsNormal (abs : Bool) (done : List Component) : Prop :=
  ∃ rs : List (List Char), (∀ x ∈ rs, IsLoud x) ∧ (∀ x ∈ rs.dropLast, x ≠ up) ∧
    done = rs.map componentOf ++ rootPart abs

namespace IsNormal

variable {abs : Bool} {done : List Component}

theorem start : IsNormal abs (rootPart abs) := ⟨[], nofun, nofun, rfl⟩

theorem step (h : IsNormal abs done) {c : Component}
    (hc : c = .here ∨ ∃ x, IsLoud x ∧ c = componentOf x) : IsNormal abs (normalStep done c) := by
  obtain ⟨rs, hloud, hnames, rfl⟩ := h
  rcases hc with rfl | ⟨x, hx, rfl⟩
  · exact ⟨rs, hloud, hnames, rfl⟩
  by_cases hup : x = up
  · subst hup
    rw [componentOf_up]
    cases rs with
    | nil =>
        refine ⟨[up], by simpa using hx, nofun, ?_⟩
        cases abs <;> rfl
    | cons y rs =>
        refine ⟨rs, fun z hz => hloud z (List.mem_cons_of_mem y hz), fun z hz => hnames z ?_, ?_⟩
        · cases rs with
          | nil => cases hz
          | cons y' rs => exact List.mem_cons_of_mem y hz
        · have hroot := componentOf_ne_root y
          cases hy : componentOf y with
          | root => exact absurd hy hroot
          | here => exact absurd hy (componentOf_ne_here y)
          | parent | name => simp [normalStep, hy]
  · refine ⟨x :: rs, List.forall_mem_cons.mpr ⟨hx, hloud⟩, fun z hz => ?_, ?_⟩
    · cases rs with
      | nil => cases hz
      | cons y rs =>
          rcases List.mem_cons.mp hz with rfl | hz
          · exact hup
          · exact hnames z hz
    · rw [componentOf_of_ne hup]
      simp [normalStep, componentOf_of_ne hup]

theorem foldl (h : IsNormal abs done) {cs : List Component}
    (hcs : ∀ c ∈ cs, c = .here ∨ ∃ x, IsLoud x ∧ c = componentOf x) :
    IsNormal abs (cs.foldl normalStep done) := by
  induction cs generalizing done with
  | nil => exact h
  | cons c cs ih =>
      obtain ⟨hc, hcs⟩ := List.forall_mem_cons.mp hcs
      exact ih (h.step hc) hcs

end IsNormal

theorem foldl_rootPart (abs : Bool) : (rootPart abs).foldl normalStep [] = rootPart abs := by
  cases abs <;> rfl

theorem ofComponents_eq (abs : Bool) (ps : List (List Char)) :
    ofComponents (rootPart abs ++ ps.map componentOf) = ofPieces abs ps := by
  have htexts : (ps.map componentOf).map (fun c => c.text.toList) = ps := by
    rw [List.map_map]
    exact (List.map_congr_left fun x _ => text_componentOf x).trans (List.map_id ps)
  have hglue : (String.intercalate "/" ((ps.map componentOf).map Component.text)).toList =
      Text.glue '/' ps := by
    rw [String.toList_intercalate, List.map_map, Text.glue_eq_intercalate]
    exact congrArg _ htexts
  refine chars_inj.mp ?_
  rw [ofPieces, chars_ofChars]
  unfold chars
  cases abs with
  | true =>
      simp only [rootPart, if_true, List.singleton_append, ofComponents, String.toList_append, hglue]
      rfl
  | false =>
      simp only [rootPart, Bool.false_eq_true, if_false, List.nil_append]
      rw [← hglue]
      cases ps with
      | nil => rfl
      | cons x ps =>
          have hx := componentOf_ne_root x
          simp only [List.map_cons]
          cases hc : componentOf x with
          | root => exact absurd hc hx
          | here | parent | name => rfl

/-- A normal path is tidy, and only its first piece may mean the directory above. Nothing is lost when
its components are put together. -/
theorem exists_tidy_normalize (p : Path) :
    ∃ ps, Tidy p.normalize p.isAbsolute ps ∧ (∀ x ∈ ps.tail, x ≠ up) ∧
      p.normalize.components = normalComponents p.components := by
  obtain ⟨cs, hp, hcs⟩ := p.exists_components
  have hstart : IsNormal p.isAbsolute (rootPart p.isAbsolute) := .start
  obtain ⟨rs, hloud, hnames, hdone⟩ := hstart.foldl hcs
  have hnormal : normalComponents p.components =
      rootPart p.isAbsolute ++ rs.reverse.map componentOf := by
    unfold normalComponents
    rw [hp, List.foldl_append, foldl_rootPart, hdone, List.reverse_append, List.map_reverse]
    cases p.isAbsolute <;> rfl
  have htidy : Tidy p.normalize p.isAbsolute rs.reverse := by
    refine ⟨?_, fun x hx => hloud x (List.mem_reverse.mp hx)⟩
    unfold normalize
    rw [hnormal, ofComponents_eq]
  refine ⟨rs.reverse, htidy, fun x hx => hnames x ?_, htidy.components.trans hnormal.symm⟩
  rw [List.tail_reverse, List.mem_reverse] at hx
  exact hx

end ScriptWorks.Path
