import ScriptWorks.Proofs.Path.Extension
import ScriptWorks.Proofs.Path.Joining

/-!
# What is left of a path

A path that begins with another one, however both are written, ends as before when that is cut off,
unless nothing is left of it.
-/

namespace ScriptWorks.Path

variable {p q base : Path} {x : List Char} {init : List (List Char)}

/-! ## Pieces that are left -/

theorem exists_dropComponents_zero (hx : IsLoud x) (init : List (List Char)) :
    ∃ rest, dropComponents 0 (init ++ [x]) = rest ++ [x] := by
  simp only [dropComponents]
  induction init with
  | nil => exact ⟨[], by simp [hx.notSilent]⟩
  | cons y init ih =>
      cases hy : isSilent y with
      | true => simpa [hy] using ih
      | false => exact ⟨y :: init, by simp [hy]⟩

/-- The last piece stays unless as many components are dropped as there are. -/
theorem dropComponents_concat (hx : IsLoud x) {n : Nat}
    (hn : n ≤ ((init ++ [x]).filterMap component?).length) :
    (n = ((init ++ [x]).filterMap component?).length ∧ dropComponents n (init ++ [x]) = []) ∨
      (n < ((init ++ [x]).filterMap component?).length ∧
        ∃ rest, dropComponents n (init ++ [x]) = rest ++ [x]) := by
  cases n with
  | zero =>
      refine .inr ⟨?_, exists_dropComponents_zero hx init⟩
      simp [hx.component?]
  | succ n =>
      induction init generalizing n with
      | nil =>
          obtain rfl : n = 0 := by simpa [hx.component?] using hn
          exact .inl ⟨by simp [hx.component?], by simp [dropComponents, hx.notSilent]⟩
      | cons y init ih =>
          rw [List.cons_append] at hn ⊢
          cases hy : isSilent y with
          | true =>
              rw [List.filterMap_cons_none (component?_of_silent hy)] at hn ⊢
              simpa [dropComponents, hy] using ih n hn
          | false =>
              have hsome : component? y = some (componentOf y) := by
                unfold component? componentOf
                simp only [hy, Bool.false_eq_true, if_false]
                split <;> rfl
              rw [List.filterMap_cons_some hsome, List.length_cons] at hn ⊢
              simp only [dropComponents, hy, Bool.false_eq_true, if_false]
              cases n with
              | zero =>
                  refine .inr ⟨?_, exists_dropComponents_zero hx init⟩
                  simp [hx.component?]
              | succ n =>
                  rcases ih n (by omega) with ⟨hall, hnil⟩ | ⟨hless, hrest⟩
                  · exact .inl ⟨by omega, hnil⟩
                  · exact .inr ⟨by omega, hrest⟩

/-! ## Components of what is left -/

theorem EndsIn.exists_pieces (hp : EndsIn p x) (hx : IsLoud x) : ∃ init, p.pieces = init ++ [x] := by
  obtain ⟨init, hinit, -⟩ := (hp.beside hx).exists_pieces
  exact ⟨init, hinit⟩

/-- The first component of a relative path is `.` only if the path is written so. -/
theorem exists_pieces_of_here {cs : List Component} (habs : p.isAbsolute = false)
    (h : p.components = .here :: cs) : ∃ rest, p.pieces = ['.'] :: rest := by
  rw [components_eq, habs] at h
  cases hpieces : p.pieces with
  | nil => simp [hpieces, rootPart] at h
  | cons first rest =>
      by_cases hfirst : first = ['.']
      · exact ⟨rest, by rw [hfirst]⟩
      · rw [hpieces] at h
        simp only [componentsOf, firstComponent?, hfirst, if_false] at h
        have hmem : Component.here ∈ (first :: rest).filterMap component? := by
          cases hc : component? first <;> simp_all
        obtain ⟨y, -, hy⟩ := List.mem_filterMap.mp hmem
        unfold component? at hy
        split at hy
        · cases hy
        · split at hy <;> cases hy

/-- Pieces that do not begin with `.` make the components of a relative path. -/
theorem components_of_pieces {c : Component} {cs : List Component} (habs : p.isAbsolute = false)
    (h : p.components = c :: cs) (hc : c ≠ .here) : p.components = p.pieces.filterMap component? := by
  rw [components_eq, habs] at h ⊢
  cases hpieces : p.pieces with
  | nil => rfl
  | cons first rest =>
      rw [hpieces] at h
      by_cases hfirst : first = ['.']
      · subst hfirst
        exact absurd (List.cons.inj h).1.symm hc
      · simp only [componentsOf, firstComponent?, hfirst, if_false]
        cases hc : component? first <;> simp [hc]

/-! ## What is left -/

/-- The rest of a path that ends in `x`: nothing if the other path was the same, else a path that ends
in `x`, too. -/
def IsLeft (p base : Path) (x : List Char) (rel : Path) : Prop :=
  (p.same base = true ∧ rel = ⟨""⟩) ∨ (p.same base = false ∧ EndsIn rel x)

/-- As many components are dropped as the other path has after `pre`. -/
theorem isLeft_of_dropComponents (pre : List Component) {cs : List Component} (hx : IsLoud x)
    (hbase : base.components = pre ++ cs)
    (hp : p.components = pre ++ (init ++ [x]).filterMap component?)
    (hfront : base.components <+: p.components) :
    IsLeft p base x (ofPieces false (dropComponents cs.length (init ++ [x]))) := by
  rw [hbase, hp, List.prefix_append_right_inj] at hfront
  rcases dropComponents_concat hx hfront.length_le with ⟨hall, hnil⟩ | ⟨hless, rest, hrest⟩
  · refine .inl ⟨decide_eq_true ?_, by rw [hnil]; rfl⟩
    rw [hbase, hp, hfront.eq_of_length hall]
  · refine .inr ⟨decide_eq_false fun hsame => ?_, hrest ▸ .ofPieces hx.noSlash false rest⟩
    rw [hbase, hp] at hsame
    rw [List.append_cancel_left hsame] at hless
    exact lt_irrefl _ hless

theorem EndsIn.isLeft_of_stripPrefix? (hp : EndsIn p x) (hx : IsLoud x) {rel : Path}
    (h : p.stripPrefix? base = some rel) : IsLeft p base x rel := by
  obtain ⟨init, hpieces⟩ := hp.exists_pieces hx
  unfold Path.stripPrefix? at h
  split at h
  case isFalse => cases h
  case isTrue hstart =>
    dsimp only at h
    rw [hpieces, dropSilentEnd_concat _ hx] at h
    have hfront := List.isPrefixOf_iff_prefix.mp hstart
    obtain ⟨rest, hrest⟩ := id hfront
    split at h
    case h_1 hbase =>
      cases h
      refine .inr ⟨decide_eq_false fun hsame => ?_, .ofPieces hx.noSlash _ init⟩
      have hlast := hp.last? hx
      rw [Path.last?, hsame, hbase] at hlast
      cases hlast
    case h_2 cs hbase =>
      cases h
      have habs : p.isAbsolute = true := (isAbsolute_iff p).mpr (by rw [← hrest, hbase]; rfl)
      refine isLeft_of_dropComponents [.root] hx hbase ?_ hfront
      rw [components_eq, habs, hpieces]
      rfl
    case h_3 cs hbase =>
      cases h
      rw [hbase, List.cons_append] at hrest
      have habs : p.isAbsolute = false := Bool.eq_false_iff.mpr fun habs => by
        rw [isAbsolute_iff, ← hrest] at habs
        cases habs
      -- the piece that makes the `.` is not the last one
      obtain ⟨tail, htail⟩ := exists_pieces_of_here habs hrest.symm
      obtain ⟨front, rfl⟩ : ∃ front, init = ['.'] :: front := by
        rw [hpieces] at htail
        cases init with
        | nil => exact absurd (List.cons.inj htail).1 hx.ne_here
        | cons y front => exact ⟨front, by rw [(List.cons.inj htail).1]⟩
      refine isLeft_of_dropComponents [.here] hx hbase ?_ hfront
      rw [components_eq, habs, hpieces]
      rfl
    case h_4 hnil hroot hhere =>
      cases h
      obtain ⟨c, cs, hbase⟩ := List.exists_cons_of_ne_nil hnil
      rw [hbase, List.cons_append] at hrest
      have habs : p.isAbsolute = false := Bool.eq_false_iff.mpr fun habs => by
        rw [isAbsolute_iff, ← hrest] at habs
        exact hroot cs (by rw [hbase, Option.some.inj habs])
      refine isLeft_of_dropComponents [] hx rfl ?_ hfront
      rw [components_of_pieces habs hrest.symm fun hc => hhere cs (by rw [hbase, hc]), hpieces]
      rfl

end ScriptWorks.Path
