import Mathlib.Data.List.TakeWhile
import ScriptWorks.Proofs.Path.Tidy

/-!
# Ancestors

The parent of a path, however it is written, has all its components but the last one. So the ancestors
are what the components of the path begin with, one for each number of components, longest first.
-/

namespace ScriptWorks

theorem Text.isPrefix_glue {sep : Char} {ps qs : List (List Char)} (h : qs <+: ps) :
    glue sep qs <+: glue sep ps := by
  obtain ⟨rs, rfl⟩ := h
  by_cases hqs : qs = []
  · rw [hqs]
    exact List.nil_prefix
  by_cases hrs : rs = []
  · simp [hrs]
  · rw [glue_append hqs hrs]
    exact List.prefix_append _ _

namespace Path

variable {p q : Path} {abs : Bool} {ps qs : List (List Char)}

/-! ## Components of pieces -/

/-- The components that the pieces of a path make. -/
def componentsOf : Bool → List (List Char) → List Component
  | true, ps => .root :: ps.filterMap component?
  | false, [] => []
  | false, first :: rest => (firstComponent? first).toList ++ rest.filterMap component?

theorem components_eq (p : Path) : p.components = componentsOf p.isAbsolute p.pieces := by
  unfold components
  cases p.isAbsolute with
  | true => rfl
  | false => cases p.pieces <;> rfl

@[simp] theorem componentsOf_nil (abs : Bool) : componentsOf abs [] = rootPart abs := by
  cases abs <;> rfl

theorem componentsOf_append (hps : ps ≠ []) (qs : List (List Char)) :
    componentsOf abs (ps ++ qs) = componentsOf abs ps ++ qs.filterMap component? := by
  cases abs with
  | true => simp [componentsOf]
  | false =>
      obtain ⟨first, rest, rfl⟩ := List.exists_cons_of_ne_nil hps
      simp [componentsOf]

theorem filterMap_component?_of_silent (h : ∀ x ∈ ps, isSilent x = true) :
    ps.filterMap component? = [] :=
  List.filterMap_eq_nil_iff.mpr fun x hx => component?_of_silent (h x hx)

/-- Silent pieces at the end are what is dropped, and before them stands a loud one, or the `.` that
begins a relative path. -/
theorem exists_dropSilentEnd (abs : Bool) (ps : List (List Char)) :
    ∃ silent, ps = dropSilentEnd abs ps ++ silent ∧ (∀ x ∈ silent, isSilent x = true) ∧
      ∀ init x, dropSilentEnd abs ps = init ++ [x] →
        isSilent x = false ∨ (abs = false ∧ init = [] ∧ x = ['.']) := by
  have hdrop : ∀ ps : List (List Char), ∃ silent,
      ps = (ps.reverse.dropWhile isSilent).reverse ++ silent ∧
        (∀ x ∈ silent, isSilent x = true) ∧
        ∀ init x, (ps.reverse.dropWhile isSilent).reverse = init ++ [x] → isSilent x = false := by
    intro ps
    refine ⟨(ps.reverse.takeWhile isSilent).reverse, ?_, fun x hx => ?_, fun init x hinit => ?_⟩
    · rw [← List.reverse_append, List.takeWhile_append_dropWhile, List.reverse_reverse]
    · exact List.mem_takeWhile_imp (List.mem_reverse.mp hx)
    · have hhead : (ps.reverse.dropWhile isSilent).head? = some x := by
        rw [← List.getLast?_reverse, hinit, List.getLast?_concat]
      have hstop := List.head?_dropWhile_not isSilent ps.reverse
      rw [hhead] at hstop
      simpa using hstop
  unfold dropSilentEnd
  split
  case h_1 rest =>
    obtain ⟨silent, hrest, hsilent, hlast⟩ := hdrop rest
    refine ⟨silent, by rw [List.cons_append, ← hrest], hsilent, fun init x hinit => ?_⟩
    cases init with
    | nil =>
        rw [List.nil_append, List.cons.injEq] at hinit
        exact .inr ⟨rfl, rfl, hinit.1.symm⟩
    | cons y init =>
        rw [List.cons_append, List.cons.injEq] at hinit
        exact .inl (hlast init x hinit.2)
  case h_2 =>
    obtain ⟨silent, hps, hsilent, hlast⟩ := hdrop ps
    exact ⟨silent, hps, hsilent, fun init x hinit => .inl (hlast init x hinit)⟩

theorem isPrefix_dropSilentEnd (abs : Bool) (ps : List (List Char)) : dropSilentEnd abs ps <+: ps := by
  obtain ⟨silent, hps, -⟩ := exists_dropSilentEnd abs ps
  exact ⟨silent, hps.symm⟩

@[simp] theorem componentsOf_dropSilentEnd (abs : Bool) (ps : List (List Char)) :
    componentsOf abs (dropSilentEnd abs ps) = componentsOf abs ps := by
  obtain ⟨silent, hps, hsilent, -⟩ := exists_dropSilentEnd abs ps
  by_cases hnil : dropSilentEnd abs ps = []
  · rw [hnil, List.nil_append] at hps
    rw [hnil, hps, componentsOf_nil]
    cases abs with
    | true => simp [componentsOf, rootPart, filterMap_component?_of_silent hsilent]
    | false =>
        cases hs : silent with
        | nil => rfl
        | cons first rest =>
            rw [hs] at hsilent
            obtain ⟨hfirst, hrest⟩ := List.forall_mem_cons.mp hsilent
            -- a `.` that begins the path would have stayed
            have hhere : first ≠ ['.'] := by
              rintro rfl
              rw [hps, hs] at hnil
              cases hnil
            simp [componentsOf, rootPart, firstComponent?, hhere, component?_of_silent hfirst,
              filterMap_component?_of_silent hrest]
  · have hall : componentsOf abs (dropSilentEnd abs ps ++ silent) = _ := componentsOf_append hnil silent
    rwa [← hps, filterMap_component?_of_silent hsilent, List.append_nil, eq_comm] at hall

/-- The last piece that is not dropped makes the last component. -/
theorem exists_componentsOf_concat {init : List (List Char)} {x : List Char}
    (hslash : '/' ∉ x) (h : dropSilentEnd abs ps = init ++ [x]) :
    ∃ c, componentsOf abs (init ++ [x]) = componentsOf abs init ++ [c] := by
  obtain ⟨-, -, -, hlast⟩ := exists_dropSilentEnd abs ps
  rcases hlast init x h with hloud | ⟨rfl, rfl, rfl⟩
  · have hx : IsLoud x := ⟨hslash, hloud⟩
    refine ⟨componentOf x, ?_⟩
    by_cases hinit : init = []
    · subst hinit
      cases abs <;> simp [componentsOf, hx.component?, hx.firstComponent?]
    · simp [componentsOf_append hinit, hx.component?]
  · exact ⟨.here, rfl⟩

/-! ## Paths of the first pieces -/

theorem notMem_of_mem_pieces {x : List Char} (h : x ∈ p.pieces) : '/' ∉ x := by
  unfold pieces at h
  split at h
  · exact Text.notMem_of_mem_cut (List.mem_of_mem_tail h)
  · exact Text.notMem_of_mem_cut h

theorem ofPieces_pieces (p : Path) : ofPieces p.isAbsolute p.pieces = p := by
  refine chars_inj.mp ?_
  rw [ofPieces, chars_ofChars]
  unfold pieces
  cases habs : p.isAbsolute with
  | false => simp
  | true =>
      obtain ⟨cs, hcs⟩ := List.head?_eq_some_iff.mp (of_decide_eq_true habs)
      simp [hcs, Text.cut]

/-- The path begins as another one is written. -/
structure Above (q p : Path) : Prop where
  isAbsolute : q.isAbsolute = p.isAbsolute
  components : q.components <+: p.components
  chars : q.chars <+: p.chars

namespace Above

theorem refl (p : Path) : Above p p := ⟨rfl, List.prefix_refl _, List.prefix_refl _⟩

theorem trans {r : Path} (h : Above r q) (h' : Above q p) : Above r p :=
  ⟨h.isAbsolute.trans h'.isAbsolute, h.components.trans h'.components, h.chars.trans h'.chars⟩

end Above

/-- The first pieces of a path make a path with their components. -/
theorem ofPieces_of_prefix (h : qs <+: p.pieces) :
    (ofPieces p.isAbsolute qs).isAbsolute = p.isAbsolute ∧
      (ofPieces p.isAbsolute qs).chars <+: p.chars ∧
      (ofPieces p.isAbsolute qs).components = componentsOf p.isAbsolute qs := by
  have hchars : (ofPieces p.isAbsolute qs).chars <+: p.chars := by
    have hall := congrArg Path.chars (ofPieces_pieces p)
    rw [ofPieces, chars_ofChars] at hall
    rw [← hall, ofPieces, chars_ofChars]
    exact (List.prefix_append_right_inj _).mpr (Text.isPrefix_glue h)
  have hslash : ∀ x ∈ qs, '/' ∉ x := fun x hx => notMem_of_mem_pieces (h.subset hx)
  have habs : (ofPieces p.isAbsolute qs).isAbsolute = p.isAbsolute := by
    cases hp : p.isAbsolute with
    | true => simp [ofPieces, Path.isAbsolute]
    | false =>
        rw [hp] at hchars
        cases hcs : (ofPieces false qs).chars with
        | nil => simp [Path.isAbsolute, hcs]
        | cons c cs =>
            -- what the path begins with, it shares with `p`
            rw [hcs] at hchars
            obtain ⟨ds, hds⟩ := hchars
            rw [Path.isAbsolute, ← hds] at hp
            rw [Path.isAbsolute, hcs, ← hp]
            rfl
  refine ⟨habs, hchars, ?_⟩
  rw [components_eq, habs]
  have hpieces : (ofPieces p.isAbsolute qs).pieces = if qs = [] then [[]] else qs := by
    unfold pieces
    rw [habs, ofPieces, chars_ofChars]
    by_cases hqs : qs = []
    · subst hqs
      cases p.isAbsolute <;> rfl
    · cases p.isAbsolute <;> simp [Text.cut, Text.cut_glue hqs hslash, hqs]
  rw [hpieces]
  split
  case isTrue hqs => subst hqs; cases p.isAbsolute <;> rfl
  case isFalse => rfl

/-! ## Parents -/

/-- The parent has all components of a path but the last one. -/
theorem parent?_eq_some (h : p.parent? = some q) :
    Above q p ∧ ∃ c, p.components = q.components ++ [c] := by
  unfold parent? at h
  dsimp only at h
  split at h
  case h_1 => cases h
  case h_2 hne =>
    cases h
    generalize hps : dropSilentEnd p.isAbsolute p.pieces = ps at hne
    obtain ⟨init, x, hinit⟩ := List.eq_nil_or_concat ps |>.resolve_left hne
    rw [List.concat_eq_append] at hinit
    subst hinit
    have hbegin := isPrefix_dropSilentEnd p.isAbsolute p.pieces
    rw [List.dropLast_concat]
    have hshorter : dropSilentEnd p.isAbsolute init <+: p.pieces :=
      (isPrefix_dropSilentEnd _ init).trans ((List.prefix_append init [x]).trans (hps ▸ hbegin))
    obtain ⟨habs, hchars, hcomponents⟩ := ofPieces_of_prefix hshorter
    have hx : '/' ∉ x := notMem_of_mem_pieces (hbegin.subset (by simp [hps]))
    obtain ⟨c, hc⟩ := exists_componentsOf_concat hx hps
    have hall : p.components = componentsOf p.isAbsolute init ++ [c] := by
      rw [components_eq, ← componentsOf_dropSilentEnd, hps, hc]
    rw [componentsOf_dropSilentEnd] at hcomponents
    rw [← hcomponents] at hall
    exact ⟨⟨habs, ⟨[c], hall.symm⟩, hchars⟩, c, hall⟩

/-- Only a path that begins with what it has at all has no parent. -/
theorem parent?_eq_none (h : p.parent? = none) : p.components = rootPart p.isAbsolute := by
  unfold parent? at h
  dsimp only at h
  split at h
  case h_1 hps => rw [components_eq, ← componentsOf_dropSilentEnd, hps, componentsOf_nil]
  case h_2 => cases h

/-- A path that ends in a piece has a parent without it. -/
theorem EndsIn.exists_parent {x : List Char} (hp : EndsIn p x) (hx : IsLoud x) :
    ∃ q, p.parent? = some q ∧ Above q p ∧ p.components = q.components ++ [componentOf x] := by
  have hlast : p.components.getLast? = some (componentOf x) := hp.last? hx
  cases hparent : p.parent? with
  | none =>
      rw [parent?_eq_none hparent] at hlast
      have hroot := componentOf_ne_root x
      cases habs : p.isAbsolute <;> simp [habs, rootPart] at hlast
      exact absurd hlast.symm hroot
  | some q =>
      obtain ⟨habove, c, hc⟩ := parent?_eq_some hparent
      rw [hc, List.getLast?_concat] at hlast
      cases hlast
      exact ⟨q, rfl, habove, hc⟩

theorem rootPart_isPrefix_components (p : Path) : rootPart p.isAbsolute <+: p.components := by
  rw [components_eq]
  cases p.isAbsolute with
  | true => exact ⟨_, rfl⟩
  | false => exact List.nil_prefix

/-! ## All ancestors -/

theorem above_of_mem_ancestorsWithin {n : Nat} {a : Path} (h : a ∈ ancestorsWithin n p) :
    Above a p := by
  induction n generalizing p with
  | zero => cases h
  | succ n ih =>
      unfold ancestorsWithin at h
      split at h
      case h_1 q hq =>
        rcases List.mem_cons.mp h with rfl | h
        · exact .refl a
        · exact (ih h).trans (parent?_eq_some hq).1
      case h_2 =>
        rw [List.mem_singleton.mp h]
        exact .refl p

theorem above_of_mem_ancestors {a : Path} (h : a ∈ p.ancestors) : Above a p :=
  above_of_mem_ancestorsWithin h

/-- Each ancestor has more components than those after it. -/
theorem pairwise_ancestorsWithin (n : Nat) (p : Path) :
    (ancestorsWithin n p).Pairwise fun a b => b.components.length < a.components.length := by
  induction n generalizing p with
  | zero => exact .nil
  | succ n ih =>
      unfold ancestorsWithin
      split
      case h_1 q hq =>
        obtain ⟨-, c, hc⟩ := parent?_eq_some hq
        refine List.pairwise_cons.mpr ⟨fun a ha => ?_, ih q⟩
        have hle := (above_of_mem_ancestorsWithin ha).components.length_le
        rw [hc, List.length_append, List.length_singleton]
        omega
      case h_2 => exact List.pairwise_singleton _ _

/-- Whatever the components of a path begin with, its root included, belongs to an ancestor. -/
theorem exists_mem_ancestorsWithin {n : Nat} {cs : List Component} (hn : p.components.length < n)
    (hroot : rootPart p.isAbsolute <+: cs) (hcs : cs <+: p.components) :
    ∃ a ∈ ancestorsWithin n p, a.components = cs := by
  induction n generalizing p with
  | zero => omega
  | succ n ih =>
      unfold ancestorsWithin
      split
      case h_1 q hq =>
        obtain ⟨habove, c, hc⟩ := parent?_eq_some hq
        rw [hc] at hcs hn
        rcases List.prefix_concat_iff.mp hcs with hall | hcs
        · exact ⟨p, List.mem_cons_self, by rw [hc, hall]⟩
        · rw [List.length_append, List.length_singleton] at hn
          obtain ⟨a, ha, heq⟩ := ih (by omega) (habove.isAbsolute ▸ hroot) hcs
          exact ⟨a, List.mem_cons_of_mem p ha, heq⟩
      case h_2 hq =>
        rw [parent?_eq_none hq] at hcs
        refine ⟨p, List.mem_singleton_self p, ?_⟩
        rw [parent?_eq_none hq]
        exact hroot.eq_of_length_le hcs.length_le

theorem exists_mem_ancestors {cs : List Component} (hroot : rootPart p.isAbsolute <+: cs)
    (hcs : cs <+: p.components) : ∃ a ∈ p.ancestors, a.components = cs :=
  exists_mem_ancestorsWithin (Nat.lt_succ_self _) hroot hcs

/-- The first ancestor that satisfies a condition is the longest one. -/
theorem length_le_of_find?_ancestors {cond : Path → Bool} {a b : Path}
    (h : p.ancestors.find? cond = some a) (hb : b ∈ p.ancestors) (hcond : cond b = true) :
    b.components.length ≤ a.components.length := by
  obtain ⟨-, before, after, hsplit, hbefore⟩ := List.find?_eq_some_iff_append.mp h
  have hsorted : p.ancestors.Pairwise _ := pairwise_ancestorsWithin _ p
  rw [hsplit] at hb hsorted
  rcases List.mem_append.mp hb with hb | hb
  · have hnot := hbefore b hb
    rw [hcond] at hnot
    cases hnot
  · rcases List.mem_cons.mp hb with rfl | hb
    · exact Nat.le_refl _
    · have hsorted := (List.pairwise_append.mp hsorted).2.1
      exact Nat.le_of_lt ((List.pairwise_cons.mp hsorted).1 b hb)

end Path

end ScriptWorks
