import ScriptWorks.FileSystem.Disk
import ScriptWorks.Proofs.Path.Normal

/-!
# Where paths lead

A path is seen from a working directory by its components. What comes before the first name of a
normal path is its anchor: paths with one anchor are seen from one directory. A relative path climbs a
number of directories and goes down from there.
-/

namespace ScriptWorks.Path

/-! ## Resolving -/

/-- One step of a walk over directories without links. -/
def resolveStep (l : Location) : Component → Location
  | .root => []
  | .here => l
  | .parent => l.dropLast
  | .name s => l ++ [s]

/-- Where the path leads to from a working directory. -/
def resolveFrom (cwd : Location) (p : Path) : Location := p.components.foldl resolveStep cwd

theorem foldl_names (l : Location) (names : List String) :
    (names.map Component.name).foldl resolveStep l = l ++ names := by
  induction names generalizing l with
  | nil => simp
  | cons s names ih => simp [resolveStep, ih]

/-- Names after a path lead on from where it leads to. -/
theorem resolveFrom_of_names {p : Path} {cs : List Component} {names : List String}
    (h : p.components = cs ++ names.map Component.name) (cwd : Location) :
    p.resolveFrom cwd = cs.foldl resolveStep cwd ++ names := by
  unfold resolveFrom
  rw [h, List.foldl_append, foldl_names]

/-- Components in reverse, resolved one after another. -/
def resolveDone (cwd : Location) (done : List Component) : Location :=
  done.reverse.foldl resolveStep cwd

theorem resolveDone_cons (cwd : Location) (c : Component) (done : List Component) :
    resolveDone cwd (c :: done) = resolveStep (resolveDone cwd done) c := by
  simp [resolveDone]

/-- From the root on, resolving in the text is resolving on the disk. -/
theorem resolveDone_normalStep {cwd : Location} {done : List Component} (h : IsNormal true done)
    {c : Component} (hc : c = .here ∨ ∃ x, IsLoud x ∧ c = componentOf x) :
    resolveDone cwd (normalStep done c) = resolveStep (resolveDone cwd done) c := by
  obtain ⟨rs, hloud, hnames, rfl⟩ := h
  rcases hc with rfl | ⟨x, hx, rfl⟩
  · rfl
  by_cases hup : x = up
  · subst hup
    rw [componentOf_up]
    cases rs with
    | nil => exact resolveDone_cons cwd .parent [.root]
    | cons y rs =>
        have hroot := componentOf_ne_root y
        by_cases hy : y = up
        · -- only the last piece is `..`, and it stands behind the root
          subst hy
          cases rs with
          | nil => rfl
          | cons z rs => exact absurd rfl (hnames up List.mem_cons_self)
        · rw [List.map_cons, List.cons_append, componentOf_of_ne hy]
          have hstep : normalStep (.name (String.ofList y) :: (rs.map componentOf ++ rootPart true))
              .parent = rs.map componentOf ++ rootPart true := rfl
          rw [hstep, resolveDone_cons]
          simp [resolveStep]
  · rw [componentOf_of_ne hup]
    exact resolveDone_cons cwd _ _

theorem resolveDone_foldl {cwd : Location} {done cs : List Component} (h : IsNormal true done)
    (hcs : ∀ c ∈ cs, c = .here ∨ ∃ x, IsLoud x ∧ c = componentOf x) :
    resolveDone cwd (cs.foldl normalStep done) = cs.foldl resolveStep (resolveDone cwd done) := by
  induction cs generalizing done with
  | nil => rfl
  | cons c cs ih =>
      obtain ⟨hc, hcs⟩ := List.forall_mem_cons.mp hcs
      rw [List.foldl_cons, List.foldl_cons, ih (h.step hc) hcs, resolveDone_normalStep h hc]

/-- The normal form of an absolute path leads where the path leads. -/
theorem resolveFrom_normalize {p : Path} (h : p.isAbsolute = true) (cwd : Location) :
    p.normalize.resolveFrom cwd = p.resolveFrom cwd := by
  obtain ⟨cs, hp, hcs⟩ := p.exists_components
  obtain ⟨ps, htidy, -, hcomponents⟩ := p.exists_tidy_normalize
  have hstart : IsNormal true (rootPart true) := .start
  have hfold := @resolveDone_foldl cwd _ _ hstart hcs
  unfold resolveFrom
  rw [hcomponents, hp, h, List.foldl_append]
  unfold normalComponents
  rw [List.foldl_append, foldl_rootPart]
  exact hfold

/-! ## Anchors -/

/-- What comes before the first name of a path. -/
def anchor (p : Path) : List Component :=
  p.components.takeWhile fun
    | .name _ => false
    | _ => true

/-- From the pieces `us` on, the path is written with names. -/
def IsBelow (abs : Bool) (us : List (List Char)) (p : Path) : Prop :=
  ∃ ns, Tidy p abs (us ++ ns) ∧ ∀ x ∈ ns, x ≠ up

theorem IsBelow.exists_tidy {abs : Bool} {us : List (List Char)} {p : Path}
    (h : IsBelow abs us p) : ∃ ps, Tidy p abs ps := by
  obtain ⟨ns, hns, -⟩ := h
  exact ⟨_, hns⟩

/-- A normal path is written with names after its anchor, which goes up at most once. -/
theorem exists_anchor (p : Path) :
    ∃ us, (us = [] ∨ us = [up]) ∧ IsBelow p.isAbsolute us p.normalize ∧
      p.normalize.anchor = rootPart p.isAbsolute ++ us.map componentOf := by
  have hstops : ∀ (cs : List Component) (ns : List (List Char)), (∀ x ∈ ns, x ≠ up) →
      (∀ c ∈ cs, (match c with | .name _ => false | _ => true) = true) →
      ((cs ++ ns.map componentOf).takeWhile fun
        | .name _ => false
        | _ => true) = cs := by
    intro cs ns hns hcs
    rw [List.takeWhile_append_of_pos hcs]
    cases ns with
    | nil => simp
    | cons x ns => simp [componentOf_of_ne (hns x List.mem_cons_self)]
  obtain ⟨ps, htidy, hnames, -⟩ := p.exists_tidy_normalize
  unfold anchor
  rw [htidy.components]
  have hroot : ∀ c ∈ rootPart p.isAbsolute, (match c with | .name _ => false | _ => true) = true := by
    unfold rootPart
    cases p.isAbsolute <;> simp
  by_cases hhead : ps.head? = some up
  · obtain ⟨ns, rfl⟩ := List.head?_eq_some_iff.mp hhead
    refine ⟨[up], .inr rfl, ⟨ns, htidy, hnames⟩, ?_⟩
    rw [List.map_cons, List.append_cons]
    refine hstops _ ns hnames fun c hc => ?_
    rcases List.mem_append.mp hc with hc | hc
    · exact hroot c hc
    · rw [List.mem_singleton.mp hc, componentOf_up]
  · have hall : ∀ x ∈ ps, x ≠ up := by
      cases ps with
      | nil => nofun
      | cons x ps => exact List.forall_mem_cons.mpr ⟨fun hx => hhead (by rw [hx]; rfl), hnames⟩
    exact ⟨[], .inl rfl, ⟨ps, htidy, hall⟩, by rw [hstops _ ps hall hroot]; simp⟩

/-- Normal paths with one anchor are seen from one directory. -/
theorem exists_isBelow {fs : List Path} (hnormal : ∀ p ∈ fs, ∃ q : Path, p = q.normalize)
    (hanchor : ∀ p ∈ fs, ∀ q ∈ fs, p.anchor = q.anchor) :
    ∃ abs us, (∀ x ∈ us, x = up) ∧ ∀ p ∈ fs, IsBelow abs us p := by
  cases fs with
  | nil => exact ⟨false, [], nofun, nofun⟩
  | cons p fs =>
      obtain ⟨p', rfl⟩ := hnormal p List.mem_cons_self
      obtain ⟨us, hus, -, hfirst⟩ := p'.exists_anchor
      refine ⟨p'.isAbsolute, us, by rcases hus with rfl | rfl <;> simp, fun q hq => ?_⟩
      have hsame := hanchor q hq _ List.mem_cons_self
      obtain ⟨q', rfl⟩ := hnormal q hq
      obtain ⟨us', -, hbelow, hq'⟩ := q'.exists_anchor
      rw [hfirst, hq'] at hsame
      obtain ⟨habs, rfl⟩ := rootPart_append_inj hsame
      rwa [habs] at hbelow

/-! ## Relative paths -/

variable {p : Path}

/-- One more component of a path, after the number of directories that the path has left and the names
that it has gone down since then. -/
def ascentStep : Nat × List String → Component → Nat × List String
  | a, .root | a, .here => a
  | (ups, []), .parent => (ups + 1, [])
  | (ups, names), .parent => (ups, names.dropLast)
  | (ups, names), .name s => (ups, names ++ [s])

/-- How many directories a relative path goes up in all, and the names that it goes down from there. -/
def ascent (p : Path) : Nat × List String := p.components.foldl ascentStep (0, [])

/-- The location so many directories above, but not above the root. -/
def climb (l : Location) (ups : Nat) : Location := l.take (l.length - ups)

theorem dropLast_climb (l : Location) (ups : Nat) : (climb l ups).dropLast = climb l (ups + 1) := by
  unfold climb
  rw [List.dropLast_eq_take, List.take_take, List.length_take]
  congr 1
  omega

theorem resolveStep_ascentStep (l : Location) (a : Nat × List String) {c : Component}
    (hc : c ≠ .root) : resolveStep (climb l a.1 ++ a.2) c =
      climb l (ascentStep a c).1 ++ (ascentStep a c).2 := by
  obtain ⟨ups, names⟩ := a
  cases c with
  | root => exact absurd rfl hc
  | here => rfl
  | name s => simp [resolveStep, ascentStep]
  | parent =>
      cases names with
      | nil => simp [resolveStep, ascentStep, dropLast_climb]
      | cons name names =>
          exact List.dropLast_append_of_ne_nil (List.cons_ne_nil name names)

theorem foldl_resolveStep_climb (l : Location) (a : Nat × List String) {cs : List Component}
    (hcs : ∀ c ∈ cs, c ≠ .root) : cs.foldl resolveStep (climb l a.1 ++ a.2) =
      climb l (cs.foldl ascentStep a).1 ++ (cs.foldl ascentStep a).2 := by
  induction cs generalizing a with
  | nil => rfl
  | cons c cs ih =>
      obtain ⟨hc, hcs⟩ := List.forall_mem_cons.mp hcs
      rw [List.foldl_cons, List.foldl_cons, resolveStep_ascentStep l a hc, ih _ hcs]

theorem ne_root_of_mem_components (hp : p.isAbsolute = false) : ∀ c ∈ p.components, c ≠ .root := by
  obtain ⟨cs, hcs, hloud⟩ := p.exists_components
  rw [hp] at hcs
  intro c hc
  rw [hcs] at hc
  rcases hloud c hc with rfl | ⟨x, -, rfl⟩
  · exact nofun
  · exact componentOf_ne_root x

/-- A relative path leads some directories up and then down. -/
theorem resolveFrom_eq_climb (hp : p.isAbsolute = false) (l : Location) :
    p.resolveFrom l = climb l p.ascent.1 ++ p.ascent.2 := by
  have hall : p.components.foldl resolveStep (climb l 0 ++ []) = climb l p.ascent.1 ++ p.ascent.2 :=
    foldl_resolveStep_climb l (0, []) (ne_root_of_mem_components hp)
  have hstart : climb l 0 ++ [] = l := by simp [climb]
  rwa [hstart] at hall

/-- From two directories a relative path leads to one place if they have the same place above them. -/
theorem resolveFrom_eq_iff (hp : p.isAbsolute = false) (l m : Location) :
    p.resolveFrom l = p.resolveFrom m ↔ climb l p.ascent.1 = climb m p.ascent.1 := by
  rw [resolveFrom_eq_climb hp, resolveFrom_eq_climb hp, List.append_left_inj]

end ScriptWorks.Path
