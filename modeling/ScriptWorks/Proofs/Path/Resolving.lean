import ScriptWorks.Proofs.Path.Joining

/-!
# Where normal paths lead

Resolving `.` and `..` in the text of a path from the root does not change where it leads. Of the
directories that a relative path goes up, its normal form keeps only whether their number is odd: a `..`
takes away the `..` before it.
-/

namespace ScriptWorks.Path

/-! ## Relative paths -/

/-- What the normal form keeps of a relative path, last component first. -/
def normalAscent (a : Nat × List String) : List Component :=
  (a.2.map Component.name).reverse ++ (if a.1 % 2 = 0 then [] else [.parent])

theorem normalStep_normalAscent (a : Nat × List String) {c : Component} (hc : c ≠ .root) :
    normalStep (normalAscent a) c = normalAscent (ascentStep a c) := by
  obtain ⟨ups, names⟩ := a
  cases c with
  | root => exact absurd rfl hc
  | here => rfl
  | name s =>
      have hnames : ((names ++ [s]).map Component.name).reverse =
          .name s :: (names.map Component.name).reverse := by simp
      rw [ascentStep, normalAscent, normalAscent, hnames]
      rfl
  | parent =>
      rcases List.eq_nil_or_concat names with rfl | ⟨names, s, rfl⟩
      -- There is no name to take away: the `..` is kept, or goes away with the one before it.
      · rcases Nat.mod_two_eq_zero_or_one ups with hups | hups
        · have hnext : (ups + 1) % 2 ≠ 0 := by omega
          simp [normalStep, normalAscent, ascentStep, hups, hnext]
        · have hnext : (ups + 1) % 2 = 0 := by omega
          simp [normalStep, normalAscent, ascentStep, hups, hnext]
      · have hstep : ascentStep (ups, names.concat s) .parent = (ups, names) := by
          rw [List.concat_eq_append]
          cases names with
          | nil => rfl
          | cons name names => exact congrArg (Prod.mk ups) List.dropLast_concat
        rw [hstep]
        simp [normalStep, normalAscent]

theorem foldl_normalStep_normalAscent (a : Nat × List String) {cs : List Component}
    (hcs : ∀ c ∈ cs, c ≠ .root) :
    cs.foldl normalStep (normalAscent a) = normalAscent (cs.foldl ascentStep a) := by
  induction cs generalizing a with
  | nil => rfl
  | cons c cs ih =>
      obtain ⟨hc, hcs⟩ := List.forall_mem_cons.mp hcs
      rw [List.foldl_cons, List.foldl_cons, normalStep_normalAscent a hc, ih _ hcs]

theorem foldl_ascentStep_names (a : Nat × List String) (names : List String) :
    (names.map Component.name).foldl ascentStep a = (a.1, a.2 ++ names) := by
  induction names generalizing a with
  | nil => simp
  | cons s names ih =>
      obtain ⟨ups, before⟩ := a
      simp [ascentStep, ih]

variable {p : Path}

theorem isAbsolute_normalize (p : Path) : p.normalize.isAbsolute = p.isAbsolute := by
  obtain ⟨ps, htidy, -⟩ := p.exists_tidy_normalize
  exact htidy.isAbsolute

/-- Two steps up at the start of a normal form are none. -/
theorem ascent_normalize (hp : p.isAbsolute = false) :
    p.normalize.ascent = (p.ascent.1 % 2, p.ascent.2) := by
  obtain ⟨ps, -, -, hcomponents⟩ := p.exists_tidy_normalize
  have hfold : p.components.foldl normalStep [] = normalAscent p.ascent :=
    foldl_normalStep_normalAscent (0, []) (ne_root_of_mem_components hp)
  unfold ascent at hfold ⊢
  rw [hcomponents, normalComponents, hfold, normalAscent, List.reverse_append, List.reverse_reverse,
    List.foldl_append, foldl_ascentStep_names]
  rcases Nat.mod_two_eq_zero_or_one (p.components.foldl ascentStep (0, [])).1 with hups | hups <;>
    simp [hups, ascentStep]

/-- The normal form of a relative path leads to the same place from where it does not matter whether one
goes up all the directories or at most one. -/
theorem resolveFrom_normalize_iff (hp : p.isAbsolute = false) (l : Location) :
    p.normalize.resolveFrom l = p.resolveFrom l ↔
      p.ascent.1 ≤ 1 ∨ l.length ≤ p.ascent.1 % 2 := by
  have hnormal : p.normalize.isAbsolute = false := (isAbsolute_normalize p).trans hp
  rw [resolveFrom_eq_climb hnormal, resolveFrom_eq_climb hp, ascent_normalize hp,
    List.append_left_inj, climb, climb, List.take_eq_take_iff]
  omega

theorem ascent_of_names {q : Path} {names : List String}
    (h : p.components = q.components ++ names.map Component.name) :
    p.ascent = (q.ascent.1, q.ascent.2 ++ names) := by
  rw [ascent, h, List.foldl_append, foldl_ascentStep_names, ← ascent]

/-- Where a normal path goes on from a directory, the normal forms of all paths that do so lead to the same
place as the paths. -/
theorem resolveFrom_normalize_of_names {q r : Path} {names names' : List String}
    (hr : r.normalize.components = q.components ++ names'.map Component.name)
    (hp : p.components = q.components ++ names.map Component.name) (cwd : Location) :
    p.normalize.resolveFrom cwd = p.resolveFrom cwd := by
  cases habs : p.isAbsolute with
  | true => exact resolveFrom_normalize habs cwd
  | false =>
      have hroot : Component.root ∉ r.normalize.components := by
        intro hmem
        rw [hr] at hmem
        rcases List.mem_append.mp hmem with hmem | hmem
        · exact ne_root_of_mem_components habs _ (hp ▸ List.mem_append_left _ hmem) rfl
        · obtain ⟨name, -, hname⟩ := List.mem_map.mp hmem
          cases hname
      have hrel : r.isAbsolute = false := by
        obtain ⟨ps, htidy, -⟩ := r.exists_tidy_normalize
        cases hr : r.isAbsolute with
        | false => rfl
        | true =>
            rw [htidy.components, hr] at hroot
            exact absurd List.mem_cons_self hroot
      have hups : p.ascent.1 = r.ascent.1 % 2 := by
        have hnormal := congrArg Prod.fst ((ascent_of_names hr).symm.trans (ascent_normalize hrel))
        rw [ascent_of_names hp]
        exact hnormal
      exact (resolveFrom_normalize_iff habs cwd).mpr (.inl (by omega))

/-! ## Absolute paths -/

/-- The normal forms of the absolute paths that lead to a location. A `..` at the root is kept. -/
def normalForms (l : Location) : List Path :=
  [ofPieces true (l.map String.toList), ofPieces true (up :: l.map String.toList)]

theorem normalize_mem_normalForms (hp : p.isAbsolute = true) (cwd : Location) :
    p.normalize ∈ normalForms (p.resolveFrom cwd) := by
  obtain ⟨us, hus, ⟨ns, htidy, hns⟩, -⟩ := p.exists_anchor
  rw [hp] at htidy
  have hcomponents : p.normalize.components =
      (rootPart true ++ us.map componentOf) ++ (ns.map String.ofList).map Component.name := by
    rw [htidy.components, List.map_append, List.append_assoc, List.map_map]
    exact congrArg _ (congrArg _ (List.map_congr_left fun x hx => componentOf_of_ne (hns x hx)))
  have hroot : (rootPart true ++ us.map componentOf).foldl resolveStep cwd = [] := by
    rcases hus with rfl | rfl <;> rfl
  have hnames : (p.resolveFrom cwd).map String.toList = ns := by
    rw [← resolveFrom_normalize hp, resolveFrom_of_names hcomponents, hroot, List.nil_append,
      List.map_map]
    exact (List.map_congr_left fun x _ => String.toList_ofList).trans (List.map_id ns)
  rw [normalForms, hnames, htidy.eq]
  rcases hus with rfl | rfl <;> simp

/-! ## All paths -/

/-- The normal form of a path from the root leads where the path leads, and so does that of a relative
path, seen from any directory, if the path goes up at most one directory or the directory is so near the
root that more steps up make no difference. -/
theorem normal_paths_lead_to_same_place (p : Path) (cwd : Location) :
    (p.isAbsolute = true → p.normalize.resolveFrom cwd = p.resolveFrom cwd) ∧
      (p.isAbsolute = false → ∀ d : Path,
        ((d.join p.normalize).resolveFrom cwd = (d.join p).resolveFrom cwd ↔
          p.ascent.1 ≤ 1 ∨ (d.resolveFrom cwd).length ≤ p.ascent.1 % 2)) := by
  refine ⟨fun hp => resolveFrom_normalize hp cwd, fun hp d => ?_⟩
  rw [resolveFrom_join, resolveFrom_join]
  exact resolveFrom_normalize_iff hp _

/-- More steps up than names, from a directory and from the root. -/
theorem normal_paths_lead_to_same_place_of_one_up :
    let p : Path := ⟨"./x/.././../y//z/.."⟩
    let q : Path := ⟨"/../x/../../../y/."⟩
    p.isAbsolute = false ∧ p.ascent = (1, ["y"]) ∧
      ((⟨"/a/b"⟩ : Path).join p.normalize).resolveFrom [] = ["a", "y"] ∧
      ((⟨"/a/b"⟩ : Path).join p).resolveFrom [] = ["a", "y"] ∧
      q.isAbsolute = true ∧ q.normalize.resolveFrom [] = ["y"] ∧ q.resolveFrom [] = ["y"] := by
  intro p q
  have hp : p.isAbsolute = false := by decide +kernel
  have hq : q.isAbsolute = true := by decide +kernel
  have hascent : p.ascent = (1, ["y"]) := by decide +kernel
  have hplace : ((⟨"/a/b"⟩ : Path).join p).resolveFrom [] = ["a", "y"] := by decide +kernel
  have hroot : q.resolveFrom [] = ["y"] := by decide +kernel
  have hrel := ((normal_paths_lead_to_same_place p []).2 hp ⟨"/a/b"⟩).mpr
    (.inl (by simp [hascent]))
  have habs := (normal_paths_lead_to_same_place q []).1 hq
  exact ⟨hp, hascent, hrel.trans hplace, hplace, hq, habs.trans hroot, hroot⟩

/-- The normal form of a path that goes up two directories is empty. -/
theorem two_steps_up_are_lost :
    let p : Path := ⟨"../.."⟩
    let d : Path := ⟨"/a/b"⟩
    p.isAbsolute = false ∧ d.components = [.root, .name "a", .name "b"] ∧ p.normalize = ⟨""⟩ ∧
      (d.join p).resolveFrom [] = [] ∧ (d.join p.normalize).resolveFrom [] = ["a", "b"] := by
  decide +kernel

end ScriptWorks.Path
