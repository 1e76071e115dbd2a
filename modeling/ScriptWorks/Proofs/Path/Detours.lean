import ScriptWorks.Proofs.Path.Resolving

/-!
# Detours

A normal form is one already, and detours in a path do not change it: a `.`, or a name from which `..` leads
back at once, makes no difference wherever it stands between the components.
-/

namespace ScriptWorks.Path

/-! ## Normal forms of components -/

theorem foldl_normalStep_names (done : List Component) (names : List String) :
    (names.map Component.name).foldl normalStep done =
      (names.map Component.name).reverse ++ done := by
  induction names generalizing done with
  | nil => rfl
  | cons s names ih => simp [normalStep, ih]

/-- Names after at most one step up have nothing to be resolved. -/
theorem normalComponents_of_names (abs : Bool) {ups : List Component} (hups : ups = [] ∨ ups = [.parent])
    (names : List String) :
    normalComponents (rootPart abs ++ ups ++ names.map Component.name) =
      rootPart abs ++ ups ++ names.map Component.name := by
  have hfront : (rootPart abs ++ ups).foldl normalStep [] = (rootPart abs ++ ups).reverse := by
    rcases hups with rfl | rfl <;> cases abs <;> rfl
  rw [normalComponents, List.foldl_append, hfront, foldl_normalStep_names, List.reverse_append,
    List.reverse_reverse, List.reverse_reverse]

theorem normalComponents_filter (cs : List Component) :
    normalComponents (cs.filter (· ≠ .here)) = normalComponents cs := by
  have hfold : ∀ done, (cs.filter (· ≠ .here)).foldl normalStep done = cs.foldl normalStep done := by
    induction cs with
    | nil => intro done; rfl
    | cons c cs ih =>
        intro done
        by_cases hc : c = .here
        · subst hc
          simpa [normalStep] using ih done
        · rw [List.filter_cons_of_pos (by simpa using hc), List.foldl_cons, List.foldl_cons, ih]
  unfold normalComponents
  rw [hfold]

/-- The step up takes back the name before it, whatever has been kept until then. -/
theorem normalComponents_detour (cs ds : List Component) (s : String) :
    normalComponents (cs ++ .name s :: .parent :: ds) = normalComponents (cs ++ ds) := by
  have hback : ∀ done, normalStep (normalStep done (.name s)) .parent = done := fun _ => rfl
  simp only [normalComponents, List.foldl_append, List.foldl_cons, hback]

/-! ## Normal forms of paths -/

variable {p q : Path}

/-- Nothing is left to be resolved in the text: there is no `.`, and at most one `..`, before all names. -/
def IsResolved (p : Path) : Prop :=
  ∃ (ups : List Component) (names : List String), (ups = [] ∨ ups = [.parent]) ∧
    p.components = rootPart p.isAbsolute ++ ups ++ names.map Component.name

theorem isResolved_normalize (p : Path) : p.normalize.IsResolved := by
  obtain ⟨us, hus, ⟨ns, htidy, hns⟩, -⟩ := p.exists_anchor
  refine ⟨us.map componentOf, ns.map String.ofList, ?_, ?_⟩
  · rcases hus with rfl | rfl
    · exact .inl rfl
    · exact .inr rfl
  · have hnames : ns.map componentOf = (ns.map String.ofList).map Component.name := by
      rw [List.map_map]
      exact List.map_congr_left fun x hx => componentOf_of_ne (hns x hx)
    rw [isAbsolute_normalize, htidy.components, List.map_append, hnames, List.append_assoc]

theorem IsResolved.normalComponents_eq (h : p.IsResolved) :
    normalComponents p.components = p.components := by
  obtain ⟨ups, names, hups, hp⟩ := h
  rw [hp, normalComponents_of_names p.isAbsolute hups names]

theorem IsResolved.same_normalize (h : p.IsResolved) : p.normalize.same p = true := by
  obtain ⟨-, -, -, hcomponents⟩ := p.exists_tidy_normalize
  exact decide_eq_true (hcomponents.trans h.normalComponents_eq)

theorem normalize_normalize (p : Path) : p.normalize.normalize = p.normalize := by
  obtain ⟨-, -, -, hcomponents⟩ := p.exists_tidy_normalize
  rw [normalize, p.isResolved_normalize.normalComponents_eq, hcomponents, ← normalize]

/-- Paths that differ in a `.` at their start only have one normal form. -/
theorem normalize_congr (h : p.components.filter (· ≠ .here) = q.components.filter (· ≠ .here)) :
    p.normalize = q.normalize := by
  unfold normalize
  rw [← normalComponents_filter, h, normalComponents_filter]

/-! ## Insertions -/

/-- Something can be put in between two parts of the text of a path so that it stands between two of its
components, before the first one of a relative path, or after the root. -/
def IsGap (front rest : List Char) : Prop :=
  front.getLast? = some '/' ∨ front = [] ∧ rest.head? ≠ some '/'

variable {front rest x : List Char}

theorem IsGap.replace (h : IsGap front rest) {cs : List Char} (hcs : cs.head? ≠ some '/') :
    IsGap front cs := h.imp_right fun ⟨hfront, _⟩ => ⟨hfront, hcs⟩

/-- After a gap every piece makes its component. -/
theorem IsGap.filter_components (h : IsGap front rest) :
    (ofChars (front ++ rest)).components.filter (· ≠ .here) =
      (ofChars front).components.filter (· ≠ .here) ++ (Text.cut '/' rest).filterMap component? := by
  have hloud : ((Text.cut '/' rest).filterMap component?).filter (· ≠ .here) =
      (Text.cut '/' rest).filterMap component? := by
    refine List.filter_eq_self.mpr fun c hc => decide_eq_true ?_
    obtain ⟨y, hy, hc⟩ := List.mem_filterMap.mp hc
    rw [(exists_loud_of_component? (Text.notMem_of_mem_cut hy) hc).2]
    exact componentOf_ne_here y
  rcases h with hslash | ⟨rfl, hhead⟩
  · obtain ⟨pre, rfl⟩ := List.getLast?_eq_some_iff.mp hslash
    rw [List.append_assoc, List.singleton_append, components_of_rest, List.filter_append, hloud]
  · have hrel : (ofChars rest).isAbsolute = false := by simpa [isAbsolute] using hhead
    have hcut := filterMap_component?_cut hrel
    rw [chars_ofChars] at hcut
    rw [hcut]
    rfl

theorem IsGap.normalize_here (h : IsGap front rest) :
    (ofChars (front ++ "./".toList ++ rest)).normalize = (ofChars (front ++ rest)).normalize := by
  have hdot : "./".toList = ['.', '/'] := by decide
  have hcut : Text.cut '/' ('.' :: '/' :: rest) = ['.'] :: Text.cut '/' rest :=
    Text.cut_append ['.'] rest
  have hsilent : component? ['.'] = none := rfl
  refine normalize_congr ?_
  rw [hdot, List.append_assoc, List.cons_append, List.singleton_append,
    (h.replace (by simp)).filter_components, h.filter_components, hcut, List.filterMap_cons_none hsilent]

theorem IsGap.normalize_back (h : IsGap front rest) (hx : IsLoud x) (hname : x ≠ up) :
    (ofChars (front ++ (x ++ "/../".toList) ++ rest)).normalize =
      (ofChars (front ++ rest)).normalize := by
  have hback : x ++ "/../".toList ++ rest = x ++ '/' :: (up ++ '/' :: rest) := by
    have hdots : "/../".toList = '/' :: (up ++ ['/']) := by decide
    simp [hdots]
  have hcut : Text.cut '/' (x ++ '/' :: (up ++ '/' :: rest)) = x :: up :: Text.cut '/' rest := by
    rw [Text.cut_append, Text.cut_append, Text.cut_of_notMem hx.noSlash,
      Text.cut_of_notMem IsLoud.parent.noSlash]
    rfl
  have hhead : (x ++ '/' :: (up ++ '/' :: rest)).head? ≠ some '/' := by
    obtain ⟨c, cs, rfl⟩ := List.exists_cons_of_ne_nil hx.ne_nil
    have hc : ¬ c = '/' := fun hc => hx.noSlash (by simp [hc])
    simpa using hc
  have hcomponents := (h.replace hhead).filter_components
  rw [hcut, List.filterMap_cons_some hx.component?, List.filterMap_cons_some IsLoud.parent.component?,
    componentOf_of_ne hname, componentOf_up] at hcomponents
  rw [List.append_assoc, hback]
  unfold normalize
  rw [← normalComponents_filter, hcomponents, normalComponents_detour, ← h.filter_components,
    normalComponents_filter]

/-- A normal form is its own normal form, and is resolved; a path that is resolved is a spelling of its normal
form. The detours over `.`, or over a name and `..`, that are put in a gap of a path do not change its
normal form. -/
theorem normal_forms_are_free_of_detours (p : Path) :
    p.normalize.normalize = p.normalize ∧ p.normalize.IsResolved ∧
    (p.IsResolved → p.normalize.same p = true) ∧
    ∀ front rest, p.chars = front ++ rest → IsGap front rest →
      (ofChars (front ++ "./".toList ++ rest)).normalize = p.normalize ∧
      ∀ x, IsLoud x → x ≠ up →
        (ofChars (front ++ (x ++ "/../".toList) ++ rest)).normalize = p.normalize := by
  refine ⟨p.normalize_normalize, p.isResolved_normalize, IsResolved.same_normalize,
    fun front rest hp hgap => ?_⟩
  rw [← ofChars_chars p, hp]
  exact ⟨hgap.normalize_here, fun x hx hname => hgap.normalize_back hx hname⟩

/-- Detours between two steps up, and after the root. -/
theorem normal_forms_are_free_of_detours_of_steps :
    let p : Path := ⟨"../../y"⟩
    let q : Path := ⟨"//.././y"⟩
    p.normalize = ⟨"y"⟩ ∧ (⟨".././../y"⟩ : Path).normalize = ⟨"y"⟩ ∧
      (⟨"../...ts/../../y"⟩ : Path).normalize = ⟨"y"⟩ ∧
      q.normalize = ⟨"/../y"⟩ ∧ q.normalize.IsResolved ∧ q.normalize.normalize.same q.normalize = true ∧
      (⟨"/x/..//.././y"⟩ : Path).normalize = ⟨"/../y"⟩ := by
  intro p q
  have hp : p.normalize = ⟨"y"⟩ := by decide +kernel
  have hq : q.normalize = ⟨"/../y"⟩ := by decide +kernel
  obtain ⟨-, -, -, hsteps⟩ := normal_forms_are_free_of_detours p
  obtain ⟨hhere, hback⟩ := hsteps "../".toList "../y".toList (by decide +kernel) (.inl (by decide +kernel))
  have hname := hback "...ts".toList ⟨by decide, by decide⟩ (by decide)
  obtain ⟨-, hresolved, -, hroot⟩ := normal_forms_are_free_of_detours q
  obtain ⟨-, hafter⟩ := hroot "/".toList "/.././y".toList (by decide +kernel) (.inl (by decide +kernel))
  have hx := hafter "x".toList ⟨by decide, by decide⟩ (by decide)
  obtain ⟨-, -, hspelled, -⟩ := normal_forms_are_free_of_detours q.normalize
  exact ⟨hp, hhere.trans hp, hname.trans hp, hq, hresolved, hspelled hresolved, hx.trans hq⟩

end ScriptWorks.Path
