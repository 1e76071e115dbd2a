import ScriptWorks.Proofs.Path.Anchor

/-!
# Joined paths

A relative path that is seen from a directory has the components of the directory before its own. A `.`
that begins it is no component any more.
-/

namespace ScriptWorks.Path

variable {p q : Path}

/-- A slash at the end makes no component. -/
theorem components_append_slash {cs : List Char} (hcs : cs ≠ []) :
    (ofChars (cs ++ ['/'])).components = (ofChars cs).components := by
  have habs : (ofChars (cs ++ ['/'])).isAbsolute = (ofChars cs).isAbsolute := by
    have happend := isAbsolute_append hcs ['/'] []
    rwa [List.append_nil] at happend
  obtain ⟨first, rest, hp⟩ := List.exists_cons_of_ne_nil (Text.cut_ne_nil '/' cs)
  have hcut : Text.cut '/' (cs ++ ['/']) = first :: (rest ++ [[]]) := by
    rw [Text.cut_append, hp]
    rfl
  have hnil : component? [] = none := rfl
  unfold components pieces
  simp only [habs, chars_ofChars, hcut, hp]
  cases (ofChars cs).isAbsolute <;> simp [hnil]

/-- After a slash every piece makes a component unless it is silent. -/
theorem components_of_rest (pre rest : List Char) :
    (ofChars (pre ++ '/' :: rest)).components =
      (ofChars (pre ++ ['/'])).components ++ (Text.cut '/' rest).filterMap component? := by
  obtain ⟨first, others, hpre⟩ := List.exists_cons_of_ne_nil (Text.cut_ne_nil '/' pre)
  have habs : (ofChars (pre ++ '/' :: rest)).isAbsolute = (ofChars (pre ++ ['/'])).isAbsolute := by
    rw [List.append_cons]
    exact isAbsolute_append (by simp) rest [] |>.trans (by simp)
  have hcut : ∀ cs, Text.cut '/' (pre ++ '/' :: cs) = first :: (others ++ Text.cut '/' cs) := by
    intro cs
    rw [Text.cut_append, hpre, List.cons_append]
  have hnil : (Text.cut '/' []).filterMap component? = [] := rfl
  unfold components pieces
  simp only [habs, chars_ofChars, hcut]
  cases (ofChars (pre ++ ['/'])).isAbsolute <;> simp [hnil]

/-- The pieces of a relative path make its components, but for the `.` that begins it. -/
theorem filterMap_component?_cut (hq : q.isAbsolute = false) :
    (Text.cut '/' q.chars).filterMap component? = q.components.filter (· ≠ .here) := by
  have hloud : ∀ xs : List (List Char),
      (xs.filterMap component?).filter (· ≠ .here) = xs.filterMap component? := by
    intro xs
    refine List.filter_eq_self.mpr fun c hc => decide_eq_true ?_
    obtain ⟨x, -, hx⟩ := List.mem_filterMap.mp hc
    rintro rfl
    unfold component? at hx
    split at hx
    · cases hx
    · split at hx <;> cases hx
  unfold components pieces
  simp only [hq, Bool.false_eq_true, if_false]
  obtain ⟨first, rest, hcut⟩ := List.exists_cons_of_ne_nil (Text.cut_ne_nil '/' q.chars)
  rw [hcut]
  by_cases hhere : first = ['.']
  · subst hhere
    have hnone : component? ['.'] = none := rfl
    have hfirst : firstComponent? ['.'] = some .here := rfl
    rw [List.filterMap_cons_none hnone]
    simpa [hfirst] using (hloud rest).symm
  · have hall := hloud (first :: rest)
    have hsplit : (first :: rest).filterMap component? =
        (component? first).toList ++ rest.filterMap component? := by
      cases hc : component? first <;> simp [hc]
    rw [hsplit] at hall ⊢
    simp only [firstComponent?, hhere, if_false]
    exact hall.symm

theorem chars_join (hq : q.isAbsolute = false) (hp : p.isEmpty = false) :
    ∃ pre, (p.join q).chars = pre ++ '/' :: q.chars ∧
      (ofChars (pre ++ ['/'])).components = p.components := by
  have hmk : ∀ s : String, (⟨s⟩ : Path).chars = s.toList := fun _ => rfl
  have hpchars : p.text.toList = p.chars := rfl
  have hqchars : q.text.toList = q.chars := rfl
  have htext : p.text.isEmpty = false := hp
  unfold join
  rw [hq, if_neg (by decide), htext, Bool.false_or]
  split
  case isTrue hslash =>
    obtain ⟨pre, hpre⟩ := List.getLast?_eq_some_iff.mp (of_decide_eq_true hslash)
    refine ⟨pre, ?_, by rw [← hpre, ofChars_chars]⟩
    rw [hmk, String.toList_append, hpchars, hqchars, hpre]
    simp
  case isFalse =>
    have hne : p.chars ≠ [] := by
      intro hnil
      rw [Path.chars, String.toList_eq_nil_iff] at hnil
      rw [hnil] at htext
      cases htext
    refine ⟨p.chars, ?_, by rw [components_append_slash hne, ofChars_chars]⟩
    rw [hmk, String.toList_append, String.toList_append, hpchars, hqchars]
    simp

/-- A relative path goes on where the directory it is seen from ends. -/
theorem components_join (hq : q.isAbsolute = false) (hp : p.isEmpty = false) :
    (p.join q).components = p.components ++ q.components.filter (· ≠ .here) := by
  obtain ⟨pre, hchars, hpre⟩ := chars_join hq hp
  rw [← ofChars_chars (p.join q), hchars, components_of_rest, hpre, filterMap_component?_cut hq]

theorem join_of_isAbsolute (hq : q.isAbsolute = true) : p.join q = q := if_pos hq

theorem join_of_isEmpty (hp : p.isEmpty = true) : p.join q = q := by
  have htext : p.text = "" := String.isEmpty_iff.mp hp
  unfold join
  split
  · rfl
  · rw [htext]
    simp

/-- A piece is put to the end of a directory, however that is written. -/
theorem components_child {s : String} (hs : IsLoud s.toList) (p : Path) :
    (p.child s).components = p.components ++ [componentOf s.toList] := by
  have hq : Tidy ⟨s⟩ false [s.toList] :=
    ⟨chars_inj.mp (chars_ofChars _).symm, by simpa using hs⟩
  have hcomponents := hq.components
  simp only [rootPart, Bool.false_eq_true, if_false, List.map_cons, List.map_nil, List.nil_append]
    at hcomponents
  unfold child
  cases hp : p.isEmpty with
  | true =>
      have hempty : p = ⟨""⟩ := congrArg Path.mk (String.isEmpty_iff.mp hp)
      rw [join_of_isEmpty hp, hcomponents, hempty]
      rfl
  | false =>
      rw [components_join hq.isAbsolute hp, hcomponents]
      simp [componentOf_ne_here]

/-- The root stands before all components of a path that starts there. -/
theorem isAbsolute_iff (p : Path) : p.isAbsolute = true ↔ p.components.head? = some .root := by
  obtain ⟨cs, hcs, hloud⟩ := p.exists_components
  rw [hcs]
  cases habs : p.isAbsolute with
  | true => simp [rootPart]
  | false =>
      cases cs with
      | nil => simp [rootPart]
      | cons c cs =>
          rcases hloud c List.mem_cons_self with rfl | ⟨x, -, rfl⟩
          · simp [rootPart]
          · simp [rootPart, componentOf_ne_root]

theorem isAbsolute_join_of_relative (hq : q.isAbsolute = false) (hp : p.isEmpty = false) :
    (p.join q).isAbsolute = p.isAbsolute := by
  obtain ⟨pre, hchars, hpre⟩ := chars_join hq hp
  have hfront : (p.join q).isAbsolute = (ofChars (pre ++ ['/'])).isAbsolute := by
    unfold isAbsolute
    rw [hchars, chars_ofChars]
    cases pre <;> rfl
  refine hfront.trans (Bool.eq_iff_iff.mpr ?_)
  rw [isAbsolute_iff, isAbsolute_iff, hpre]

theorem isEmpty_of_isAbsolute (hp : p.isAbsolute = true) : p.isEmpty = false := by
  refine Bool.eq_false_iff.mpr fun hempty => ?_
  have hnil : p = ⟨""⟩ := congrArg Path.mk (String.isEmpty_iff.mp hempty)
  rw [hnil] at hp
  cases hp

theorem isAbsolute_join (hp : p.isAbsolute = true) (q : Path) : (p.join q).isAbsolute = true := by
  cases hq : q.isAbsolute with
  | true => rwa [join_of_isAbsolute hq]
  | false => rw [isAbsolute_join_of_relative hq (isEmpty_of_isAbsolute hp), hp]

theorem isAbsolute_child {s : String} (hs : IsLoud s.toList) (p : Path) :
    (p.child s).isAbsolute = p.isAbsolute := by
  refine Bool.eq_iff_iff.mpr ?_
  rw [isAbsolute_iff, isAbsolute_iff, components_child hs]
  cases p.components <;> simp [componentOf_ne_root]

/-! ## Resolving -/

theorem foldl_resolveStep_filter (l : Location) (cs : List Component) :
    (cs.filter (· ≠ .here)).foldl resolveStep l = cs.foldl resolveStep l := by
  induction cs generalizing l with
  | nil => rfl
  | cons c cs ih =>
      by_cases hc : c = .here
      · subst hc
        simpa [resolveStep] using ih l
      · rw [List.filter_cons_of_pos (by simpa using hc), List.foldl_cons, List.foldl_cons, ih]

/-- A path that starts at the root leads to one place from everywhere. -/
theorem resolveFrom_of_isAbsolute (hq : q.isAbsolute = true) (l m : Location) :
    q.resolveFrom l = q.resolveFrom m := by
  unfold resolveFrom
  rw [components, hq, if_pos rfl, List.foldl_cons, List.foldl_cons]
  rfl

/-- A joined path leads where the path leads from where the directory leads. -/
theorem resolveFrom_join (cwd : Location) (p q : Path) :
    (p.join q).resolveFrom cwd = q.resolveFrom (p.resolveFrom cwd) := by
  cases hq : q.isAbsolute with
  | true =>
      rw [join_of_isAbsolute hq]
      exact resolveFrom_of_isAbsolute hq _ _
  | false =>
      cases hp : p.isEmpty with
      | true =>
          have hempty : p = ⟨""⟩ := congrArg Path.mk (String.isEmpty_iff.mp hp)
          rw [join_of_isEmpty hp, hempty]
          rfl
      | false =>
          unfold resolveFrom
          rw [components_join hq hp, List.foldl_append, foldl_resolveStep_filter]

/-! ## Paths made tidy -/

theorem exists_loud (p : Path) : ∃ ps : List (List Char), (∀ x ∈ ps, IsLoud x) ∧
    p.components.filter (· ≠ .here) = rootPart p.isAbsolute ++ ps.map componentOf := by
  obtain ⟨cs, hcs, hloud⟩ := p.exists_components
  have hfilter : ∃ ps : List (List Char), (∀ x ∈ ps, IsLoud x) ∧
      cs.filter (· ≠ .here) = ps.map componentOf := by
    clear hcs
    induction cs with
    | nil => exact ⟨[], nofun, rfl⟩
    | cons c cs ih =>
        obtain ⟨hc, hloud⟩ := List.forall_mem_cons.mp hloud
        obtain ⟨ps, hps, heq⟩ := ih hloud
        rcases hc with rfl | ⟨x, hx, rfl⟩
        · exact ⟨ps, hps, by simpa using heq⟩
        · refine ⟨x :: ps, List.forall_mem_cons.mpr ⟨hx, hps⟩, ?_⟩
          rw [List.filter_cons_of_pos (by simpa using componentOf_ne_here x), heq, List.map_cons]
  obtain ⟨ps, hps, heq⟩ := hfilter
  refine ⟨ps, hps, ?_⟩
  rw [hcs, List.filter_append, heq]
  cases p.isAbsolute <;> simp [rootPart]

theorem filter_of_isAbsolute {p : Path} (h : p.isAbsolute = true) :
    p.components.filter (· ≠ .here) = p.components := by
  refine List.filter_eq_self.mpr fun c hc => decide_eq_true ?_
  rintro rfl
  rw [components, h, if_pos rfl] at hc
  rcases List.mem_cons.mp hc with hc | hc
  · cases hc
  · obtain ⟨x, -, hx⟩ := List.mem_filterMap.mp hc
    simp only [component?] at hx
    split at hx
    · cases hx
    · split at hx <;> cases hx

theorem components_append_end {p : Path} (hp : p.isEmpty = false) :
    (⟨p.text ++ "/"⟩ : Path).components = p.components := by
  have hne : p.chars ≠ [] := by
    intro hnil
    rw [Path.chars, String.toList_eq_nil_iff] at hnil
    simp [isEmpty, hnil] at hp
  have hmk : (⟨p.text ++ "/"⟩ : Path) = ofChars (p.chars ++ ['/']) :=
    chars_inj.mp (String.toList_append.trans (chars_ofChars _).symm)
  rw [hmk, components_append_slash hne, ofChars_chars]

theorem components_doubled {p : Path} (hp : p.isAbsolute = true) :
    (⟨"/" ++ p.text⟩ : Path).components = p.components := by
  obtain ⟨cs, hcs⟩ := List.head?_eq_some_iff.mp (of_decide_eq_true hp)
  have hmk : (⟨"/" ++ p.text⟩ : Path) = ofChars ([] ++ '/' :: p.chars) :=
    chars_inj.mp (String.toList_append.trans (chars_ofChars _).symm)
  have hroot : (ofChars ([] ++ ['/'])).components = [.root] := rfl
  rw [hmk, components_of_rest, hroot]
  simp [components, pieces, hp, hcs, Text.cut, component?, isSilent]

theorem tidy_child {p : Path} {abs : Bool} {ps : List (List Char)} {s : String}
    (hp : Tidy p abs ps) (hs : IsLoud s.toList) : Tidy (p.child s) abs (ps ++ [s.toList]) :=
  hp.join ⟨chars_inj.mp (chars_ofChars _).symm, by simpa using hs⟩ (List.cons_ne_nil _ _)

theorem tidy_foldl_child {p : Path} {abs : Bool} {ps qs : List (List Char)} (hp : Tidy p abs ps)
    (hqs : ∀ x ∈ qs, IsLoud x) :
    Tidy ((qs.map componentOf).foldl (fun q c => q.child c.text) p) abs (ps ++ qs) := by
  induction qs generalizing p ps with
  | nil => simpa using hp
  | cons x qs ih =>
      obtain ⟨hx, hqs⟩ := List.forall_mem_cons.mp hqs
      have hchild := tidy_child (s := (componentOf x).text) hp (by rwa [text_componentOf])
      rw [text_componentOf] at hchild
      simpa using ih hchild hqs

end ScriptWorks.Path
