import ScriptWorks.Path.Normalize

/-!
# Tidy paths

A path is tidy if it is written with pieces that all make components. What is done to tidy paths is
done to their lists of pieces.
-/

namespace ScriptWorks

namespace Text

variable {sep : Char}

theorem cut_of_notMem {piece : List Char} (h : sep ∉ piece) : cut sep piece = [piece] := by
  induction piece with
  | nil => rfl
  | cons c cs ih =>
      have hc : ¬ c = sep := fun hc => h (by simp [hc])
      have hcs : sep ∉ cs := fun hcs => h (List.mem_cons_of_mem c hcs)
      simp [cut, hc, ih hcs]

/-- A separator begins a new piece. -/
theorem cut_append (cs ds : List Char) : cut sep (cs ++ sep :: ds) = cut sep cs ++ cut sep ds := by
  induction cs with
  | nil => simp [cut]
  | cons c cs ih =>
      obtain ⟨piece, pieces, hp⟩ := List.exists_cons_of_ne_nil (cut_ne_nil sep cs)
      by_cases hc : c = sep <;> simp [cut, hc, ih, hp]

theorem notMem_of_mem_cut {cs piece : List Char} (h : piece ∈ cut sep cs) : sep ∉ piece := by
  induction cs generalizing piece with
  | nil =>
      rw [cut, List.mem_singleton] at h
      rw [h]
      exact List.not_mem_nil
  | cons c cs ih =>
      obtain ⟨first, rest, hp⟩ := List.exists_cons_of_ne_nil (cut_ne_nil sep cs)
      rw [hp] at ih
      by_cases hc : c = sep
      · simp only [cut, hc, if_true, hp, List.mem_cons] at h ih
        rcases h with rfl | h
        · simp
        · exact ih h
      · simp only [cut, hc, if_false, hp, List.mem_cons] at h ih
        rcases h with rfl | h
        · simpa [Ne.symm hc] using ih (.inl rfl)
        · exact ih (.inr h)

theorem glue_concat {ps : List (List Char)} (hps : ps ≠ []) (piece : List Char) :
    glue sep (ps ++ [piece]) = glue sep ps ++ sep :: piece := by
  induction ps with
  | nil => exact absurd rfl hps
  | cons p ps ih =>
      cases ps with
      | nil => rfl
      | cons q ps =>
          have hrest := ih (List.cons_ne_nil q ps)
          simp only [List.cons_append] at hrest
          simp only [List.cons_append, glue, hrest, List.append_assoc]

/-- Pieces without the separator are found again in the text that is glued from them. -/
theorem cut_glue {ps : List (List Char)} (hps : ps ≠ []) (h : ∀ p ∈ ps, sep ∉ p) :
    cut sep (glue sep ps) = ps := by
  induction ps with
  | nil => exact absurd rfl hps
  | cons p ps ih =>
      obtain ⟨hp, h⟩ := List.forall_mem_cons.mp h
      cases ps with
      | nil => exact cut_of_notMem hp
      | cons q ps =>
          rw [glue, cut_append, cut_of_notMem hp, ih (List.cons_ne_nil q ps) h]
          · rfl
          · exact List.cons_ne_nil q ps

theorem glue_append {ps qs : List (List Char)} (hps : ps ≠ []) (hqs : qs ≠ []) :
    glue sep (ps ++ qs) = glue sep ps ++ sep :: glue sep qs := by
  induction ps with
  | nil => exact absurd rfl hps
  | cons p ps ih =>
      cases ps with
      | nil =>
          cases qs with
          | nil => exact absurd rfl hqs
          | cons q qs => rfl
      | cons p' ps =>
          have hrest := ih (List.cons_ne_nil p' ps)
          simp only [List.cons_append] at hrest
          simp only [List.cons_append, glue, hrest, List.append_assoc]

theorem glue_eq_intercalate (ps : List (List Char)) : glue sep ps = [sep].intercalate ps := by
  induction ps with
  | nil => rfl
  | cons p ps ih =>
      cases ps with
      | nil => simp [glue, List.intercalate]
      | cons q ps =>
          rw [glue, List.intercalate_cons_cons, ih, List.append_assoc]
          · rfl
          · exact List.cons_ne_nil q ps

theorem notMem_intercalate {c : Char} {between : List Char} (hbetween : c ∉ between)
    {pieces : List (List Char)} (h : ∀ piece ∈ pieces, c ∉ piece) : c ∉ between.intercalate pieces := by
  induction pieces with
  | nil => exact List.not_mem_nil
  | cons piece pieces ih =>
      obtain ⟨hpiece, hpieces⟩ := List.forall_mem_cons.mp h
      cases pieces with
      | nil => rwa [List.intercalate_singleton]
      | cons next pieces =>
          rw [List.intercalate_cons_cons]
          simp [hpiece, hbetween, ih hpieces]

theorem mem_glue {c : Char} {p : List Char} {ps : List (List Char)} (hp : p ∈ ps) (hc : c ∈ p) :
    c ∈ glue sep ps := by
  obtain ⟨front, rest, rfl⟩ := List.append_of_mem hp
  have hrest : c ∈ glue sep (p :: rest) := by
    cases rest with
    | nil => exact hc
    | cons q rest => exact List.mem_append_left _ hc
  cases front with
  | nil => exact hrest
  | cons q front =>
      rw [glue_append (List.cons_ne_nil q front) (List.cons_ne_nil p rest)]
      exact List.mem_append_right _ (List.mem_cons_of_mem _ hrest)

theorem length_cut (sep : Char) (cs : List Char) : (cut sep cs).length = cs.count sep + 1 := by
  induction cs with
  | nil => rfl
  | cons c cs ih =>
      obtain ⟨piece, pieces, hp⟩ := List.exists_cons_of_ne_nil (cut_ne_nil sep cs)
      rw [hp] at ih
      by_cases hc : c = sep <;> simp_all [cut]

/-- A glued text is another one, or goes on after it at a separator, exactly if its pieces do. -/
theorem glue_extends_iff {ps qs : List (List Char)} (hps : ps ≠ []) (h : ∀ p ∈ ps, sep ∉ p)
    (hqs : qs ≠ []) (h' : ∀ q ∈ qs, sep ∉ q) :
    (glue sep qs = glue sep ps ∨ ∃ rest, glue sep qs = glue sep ps ++ sep :: rest) ↔ ps <+: qs := by
  have hcut := cut_glue hqs h'
  constructor
  · rintro (heq | ⟨rest, heq⟩)
    · have hsame : qs = ps := by rw [← hcut, heq, cut_glue hps h]
      exact hsame ▸ List.prefix_rfl
    · rw [← hcut, heq, cut_append, cut_glue hps h]
      exact List.prefix_append ps _
  · rintro ⟨rs, rfl⟩
    by_cases hrs : rs = []
    · exact .inl (by rw [hrs, List.append_nil])
    · exact .inr ⟨_, glue_append hps hrs⟩

/-- A text is one piece, or ends in one after its last separator. -/
theorem exists_last (sep : Char) (cs : List Char) :
    ∃ x, sep ∉ x ∧ (cs = x ∨ ∃ pre, cs = pre ++ sep :: x) := by
  induction cs with
  | nil => exact ⟨[], by simp, .inl rfl⟩
  | cons c cs ih =>
      obtain ⟨x, hx, rfl | ⟨pre, rfl⟩⟩ := ih
      · by_cases hc : c = sep
        · exact ⟨cs, hx, .inr ⟨[], by rw [hc]; rfl⟩⟩
        · exact ⟨c :: cs, by simp [hx, Ne.symm hc], .inl rfl⟩
      · exact ⟨x, hx, .inr ⟨c :: pre, rfl⟩⟩

end Text

namespace Path

@[simp] theorem chars_ofChars (cs : List Char) : (ofChars cs).chars = cs := String.toList_ofList

@[simp] theorem ofChars_chars (p : Path) : ofChars p.chars = p := by
  cases p
  exact congrArg Path.mk String.ofList_toList

theorem chars_inj {p q : Path} : p.chars = q.chars ↔ p = q :=
  ⟨fun h => by rw [← ofChars_chars p, h, ofChars_chars], congrArg chars⟩

/-! ## Spellings -/

theorem same_refl (p : Path) : p.same p = true := decide_eq_true rfl

theorem same_comm (p q : Path) : p.same q = q.same p := by
  unfold same
  simp only [eq_comm]

theorem same_left {p q : Path} (h : p.same q = true) (r : Path) : r.same p = r.same q := by
  unfold same at *
  rw [of_decide_eq_true h]

/-! ## Prefixes -/

/-- What is cut off a path depends on the components of the other one only. -/
theorem stripPrefix?_congr {p q q' : Path} (h : q.components = q'.components) :
    p.stripPrefix? q = p.stripPrefix? q' := by
  unfold stripPrefix? startsWith
  rw [h]

theorem stripPrefix?_eq_none {p q : Path} (h : ¬ q.components <+: p.components) :
    p.stripPrefix? q = none := by
  rw [stripPrefix?, if_neg]
  exact fun hstart => h (List.isPrefixOf_iff_prefix.mp hstart)

/-! ## Pieces -/

/-- A piece that makes a component. -/
structure IsLoud (piece : List Char) : Prop where
  noSlash : '/' ∉ piece
  notSilent : isSilent piece = false

/-- The component that a loud piece makes. -/
def componentOf (piece : List Char) : Component :=
  if piece = ['.', '.'] then .parent else .name (String.ofList piece)

theorem componentOf_inj {x y : List Char} : componentOf x = componentOf y ↔ x = y := by
  unfold componentOf
  by_cases hx : x = ['.', '.'] <;> by_cases hy : y = ['.', '.'] <;>
    simp [hx, hy, String.ofList_inj]
  exact fun h => hy h.symm

theorem componentOf_ne_root (x : List Char) : componentOf x ≠ .root := by
  unfold componentOf
  split <;> nofun

theorem componentOf_ne_here (x : List Char) : componentOf x ≠ .here := by
  unfold componentOf
  split <;> nofun

namespace IsLoud

variable {x : List Char}

theorem ne_nil (h : IsLoud x) : x ≠ [] := by
  rintro rfl
  exact absurd h.notSilent (by decide)

theorem ne_here (h : IsLoud x) : x ≠ ['.'] := by
  rintro rfl
  exact absurd h.notSilent (by decide)

theorem ofList_ne_here (h : IsLoud x) : String.ofList x ≠ "." := fun heq =>
  h.ne_here (String.ofList_inj.mp (heq.trans (String.ofList_toList (s := ".")).symm))

theorem component? (h : IsLoud x) : component? x = some (componentOf x) := by
  unfold Path.component? componentOf
  rw [if_neg (by simp [h.notSilent])]
  by_cases hx : x = ['.', '.'] <;> simp [hx]

theorem firstComponent? (h : IsLoud x) : firstComponent? x = some (componentOf x) := by
  rw [Path.firstComponent?, if_neg h.ne_here, h.component?]

theorem parent : IsLoud ['.', '.'] := ⟨by decide, by decide⟩

end IsLoud

theorem component?_of_silent {x : List Char} (h : isSilent x = true) : component? x = none := if_pos h

/-- Every component that a piece makes comes from a loud one. -/
theorem exists_loud_of_component? {x : List Char} {c : Component} (hslash : '/' ∉ x)
    (h : component? x = some c) : IsLoud x ∧ c = componentOf x := by
  cases hx : isSilent x with
  | true => rw [component?_of_silent hx] at h; cases h
  | false =>
      have hloud : IsLoud x := ⟨hslash, hx⟩
      exact ⟨hloud, (Option.some.inj (hloud.component?.symm.trans h)).symm⟩

/-! ## The last piece -/

theorem isAbsolute_append {cs : List Char} (h : cs ≠ []) (ds es : List Char) :
    (ofChars (cs ++ ds)).isAbsolute = (ofChars (cs ++ es)).isAbsolute := by
  obtain ⟨c, cs, rfl⟩ := List.exists_cons_of_ne_nil h
  simp [isAbsolute]

/-- What stands after the last slash makes the last component, if it makes any. -/
theorem components_of_last {x : List Char} (hx : '/' ∉ x) (pre : List Char) :
    (ofChars (pre ++ '/' :: x)).components =
      (ofChars (pre ++ ['/'])).components ++ (component? x).toList := by
  obtain ⟨first, rest, hp⟩ := List.exists_cons_of_ne_nil (Text.cut_ne_nil '/' pre)
  have hcut : ∀ y, '/' ∉ y → Text.cut '/' (pre ++ '/' :: y) = first :: (rest ++ [y]) := by
    intro y hy
    rw [Text.cut_append, Text.cut_of_notMem hy, hp]
    rfl
  have habs : (ofChars (pre ++ '/' :: x)).isAbsolute = (ofChars (pre ++ ['/'])).isAbsolute := by
    rw [List.append_cons]
    exact isAbsolute_append (by simp) x [] |>.trans (by simp)
  have hlast : ∀ y, (rest ++ [y]).filterMap component? =
      rest.filterMap component? ++ (component? y).toList := by
    intro y
    rw [List.filterMap_append]
    cases hy : component? y <;> simp [hy]
  have hnil : component? [] = none := rfl
  unfold components pieces
  simp only [habs, chars_ofChars, hcut x hx, hcut [] (by simp)]
  cases (ofChars (pre ++ ['/'])).isAbsolute <;> simp [hlast, hnil]

theorem components_of_piece {x : List Char} (hx : '/' ∉ x) :
    (ofChars x).components = (firstComponent? x).toList := by
  have habs : (ofChars x).isAbsolute = false := by
    cases x with
    | nil => rfl
    | cons c x =>
        have hc : ¬ c = '/' := fun hc => hx (by simp [hc])
        simp [isAbsolute, hc]
  unfold components pieces
  simp [habs, Text.cut_of_notMem hx]

/-- The text after the last slash of a path. -/
structure EndsIn (p : Path) (x : List Char) : Prop where
  noSlash : '/' ∉ x
  eq : p.chars = x ∨ ∃ pre, p.chars = pre ++ '/' :: x

theorem exists_endsIn (p : Path) : ∃ x, EndsIn p x := by
  obtain ⟨x, hx, heq⟩ := Text.exists_last '/' p.chars
  exact ⟨x, hx, heq⟩

namespace EndsIn

variable {p : Path} {x : List Char}

theorem last? (h : EndsIn p x) (hx : IsLoud x) : p.last? = some (componentOf x) := by
  rw [← ofChars_chars p]
  unfold Path.last?
  rcases h.eq with heq | ⟨pre, heq⟩ <;> rw [heq]
  · rw [components_of_piece hx.noSlash, hx.firstComponent?]
    rfl
  · rw [components_of_last hx.noSlash, hx.component?]
    exact List.getLast?_concat

/-- A path ends as before when it is seen from a directory. -/
theorem join (h : EndsIn p x) (d : Path) : EndsIn (d.join p) x := by
  refine ⟨h.noSlash, ?_⟩
  unfold Path.join
  have hmk : ∀ s : String, (⟨s⟩ : Path).chars = s.toList := fun _ => rfl
  split
  · exact h.eq
  · have hp : p.text.toList = p.chars := rfl
    split
    · rename_i hend
      rw [hmk, String.toList_append, hp]
      rcases h.eq with heq | ⟨pre, heq⟩
      · rw [heq]
        by_cases hd : d.text = ""
        · exact .inl (by simp [hd])
        · rw [String.isEmpty_eq_false_iff.mpr hd, Bool.false_or] at hend
          have hslash : d.text.toList.getLast? = some '/' := of_decide_eq_true hend
          obtain ⟨pre, hpre⟩ := List.getLast?_eq_some_iff.mp hslash
          exact .inr ⟨pre, by simp [hpre]⟩
      · exact .inr ⟨d.text.toList ++ pre, by simp [heq]⟩
    · rw [hmk, String.toList_append, String.toList_append, hp]
      rcases h.eq with heq | ⟨pre, heq⟩
      · exact .inr ⟨d.text.toList, by simp [heq]⟩
      · exact .inr ⟨d.text.toList ++ '/' :: pre, by simp [heq]⟩

theorem unique (h : EndsIn p x) {y : List Char} (hy : EndsIn p y) : x = y := by
  have hsuffix : ∀ {x y : List Char} {pre : List Char}, '/' ∉ x → '/' ∉ y →
      p.chars = pre ++ '/' :: x → (p.chars = y ∨ ∃ pre, p.chars = pre ++ '/' :: y) → x = y := by
    rintro x y pre hx hy heq (hy' | ⟨pre', hy'⟩)
    · exact absurd (by rw [← hy', heq]; simp) hy
    · have hcut := congrArg (Text.cut '/') (heq.symm.trans hy')
      rw [Text.cut_append, Text.cut_append, Text.cut_of_notMem hx, Text.cut_of_notMem hy] at hcut
      simpa using congrArg List.getLast? hcut
  rcases h.eq with heq | ⟨pre, heq⟩
  · rcases hy.eq with heq' | ⟨pre, heq'⟩
    · exact heq.symm.trans heq'
    · exact (hsuffix hy.noSlash h.noSlash heq' h.eq).symm
  · exact hsuffix h.noSlash hy.noSlash heq hy.eq

theorem append (h : EndsIn p x) {s : String} (hs : '/' ∉ s.toList) :
    EndsIn ⟨p.text ++ s⟩ (x ++ s.toList) := by
  have happend : (⟨p.text ++ s⟩ : Path).chars = p.chars ++ s.toList := String.toList_append
  refine ⟨by simp [h.noSlash, hs], ?_⟩
  rcases h.eq with heq | ⟨pre, heq⟩
  · exact .inl (by rw [happend, heq])
  · exact .inr ⟨pre, by rw [happend, heq]; simp⟩

theorem ofPieces (hx : '/' ∉ x) (abs : Bool) (ps : List (List Char)) :
    EndsIn (Path.ofPieces abs (ps ++ [x])) x := by
  refine ⟨hx, ?_⟩
  rw [Path.ofPieces, chars_ofChars]
  cases ps with
  | nil =>
      cases abs with
      | true => exact .inr ⟨[], rfl⟩
      | false => exact .inl rfl
  | cons y ps =>
      rw [Text.glue_concat (List.cons_ne_nil y ps)]
      exact .inr ⟨_, (List.append_assoc ..).symm⟩

end EndsIn

/-! ## Tidy paths -/

/-- The path is written with loud pieces, from the root or not. -/
structure Tidy (p : Path) (abs : Bool) (ps : List (List Char)) : Prop where
  eq : p = ofPieces abs ps
  loud : ∀ x ∈ ps, IsLoud x

/-- What comes before the components of the pieces. -/
def rootPart (abs : Bool) : List Component := if abs then [.root] else []

theorem map_componentOf_inj {xs ys : List (List Char)} :
    xs.map componentOf = ys.map componentOf ↔ xs = ys :=
  List.map_inj_right fun _ _ => componentOf_inj.mp

theorem rootPart_append_inj {abs abs' : Bool} {ps qs : List (List Char)}
    (h : rootPart abs ++ ps.map componentOf = rootPart abs' ++ qs.map componentOf) :
    abs = abs' ∧ ps = qs := by
  cases abs <;> cases abs' <;> simp only [rootPart, if_true, Bool.false_eq_true, if_false,
    List.nil_append, List.cons_append, List.cons.injEq, true_and] at h
  · exact ⟨rfl, map_componentOf_inj.mp h⟩
  · cases ps with
    | nil => cases h
    | cons x ps => exact absurd (List.cons.inj h).1 (componentOf_ne_root x)
  · cases qs with
    | nil => cases h
    | cons x qs => exact absurd (List.cons.inj h).1.symm (componentOf_ne_root x)
  · exact ⟨rfl, map_componentOf_inj.mp h⟩

namespace Tidy

variable {p q : Path} {abs abs' : Bool} {ps qs : List (List Char)} {names : List String}

theorem chars (h : Tidy p abs ps) :
    p.chars = (if abs then ['/'] else []) ++ Text.glue '/' ps := by
  rw [h.eq, ofPieces, chars_ofChars]

theorem isAbsolute (h : Tidy p abs ps) : p.isAbsolute = abs := by
  unfold Path.isAbsolute
  rw [h.chars]
  cases abs with
  | true => simp
  | false =>
      cases ps with
      | nil => simp [Text.glue]
      | cons x ps =>
          have hx := h.loud x List.mem_cons_self
          obtain ⟨c, cs, rfl⟩ := List.exists_cons_of_ne_nil hx.ne_nil
          have hc : ¬ c = '/' := fun hc => hx.noSlash (by simp [hc])
          cases ps <;> simp [Text.glue, hc]

theorem pieces (h : Tidy p abs ps) (hps : ps ≠ []) : p.pieces = ps := by
  have hcut := Text.cut_glue hps fun x hx => (h.loud x hx).noSlash
  unfold Path.pieces
  rw [h.isAbsolute, h.chars]
  cases abs <;> simp [Text.cut, hcut]

theorem pieces_nil (h : Tidy p abs []) : p.pieces = [[]] := by
  unfold Path.pieces
  rw [h.isAbsolute, h.chars]
  cases abs <;> rfl

theorem dropWhile_isSilent (h : ∀ x ∈ ps, IsLoud x) : ps.dropWhile isSilent = ps := by
  cases ps with
  | nil => rfl
  | cons x ps =>
      have hx := (h x List.mem_cons_self).notSilent
      exact List.dropWhile_cons_of_neg (by simp [hx])

theorem dropSilentEnd_of_loud (h : ∀ x ∈ ps, IsLoud x) : dropSilentEnd abs ps = ps := by
  have hrev : (ps.reverse.dropWhile isSilent).reverse = ps := by
    rw [dropWhile_isSilent fun x hx => h x (List.mem_reverse.mp hx), List.reverse_reverse]
  unfold dropSilentEnd
  split
  · exact absurd rfl (h _ List.mem_cons_self).ne_here
  · exact hrev

theorem dropSilentEnd_pieces (h : Tidy p abs ps) : dropSilentEnd abs p.pieces = ps := by
  cases ps with
  | nil =>
      rw [h.pieces_nil]
      cases abs <;> rfl
  | cons x ps =>
      rw [h.pieces (List.cons_ne_nil x ps)]
      exact dropSilentEnd_of_loud h.loud

theorem filterMap_component? (h : ∀ x ∈ ps, IsLoud x) :
    ps.filterMap component? = ps.map componentOf := by
  induction ps with
  | nil => rfl
  | cons x ps ih =>
      obtain ⟨hx, h⟩ := List.forall_mem_cons.mp h
      rw [List.filterMap_cons_some hx.component?, ih h, List.map_cons]

theorem components (h : Tidy p abs ps) : p.components = rootPart abs ++ ps.map componentOf := by
  unfold Path.components rootPart
  rw [h.isAbsolute]
  cases ps with
  | nil =>
      rw [h.pieces_nil]
      cases abs <;> rfl
  | cons x ps =>
      rw [h.pieces (List.cons_ne_nil x ps)]
      obtain ⟨hx, hps⟩ := List.forall_mem_cons.mp h.loud
      cases abs with
      | true => simp [hx.component?, filterMap_component? hps]
      | false => simp [hx.firstComponent?, filterMap_component? hps]

theorem eq_of_components (hp : Tidy p abs ps) (hq : Tidy q abs' qs)
    (h : p.components = q.components) : abs = abs' ∧ ps = qs := by
  rw [hp.components, hq.components] at h
  exact rootPart_append_inj h

theorem same_iff (hp : Tidy p abs ps) (hq : Tidy q abs' qs) :
    p.same q = true ↔ abs = abs' ∧ ps = qs := by
  unfold same
  rw [decide_eq_true_iff]
  constructor
  · exact hp.eq_of_components hq
  · rintro ⟨rfl, rfl⟩
    rw [hp.eq, hq.eq]

/-! ### Cutting and joining -/

theorem parent? (h : Tidy p abs ps) (hps : ps ≠ []) :
    ∃ q, p.parent? = some q ∧ Tidy q abs ps.dropLast := by
  have hloud : ∀ x ∈ ps.dropLast, IsLoud x := fun x hx => h.loud x ((List.dropLast_sublist ps).subset hx)
  refine ⟨ofPieces abs ps.dropLast, ?_, rfl, hloud⟩
  unfold Path.parent?
  simp only [h.isAbsolute, h.dropSilentEnd_pieces, dropSilentEnd_of_loud hloud]

theorem parent?_nil (h : Tidy p abs []) : p.parent? = none := by
  unfold Path.parent?
  simp only [h.isAbsolute, h.dropSilentEnd_pieces]

/-- No slash stands at the end. -/
theorem exists_getLast? (h : Tidy p abs ps) (hps : ps ≠ []) :
    ∃ c, p.chars.getLast? = some c ∧ c ≠ '/' := by
  obtain ⟨qs, x, rfl⟩ := List.eq_nil_or_concat ps |>.resolve_left hps
  have hx := h.loud x (by simp)
  obtain ⟨c, hc⟩ : ∃ c, x.getLast? = some c :=
    ⟨_, List.getLast?_eq_some_getLast hx.ne_nil⟩
  have hmem : c ∈ x := List.mem_of_getLast? hc
  refine ⟨c, ?_, fun he => hx.noSlash (he ▸ hmem)⟩
  rw [h.chars]
  cases qs with
  | nil => simp [Text.glue, hc]
  | cons q qs =>
      rw [List.concat_eq_append, Text.glue_concat (List.cons_ne_nil q qs)]
      simp [List.getLast?_cons, hc]

theorem join (hp : Tidy p abs ps) (hq : Tidy q false qs) (hqs : qs ≠ []) :
    Tidy (p.join q) abs (ps ++ qs) := by
  refine ⟨chars_inj.mp ?_, fun x hx => (List.mem_append.mp hx).elim (hp.loud x) (hq.loud x)⟩
  unfold Path.join
  rw [hq.isAbsolute, if_neg (by decide), ofPieces, chars_ofChars]
  have hjoined : ∀ s : String, (⟨s⟩ : Path).chars = s.toList := fun _ => rfl
  have hpchars := hp.chars
  have hqchars := hq.chars
  rw [Path.chars] at hpchars hqchars
  simp only [Bool.false_eq_true, if_false, List.nil_append] at hqchars
  cases ps with
  | nil =>
      have hslash : (p.text.isEmpty || p.chars.getLast? = some '/') = true := by
        rw [hp.chars]
        cases abs with
        | true => simp [Text.glue]
        | false => simp [← String.toList_eq_nil_iff, hpchars, Text.glue]
      rw [if_pos hslash, hjoined, String.toList_append, hpchars, hqchars]
      simp [Text.glue]
  | cons x ps =>
      have hslash : (p.text.isEmpty || p.chars.getLast? = some '/') = false := by
        obtain ⟨c, hlast, hc⟩ := hp.exists_getLast? (List.cons_ne_nil x ps)
        have htext : p.text ≠ "" := by
          intro htext
          rw [Path.chars, htext] at hlast
          cases hlast
        simp [hlast, hc, htext]
      rw [if_neg (by simp [hslash]), hjoined, String.toList_append, String.toList_append, hpchars,
        hqchars, Text.glue_append (List.cons_ne_nil x ps) hqs]
      simp

theorem dropComponents_of_loud (h : ∀ x ∈ ps, IsLoud x) (n : Nat) :
    dropComponents n ps = ps.drop n := by
  induction n generalizing ps with
  | zero => rw [dropComponents, dropWhile_isSilent h, List.drop_zero]
  | succ n ih =>
      cases ps with
      | nil => rfl
      | cons x ps =>
          obtain ⟨hx, h⟩ := List.forall_mem_cons.mp h
          simp [dropComponents, hx.notSilent, ih h]

/-- A tidy path begins with another one if its pieces do, or if the other one is empty. -/
theorem of_startsWith (hp : Tidy p abs ps) (hq : Tidy q abs' qs) (h : p.startsWith q = true) :
    (abs' = abs ∧ qs <+: ps) ∨ (abs' = false ∧ qs = []) := by
  obtain ⟨t, ht⟩ := List.isPrefixOf_iff_prefix.mp h
  rw [hp.components, hq.components] at ht
  have hprefix : qs.map componentOf ++ t = ps.map componentOf → qs <+: ps := by
    intro ht
    obtain ⟨qs', rs, rfl, hqs, -⟩ := List.map_eq_append_iff.mp ht.symm
    rw [map_componentOf_inj.mp hqs]
    exact List.prefix_append qs rs
  cases abs' <;> cases abs <;> simp only [rootPart, if_true, Bool.false_eq_true, if_false,
    List.nil_append, List.cons_append, List.cons.injEq, true_and] at ht
  · exact .inl ⟨rfl, hprefix ht⟩
  · cases qs with
    | nil => exact .inr ⟨rfl, rfl⟩
    | cons x qs => exact absurd (List.cons.inj ht).1 (componentOf_ne_root x)
  · cases ps with
    | nil => cases ht
    | cons x ps => exact absurd (List.cons.inj ht).1.symm (componentOf_ne_root x)
  · exact .inl ⟨rfl, hprefix ht⟩

theorem startsWith (hp : Tidy p abs (qs ++ ps)) (hq : Tidy q abs qs) : p.startsWith q = true := by
  refine List.isPrefixOf_iff_prefix.mpr ?_
  rw [hp.components, hq.components, List.map_append, ← List.append_assoc]
  exact List.prefix_append _ _

/-- What follows a prefix are the pieces that follow its pieces. Nothing is cut off by the empty path,
so that a path from the root stays one. -/
theorem of_stripPrefix? (hp : Tidy p abs ps) (hq : Tidy q abs' qs) {rel : Path}
    (h : p.stripPrefix? q = some rel) :
    (abs' = abs ∧ ∃ rs, ps = qs ++ rs ∧ Tidy rel false rs) ∨
      (abs' = false ∧ abs = true ∧ qs = [] ∧ rel = p) := by
  unfold Path.stripPrefix? at h
  cases hstart : p.startsWith q with
  | false => simp [hstart] at h
  | true =>
      simp only [hstart, if_true, hp.isAbsolute, hp.dropSilentEnd_pieces, hq.components] at h
      have hloud : ∀ {rs}, ps = qs ++ rs → ∀ x ∈ rs, IsLoud x :=
        fun hrs x hx => hp.loud x (hrs ▸ List.mem_append_right qs hx)
      have hdrop : ∀ {rs}, ps = qs ++ rs → dropComponents qs.length ps = rs := by
        intro rs hrs
        rw [dropComponents_of_loud hp.loud, hrs, List.drop_left]
      rcases hp.of_startsWith hq hstart with ⟨rfl, rs, hrs⟩ | ⟨rfl, rfl⟩
      · refine .inl ⟨rfl, rs, hrs.symm, ?_, hloud hrs.symm⟩
        cases abs' with
        | true =>
            simp only [rootPart, if_true, List.singleton_append, List.length_map, hdrop hrs.symm]
              at h
            exact (Option.some.inj h).symm
        | false =>
            cases qs with
            | nil =>
                rw [List.nil_append] at hrs
                rw [hrs]
                exact (Option.some.inj h).symm
            | cons x qs =>
                rw [← hdrop hrs.symm]
                simp only [rootPart, Bool.false_eq_true, if_false, List.nil_append, List.map_cons]
                  at h
                cases hc : componentOf x with
                | root => exact absurd hc (componentOf_ne_root x)
                | here => exact absurd hc (componentOf_ne_here x)
                | parent | name =>
                    simp only [hc, List.length_cons, List.length_map] at h
                    exact (Option.some.inj h).symm
      · cases abs with
        | true => exact .inr ⟨rfl, rfl, rfl, (Option.some.inj h).symm.trans hp.eq.symm⟩
        | false => exact .inl ⟨rfl, ps, rfl, (Option.some.inj h).symm, hp.loud⟩

/-- The pieces of a tidy path are those of another one and then names. -/
theorem exists_pieces (hp : Tidy p abs ps)
    (h : p.components = q.components ++ names.map Component.name) :
    ∃ qs rs, ps = qs ++ rs ∧ q.components = rootPart abs ++ qs.map componentOf ∧
      rs.map componentOf = names.map Component.name := by
  have hcomponents : rootPart abs ++ ps.map componentOf = q.components ++ names.map Component.name :=
    hp.components.symm.trans h
  cases abs with
  | false =>
      obtain ⟨qs, rs, hps, hqs, hrs⟩ := List.map_eq_append_iff.mp hcomponents
      exact ⟨qs, rs, hps, hqs.symm, hrs⟩
  | true =>
      cases hq : q.components with
      | nil =>
          rw [hq] at hcomponents
          cases names <;> cases hcomponents
      | cons first cs =>
          rw [hq] at hcomponents
          obtain ⟨hfirst, hcomponents⟩ := List.cons.inj hcomponents
          obtain ⟨qs, rs, hps, hqs, hrs⟩ := List.map_eq_append_iff.mp hcomponents
          exact ⟨qs, rs, hps, by rw [← hfirst, ← hqs]; rfl, hrs⟩

/-- What follows the components of another path are the names that are left. -/
theorem exists_stripPrefix? (hp : Tidy p abs ps)
    (h : p.components = q.components ++ names.map Component.name) :
    ∃ rel, p.stripPrefix? q = some rel ∧ rel.toSlash = String.intercalate "/" names := by
  obtain ⟨qs, rs, rfl, hqs, hrs⟩ := hp.exists_pieces h
  have hq : Tidy (ofPieces abs qs) abs qs := ⟨rfl, fun x hx => hp.loud x (List.mem_append_left rs hx)⟩
  rw [stripPrefix?_congr (hqs.trans hq.components.symm)]
  have hstart : p.startsWith (ofPieces abs qs) = true := hp.startsWith hq
  obtain ⟨rel, hrel⟩ : ∃ rel, p.stripPrefix? (ofPieces abs qs) = some rel := by
    unfold stripPrefix?
    rw [if_pos hstart]
    dsimp only
    split <;> exact ⟨_, rfl⟩
  refine ⟨rel, hrel, ?_⟩
  rcases hp.of_stripPrefix? hq hrel with ⟨-, rs', hrs', htidy⟩ | ⟨rfl, habs, -⟩
  · rw [← List.append_cancel_left hrs'] at htidy
    have hcomponents : rel.components = names.map Component.name := htidy.components.trans hrs
    rw [toSlash, hcomponents, List.map_map]
    exact congrArg _ (List.map_id names)
  · cases habs

/-! ### Ancestors -/

theorem of_mem_ancestorsWithin {n : Nat} {a : Path} (hp : Tidy p abs ps)
    (h : a ∈ ancestorsWithin n p) : ∃ qs, Tidy a abs qs := by
  induction n generalizing p ps with
  | zero => cases h
  | succ n ih =>
      cases ps with
      | nil =>
          simp only [ancestorsWithin, hp.parent?_nil, List.mem_singleton] at h
          exact ⟨[], h ▸ hp⟩
      | cons x ps =>
          obtain ⟨q, hq, hdir⟩ := hp.parent? (List.cons_ne_nil x ps)
          simp only [ancestorsWithin, hq, List.mem_cons] at h
          rcases h with rfl | h
          · exact ⟨_, hp⟩
          · exact ih hdir h

/-- The nearest ancestor that satisfies a condition is not above one that does. -/
theorem find?_ancestorsWithin {cond : Path → Bool} {n : Nat} (hp : Tidy p abs (qs ++ ps))
    (hn : ps.length < n) (hcond : ∀ q, Tidy q abs qs → cond q = true) :
    ∃ rs a, rs <+: ps ∧ (ancestorsWithin n p).find? cond = some a ∧ Tidy a abs (qs ++ rs) := by
  induction n generalizing p ps with
  | zero => omega
  | succ n ih =>
      cases hc : cond p with
      | true =>
          refine ⟨ps, p, List.prefix_refl ps, ?_, hp⟩
          unfold ancestorsWithin
          split <;> exact List.find?_cons_of_pos hc
      | false =>
          have hps : ps ≠ [] := by
            rintro rfl
            rw [hcond p (by simpa using hp)] at hc
            cases hc
          obtain ⟨q, hq, hdir⟩ := hp.parent? (by simp [hps])
          rw [List.dropLast_append_of_ne_nil hps] at hdir
          have hlength := List.length_pos_iff.mpr hps
          obtain ⟨rs, a, hrs, hfind, ha⟩ := ih hdir (by rw [List.length_dropLast]; omega)
          refine ⟨rs, a, hrs.trans (List.dropLast_prefix ps), ?_, ha⟩
          rw [ancestorsWithin, hq, List.find?_cons_of_neg (by simp [hc]), hfind]

theorem find?_ancestors {cond : Path → Bool} (hp : Tidy p abs (qs ++ ps))
    (hcond : ∀ q, Tidy q abs qs → cond q = true) :
    ∃ rs a, rs <+: ps ∧ p.ancestors.find? cond = some a ∧ Tidy a abs (qs ++ rs) := by
  refine find?_ancestorsWithin hp ?_ hcond
  rw [hp.components, List.length_append, List.length_map, List.length_append]
  omega

end Tidy

theorem tidy_empty : Tidy ⟨""⟩ false [] := ⟨rfl, nofun⟩

end Path

end ScriptWorks
