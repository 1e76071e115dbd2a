import ScriptWorks.Source.Kind
import ScriptWorks.Proofs.Path.Beside
import ScriptWorks.Proofs.Path.Normal

/-!
# Extensions of paths

Another extension changes the last name of a path and nothing before it. A name that begins with two
dots and has no third one is cut down to `..`, so that its script has no name.
-/

namespace ScriptWorks.Path

/-! ## Names -/

theorem splitExtension_of_notMem {name : List Char} (h : '.' ∉ name) :
    splitExtension name = (name, none) := by
  have hall : (name.reverse.takeWhile (· ≠ '.')).reverse = name := by
    have hne : ∀ c ∈ name.reverse, decide (c ≠ '.') = true := by
      intro c hc
      have hc : c ≠ '.' := fun he => h (he ▸ List.mem_reverse.mp hc)
      simpa using hc
    rw [← List.append_nil name.reverse, List.takeWhile_append_of_pos hne, List.takeWhile_nil,
      List.append_nil, List.reverse_reverse]
  simp only [splitExtension, hall, decide_true, Bool.true_or, if_true]

theorem splitExtension_append {stem ext : List Char} (hext : '.' ∉ ext) :
    splitExtension (stem ++ '.' :: ext) =
      if stem = [] then ('.' :: ext, none) else (stem, some ext) := by
  have htail : ((stem ++ '.' :: ext).reverse.takeWhile (· ≠ '.')).reverse = ext := by
    have hall : ∀ c ∈ ext.reverse, decide (c ≠ '.') = true := by
      intro c hc
      have hc : c ≠ '.' := fun he => hext (he ▸ List.mem_reverse.mp hc)
      simpa using hc
    rw [List.reverse_append, List.reverse_cons, List.append_assoc,
      List.takeWhile_append_of_pos hall]
    simp
  have hlength : (stem ++ '.' :: ext).length - ext.length - 1 = stem.length := by simp; omega
  have hne : ¬ ext.length = (stem ++ '.' :: ext).length := by simp; omega
  simp only [splitExtension, htail, hlength, List.take_left, hne, decide_false, Bool.false_or]
  cases stem <;> simp

/-- A name has no extension, or it is a stem that is not empty, a dot and the extension. -/
theorem splitExtension_cases (name : List Char) :
    splitExtension name = (name, none) ∨
      ∃ stem ext, stem ≠ [] ∧ '.' ∉ ext ∧ name = stem ++ '.' :: ext ∧
        splitExtension name = (stem, some ext) := by
  obtain ⟨ext, hext, rfl | ⟨stem, rfl⟩⟩ := Text.exists_last '.' name
  · exact .inl (splitExtension_of_notMem hext)
  · rw [splitExtension_append hext]
    by_cases hstem : stem = []
    · exact .inl (by simp [hstem])
    · exact .inr ⟨stem, ext, hstem, hext, rfl, if_neg hstem⟩

/-- Characters that can be put to a name as its extension. -/
structure IsExtension (ext : List Char) : Prop where
  ne_nil : ext ≠ []
  noSlash : '/' ∉ ext
  noDot : '.' ∉ ext

theorem isExtension_scriptExtension (p : Path) : IsExtension p.scriptExtension.toList := by
  unfold scriptExtension
  split <;> exact ⟨by decide, by decide, by decide⟩

/-- The last piece of a path once it is given an extension. -/
def withPiece (x ext : List Char) : List Char :=
  if (splitExtension x).1 = ['.'] then up else (splitExtension x).1 ++ '.' :: ext

variable {x ext : List Char}

theorem stem_ne_nil (hx : x ≠ []) : (splitExtension x).1 ≠ [] := by
  rcases splitExtension_cases x with h | ⟨stem, old, hstem, -, -, h⟩
  · rwa [h]
  · rwa [h]

theorem noSlash_stem (hx : '/' ∉ x) : '/' ∉ (splitExtension x).1 := by
  rcases splitExtension_cases x with h | ⟨stem, old, -, -, rfl, h⟩
  · rwa [h]
  · rw [h]
    exact fun hmem => hx (List.mem_append_left _ hmem)

theorem isLoud_append {stem : List Char} (hstem : stem ≠ []) (hslash : '/' ∉ stem)
    (hext : IsExtension ext) : IsLoud (stem ++ '.' :: ext) ∧ stem ++ '.' :: ext ≠ up := by
  obtain ⟨c, cs, rfl⟩ := List.exists_cons_of_ne_nil hstem
  obtain ⟨d, ds, rfl⟩ := List.exists_cons_of_ne_nil hext.ne_nil
  have hlength : ((c :: cs) ++ '.' :: d :: ds).length ≥ 3 := by simp; omega
  refine ⟨⟨?_, ?_⟩, fun h => ?_⟩
  · have hext := hext.noSlash
    simp only [List.mem_append, List.mem_cons, not_or] at hslash hext ⊢
    exact ⟨hslash, by decide, hext⟩
  · have hne : (c :: cs) ++ '.' :: d :: ds ≠ ['.'] := by
      intro h
      rw [h] at hlength
      exact absurd hlength (by decide)
    rw [isSilent, decide_eq_false hne]
    rfl
  · rw [h] at hlength
    exact absurd hlength (by decide)

theorem isLoud_withPiece (hx : IsLoud x) (hext : IsExtension ext) : IsLoud (withPiece x ext) := by
  unfold withPiece
  split
  · exact .parent
  · exact (isLoud_append (stem_ne_nil hx.ne_nil) (noSlash_stem hx.noSlash) hext).1

theorem withPiece_up (ext : List Char) : withPiece up ext = up := if_pos (by decide)

/-! ## Paths -/

/-- The path ends in a name. -/
def IsNamed (p : Path) : Prop := ∃ x, p.EndsIn x ∧ IsLoud x ∧ x ≠ up

theorem EndsIn.fileName? {p : Path} (h : EndsIn p x) (hx : IsLoud x) (hname : x ≠ up) :
    p.fileName? = some (String.ofList x) := by
  unfold Path.fileName?
  rw [h.last? hx, componentOf_of_ne hname]

theorem EndsIn.extension? {p : Path} (h : EndsIn p x) (hx : IsLoud x) (hname : x ≠ up) :
    p.extension? = (splitExtension x).2.map String.ofList := by
  unfold Path.extension?
  rw [h.fileName? hx hname, Option.bind_some, String.toList_ofList]

theorem last?_of_fileName? {p : Path} {name : String} (h : p.fileName? = some name) :
    p.last? = some (.name name) := by
  unfold fileName? at h
  split at h
  · rename_i s hs
    rw [hs, Option.some.inj h]
  · cases h

/-- The name of a path is a piece that stands in it. -/
theorem isLoud_of_fileName? {p : Path} {name : String} (h : p.fileName? = some name) :
    IsLoud name.toList ∧ name.toList ≠ up := by
  have hlast := last?_of_fileName? h
  obtain ⟨cs, hcs, hloud⟩ := p.exists_components
  have hmem : Component.name name ∈ p.components := List.mem_of_getLast? hlast
  rw [hcs] at hmem
  rcases List.mem_append.mp hmem with hroot | hmem
  · unfold rootPart at hroot
    cases habs : p.isAbsolute <;> simp [habs] at hroot
  · rcases hloud _ hmem with heq | ⟨x, hx, heq⟩
    · cases heq
    · by_cases hup : x = up
      · subst hup
        cases heq
      · rw [componentOf_of_ne hup] at heq
        rw [Component.name.inj heq, String.toList_ofList]
        exact ⟨hx, hup⟩

/-- A path that is given an extension has it, or has no name. -/
theorem extension?_setExtension (p : Path) {ext : String} (hext : IsExtension ext.toList) :
    (p.setExtension ext).extension? = none ∨ (p.setExtension ext).extension? = some ext := by
  have hnotEmpty : ext.isEmpty = false := by
    rw [String.isEmpty_eq_false_iff]
    exact fun he => hext.ne_nil (String.toList_eq_nil_iff.mpr he)
  cases hname : p.fileName? with
  | none => exact .inl (by simp [setExtension, extension?, hname])
  | some name =>
      obtain ⟨hloud, -⟩ := isLoud_of_fileName? hname
      obtain ⟨hloud', hne⟩ :=
        isLoud_append (stem_ne_nil hloud.ne_nil) (noSlash_stem hloud.noSlash) hext
      simp only [setExtension, hname, hnotEmpty, Bool.false_eq_true, if_false]
      rw [(EndsIn.ofPieces hloud'.noSlash _ _).extension? hloud' hne, splitExtension_append hext.noDot,
        if_neg (stem_ne_nil hloud.ne_nil)]
      exact .inr (congrArg some String.ofList_toList)

theorem extension?_withExtension (p : Path) {ext : String} (hext : IsExtension ext.toList) :
    (p.withExtension ext).extension? = none ∨ (p.withExtension ext).extension? = some ext := by
  unfold withExtension
  split <;> exact extension?_setExtension _ hext

/-- A path without a name keeps its extension, whatever it is given. -/
theorem setExtension_of_fileName? {p : Path} (h : p.fileName? = none) (e : String) :
    p.setExtension e = p := by
  simp [setExtension, h]

theorem EndsIn.fileName?_up {p : Path} (h : EndsIn p up) : p.fileName? = none := by
  unfold Path.fileName?
  rw [h.last? .parent]
  rfl

theorem EndsIn.beside_setExtension {p : Path} (h : EndsIn p x) (hx : IsLoud x) (hname : x ≠ up)
    {e : String} (hext : IsExtension e.toList) :
    Beside p (p.setExtension e) x ((splitExtension x).1 ++ '.' :: e.toList) := by
  have hnotEmpty : e.isEmpty = false := by
    rw [String.isEmpty_eq_false_iff]
    exact fun he => hext.ne_nil (String.toList_eq_nil_iff.mpr he)
  simp only [setExtension, h.fileName? hx hname, String.toList_ofList, hnotEmpty,
    Bool.false_eq_true, if_false]
  exact h.beside_ofPieces hx (isLoud_append (stem_ne_nil hx.ne_nil) (noSlash_stem hx.noSlash) hext).1

/-- Another extension changes the last piece of a path. -/
theorem EndsIn.beside_withExtension {p : Path} (h : EndsIn p x) (hx : IsLoud x) {e : String}
    (hext : IsExtension e.toList) : Beside p (p.withExtension e) x (withPiece x e.toList) := by
  unfold Path.withExtension
  by_cases hup : x = up
  · subst hup
    have hnone : p.extension? = none := by rw [Path.extension?, h.fileName?_up, Option.bind_none]
    rw [hnone, withPiece_up, setExtension_of_fileName? h.fileName?_up]
    exact h.beside hx
  rw [h.extension? hx hup]
  rcases splitExtension_cases x with hsplit | ⟨stem, old, hstem, hold, rfl, hsplit⟩
  · rw [withPiece, if_neg (by rw [hsplit]; exact hx.ne_here), hsplit, Option.map_none]
    have hset := h.beside_setExtension hx hup hext
    rwa [hsplit] at hset
  · simp only [withPiece, hsplit, Option.map_some, String.length_ofList]
    have hdotted : stem ++ '.' :: old = (stem ++ ['.']) ++ old := by simp
    rw [hdotted] at h hx ⊢
    have hloud : IsLoud (stem ++ ['.']) :=
      ⟨fun hmem => hx.noSlash (List.mem_append_left old hmem), by simp [isSilent, hstem]⟩
    -- only the dot is left of the old extension
    have hcut := h.beside_take hx hloud
    by_cases hdot : stem = ['.']
    · subst hdot
      rw [if_pos rfl, setExtension_of_fileName? hcut.endsIn.fileName?_up]
      exact hcut
    · have hne : stem ++ ['.'] ≠ ['.'] ++ ['.'] := fun heq => hdot (List.append_cancel_right heq)
      have hset := hcut.endsIn.beside_setExtension hloud hne hext
      rw [splitExtension_append (by simp), if_neg hstem] at hset
      rw [if_neg hdot]
      exact hcut.trans hset

/-! ## Tidy paths -/

namespace Tidy

variable {p : Path} {abs : Bool} {ps : List (List Char)}

theorem endsIn (h : Tidy p abs (ps ++ [x])) : EndsIn p x := by
  rw [h.eq]
  exact .ofPieces (h.loud x (by simp)).noSlash abs ps

theorem last_loud (h : Tidy p abs (ps ++ [x])) : IsLoud x := h.loud x (by simp)

theorem fileName?_nil (h : Tidy p abs []) : p.fileName? = none := by
  unfold fileName? Path.last?
  rw [h.components]
  cases abs <;> rfl

end Tidy

/-! ## Scripts -/

/-- The last piece of the path of a script, from that of its source. -/
def scriptPiece (x : List Char) : List Char := withPiece x (ofChars x).scriptExtension.toList

/-- The pieces of the path of a script, from those of its source. -/
def scriptPieces (ps : List (List Char)) : List (List Char) :=
  match ps.getLast? with
  | none => []
  | some x => ps.dropLast ++ [scriptPiece x]

@[simp] theorem scriptPieces_nil : scriptPieces [] = [] := rfl

@[simp] theorem scriptPieces_concat (ps : List (List Char)) (x : List Char) :
    scriptPieces (ps ++ [x]) = ps ++ [scriptPiece x] := by
  simp [scriptPieces]

theorem scriptPieces_append {qs : List (List Char)} (hqs : qs ≠ []) (ps : List (List Char)) :
    scriptPieces (ps ++ qs) = ps ++ scriptPieces qs := by
  obtain ⟨rs, x, rfl⟩ := List.eq_nil_or_concat qs |>.resolve_left hqs
  rw [List.concat_eq_append, ← List.append_assoc, scriptPieces_concat, scriptPieces_concat,
    List.append_assoc]

/-- The name of a path depends on its last piece only. -/
theorem EndsIn.fileName?_eq {p q : Path} (hp : EndsIn p x) (hq : EndsIn q x) (hx : IsLoud x) :
    p.fileName? = q.fileName? := by
  unfold Path.fileName?
  rw [hp.last? hx, hq.last? hx]

theorem EndsIn.isDeclaration_eq {p q : Path} (hp : EndsIn p x) (hq : EndsIn q x) (hx : IsLoud x) :
    p.isDeclaration = q.isDeclaration := by
  unfold isDeclaration
  rw [hp.fileName?_eq hq hx]

/-- An end without a slash is the end of the last piece. -/
theorem EndsIn.suffix_iff {p : Path} (hp : EndsIn p x) {s : List Char} (hs : '/' ∉ s) :
    s <:+ p.text.toList ↔ s <:+ x := by
  rcases hp.eq with heq | ⟨pre, heq⟩
  · exact iff_of_eq (congrArg (s <:+ ·) heq)
  · have heq : p.text.toList = pre ++ '/' :: x := heq
    rw [heq]
    refine ⟨fun h => ?_, fun h => h.trans ((List.suffix_cons '/' x).trans (List.suffix_append ..))⟩
    rcases List.suffix_or_suffix_of_suffix h (List.suffix_append pre ('/' :: x)) with hshort | hlong
    · rcases List.suffix_cons_iff.mp hshort with rfl | hshort
      · exact absurd List.mem_cons_self hs
      · exact hshort
    · exact absurd (hlong.subset List.mem_cons_self) hs

theorem EndsIn.scriptExtension {p : Path} (h : EndsIn p x) (hx : IsLoud x) :
    p.scriptExtension = (ofChars x).scriptExtension := by
  have halone : EndsIn (ofChars x) x := ⟨hx.noSlash, .inl (chars_ofChars x)⟩
  unfold Path.scriptExtension Path.extension?
  rw [h.fileName?_eq halone hx]

/-- A script is beside its source, as that is written. -/
theorem EndsIn.beside_scriptPath {p : Path} (h : EndsIn p x) (hx : IsLoud x) :
    Beside p p.scriptPath x (scriptPiece x) := by
  rw [scriptPiece, ← h.scriptExtension hx]
  exact h.beside_withExtension hx (isExtension_scriptExtension p)

/-- Scripts of one name come from sources of one name. -/
theorem EndsIn.fileName?_scriptPath {p q : Path} (hp : EndsIn p x) (hq : EndsIn q x) (hx : IsLoud x) :
    p.scriptPath.fileName? = q.scriptPath.fileName? :=
  have hscript := hp.beside_scriptPath hx
  hscript.endsIn.fileName?_eq (hq.beside_scriptPath hx).endsIn hscript.right

theorem Tidy.scriptPath {p : Path} {abs : Bool} {ps : List (List Char)} (h : Tidy p abs ps) :
    Tidy p.scriptPath abs (scriptPieces ps) := by
  rcases List.eq_nil_or_concat ps with rfl | ⟨ps, x, rfl⟩
  · have hsame : p.scriptPath = p := by
      simp [Path.scriptPath, Path.withExtension, Path.setExtension, extension?, h.fileName?_nil]
    rwa [hsame, scriptPieces_nil]
  · rw [List.concat_eq_append] at h ⊢
    rw [scriptPieces_concat]
    exact (h.endsIn.beside_scriptPath h.last_loud).tidy h

theorem isLoud_scriptPiece (hx : IsLoud x) : IsLoud (scriptPiece x) :=
  isLoud_withPiece hx (isExtension_scriptExtension _)

/-- No script is named like a source map. -/
theorem scriptPiece_ne_append (y : List Char) : scriptPiece x ≠ y ++ ".map".toList := by
  intro h
  unfold scriptPiece withPiece at h
  split at h
  · have hlength := congrArg List.length h
    simp at hlength
  · have hlast := congrArg List.getLast? h
    unfold scriptExtension at hlast
    split at hlast <;> simp at hlast

/-- No script is taken for a source map. -/
theorem extension?_of_scriptPiece {p : Path} (h : EndsIn p (scriptPiece x)) (hx : IsLoud x) :
    p.extension? ≠ some "map" := by
  have hloud := isLoud_scriptPiece hx
  by_cases hup : scriptPiece x = up
  · unfold extension? Path.fileName?
    rw [h.last? hloud, hup]
    nofun
  · rw [h.extension? hloud hup]
    unfold scriptPiece withPiece at hup ⊢
    split at hup
    · exact absurd rfl hup
    · rename_i hdot
      rw [if_neg hdot, splitExtension_append (isExtension_scriptExtension _).noDot,
        if_neg (stem_ne_nil hx.ne_nil), Option.map_some, String.ofList_toList]
      unfold scriptExtension
      split <;> decide

end ScriptWorks.Path
