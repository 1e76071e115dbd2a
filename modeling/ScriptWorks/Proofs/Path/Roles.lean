import ScriptWorks.Proofs.Program.Layout

/-!
# Names of inputs and of outputs

What a file is written or read for can be seen from how its name ends.
-/

namespace ScriptWorks.Path

/-- How the names of scripts and of source maps end. -/
def outputEnds : List String := [".js", ".mjs", ".cjs", ".map"]

/-- How the names of sources end. -/
def sourceEnds : List String := [".ts", ".tsx", ".mts", ".cts"]

def namesOutput (name : String) : Bool := outputEnds.any fun e => e.toList.isSuffixOf name.toList

/-- The path ends in the name of a script or a source map. -/
def isOutput (p : Path) : Bool := p.fileName?.any namesOutput

/-- The path ends in the name of a source. -/
def endsAsSource (p : Path) : Bool :=
  p.fileName?.any fun name => sourceEnds.any fun e => e.toList.isSuffixOf name.toList

/-- The path ends in a name, which is not that of a script or a source map. -/
def isInput (p : Path) : Bool := p.fileName?.any fun name => !namesOutput name

variable {p : Path} {name : String}

theorem isInput_iff : p.isInput = true ↔ ∃ name, p.fileName? = some name ∧ namesOutput name = false := by
  simp [isInput, Option.any_eq_true]

theorem isInput_eq_false_iff : p.isInput = false ↔ ∀ name ∈ p.fileName?, namesOutput name = true := by
  cases hname : p.fileName? <;> simp [isInput, hname]

theorem isInput_of_isOutput (h : p.isOutput = true) : p.isInput = false := by
  obtain ⟨name, hname, hout⟩ := Option.any_eq_true _ _ |>.mp h
  refine isInput_eq_false_iff.mpr fun other hother => ?_
  rw [Option.mem_def.mp hother] at hname
  exact Option.some.inj hname ▸ hout

/-- No name ends in two ways. -/
theorem namesOutput_of_sourceEnd {e : String} (he : e ∈ sourceEnds)
    (h : e.toList.isSuffixOf name.toList = true) : namesOutput name = false := by
  have happart : ∀ e ∈ sourceEnds, ∀ e' ∈ outputEnds,
      e.toList.isSuffixOf e'.toList = false ∧ e'.toList.isSuffixOf e.toList = false := by decide
  refine List.any_eq_false.mpr fun e' he' h' => ?_
  obtain ⟨hleft, hright⟩ := happart e he e' he'
  rw [List.isSuffixOf_iff_suffix] at h h'
  rcases List.suffix_or_suffix_of_suffix h h' with hsuffix | hsuffix
  · rw [List.isSuffixOf_iff_suffix.mpr hsuffix] at hleft
    cases hleft
  · rw [List.isSuffixOf_iff_suffix.mpr hsuffix] at hright
    cases hright

theorem isInput_of_endsAsSource (h : p.endsAsSource = true) : p.isInput = true := by
  obtain ⟨name, hname, hany⟩ := Option.any_eq_true _ _ |>.mp h
  obtain ⟨e, he, hsuffix⟩ := List.any_eq_true.mp hany
  exact isInput_iff.mpr ⟨name, hname, namesOutput_of_sourceEnd he hsuffix⟩

/-! ## Names that are written -/

theorem namesOutput_append {e : String} (he : e ∈ outputEnds) (stem : List Char) :
    namesOutput (String.ofList (stem ++ e.toList)) = true := by
  refine List.any_eq_true.mpr ⟨e, he, List.isSuffixOf_iff_suffix.mpr ?_⟩
  rw [String.toList_ofList]
  exact List.suffix_append stem e.toList

/-- A path that is given an extension has no name, or one that ends in it. -/
theorem fileName?_setExtension (p : Path) {ext : String} (hext : IsExtension ext.toList) :
    (p.setExtension ext).fileName? = none ∨
      ∃ stem, (p.setExtension ext).fileName? = some (String.ofList (stem ++ '.' :: ext.toList)) := by
  have hnotEmpty : ext.isEmpty = false := by
    rw [String.isEmpty_eq_false_iff]
    exact fun he => hext.ne_nil (String.toList_eq_nil_iff.mpr he)
  cases hname : p.fileName? with
  | none => exact .inl (by simp [setExtension, hname])
  | some name =>
      obtain ⟨hloud, -⟩ := isLoud_of_fileName? hname
      obtain ⟨hloud', hne⟩ :=
        isLoud_append (stem_ne_nil hloud.ne_nil) (noSlash_stem hloud.noSlash) hext
      simp only [setExtension, hname, hnotEmpty, Bool.false_eq_true, if_false]
      exact .inr ⟨_, (EndsIn.ofPieces hloud'.noSlash _ _).fileName? hloud' hne⟩

theorem isInput_scriptPath (p : Path) : p.scriptPath.isInput = false := by
  have hset : ∀ q : Path, (q.setExtension p.scriptExtension).isInput = false := by
    intro q
    refine isInput_eq_false_iff.mpr fun name hname => ?_
    rcases fileName?_setExtension q (isExtension_scriptExtension p) with hnone | ⟨stem, hsome⟩
    · rw [Option.mem_def.mp hname] at hnone
      cases hnone
    · rw [Option.mem_def.mp hname] at hsome
      rw [Option.some.inj hsome]
      have hend : ∃ e ∈ outputEnds, e.toList = '.' :: p.scriptExtension.toList := by
        unfold scriptExtension
        split <;> decide
      obtain ⟨e, he, heq⟩ := hend
      rw [← heq]
      exact namesOutput_append he stem
  unfold scriptPath withExtension
  split <;> exact hset _

theorem isInput_mapPath (script : Path) : (Program.mapPath script).isInput = false := by
  obtain ⟨x, hx⟩ := script.exists_endsIn
  obtain ⟨hloud, hname⟩ := isLoud_append_map hx.noSlash
  have hfile := (hx.append (s := ".map") (by decide)).fileName? hloud hname
  refine isInput_eq_false_iff.mpr fun name hmem => ?_
  rw [show (Program.mapPath script).fileName? = _ from hfile, Option.mem_def, Option.some.injEq] at hmem
  exact hmem ▸ namesOutput_append (by decide) x

/-- A name in a directory. -/
theorem fileName?_child (hname : IsLoud name.toList) (hup : name.toList ≠ up) (dir : Path) :
    (dir.child name).fileName? = some name := by
  have hends : EndsIn (⟨name⟩ : Path) name.toList := ⟨hname.noSlash, .inl rfl⟩
  rw [child, (hends.join dir).fileName? hname hup, String.ofList_toList]

end ScriptWorks.Path
