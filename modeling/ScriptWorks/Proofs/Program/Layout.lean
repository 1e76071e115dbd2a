import ScriptWorks.Config.Project
import ScriptWorks.Program.Basic
import ScriptWorks.Proofs.Failing
import ScriptWorks.Proofs.Path.Extension
import ScriptWorks.Proofs.Path.Joining

/-!
# Where the outputs of a program lie

A script lies below the output directory as its source lies below the root directory, and the source
map lies beside it.
-/

namespace ScriptWorks

open ScriptWorks.Path

/-! ## Root files -/

theorem Config.mem_addNew {p : Path} {found ps : List Path} (h : p ∈ Config.addNew found ps) :
    p ∈ found ∨ p ∈ ps := by
  unfold Config.addNew at h
  induction ps generalizing found with
  | nil => exact .inl h
  | cons q ps ih =>
      rw [List.foldl_cons] at h
      rcases ih h with hmem | hmem
      · split at hmem
        · exact .inl hmem
        · rcases List.mem_append.mp hmem with hmem | hmem
          · exact .inl hmem
          · exact .inr (List.mem_singleton.mp hmem ▸ List.mem_cons_self)
      · exact .inr (List.mem_cons_of_mem q hmem)

/-- A root file is listed or selected. -/
theorem Config.of_mem_rootFiles {h : Host} {c : Config} {options : Options} {config p : Path}
    (hp : p ∈ (c.rootFiles h options config).1) :
    (∃ names, c.files = some names ∧ p ∈ (c.listed h names).1) ∨ p ∈ c.selected h options := by
  unfold Config.rootFiles at hp
  cases hfiles : c.files with
  | none =>
      simp only [hfiles, Option.isSome_none, Bool.false_and, Bool.false_eq_true, if_false] at hp
      split at hp <;> exact .inr ((Config.mem_addNew hp).resolve_left (by simp))
  | some names =>
      simp only [hfiles, Option.isSome_some, Bool.true_and] at hp
      split at hp
      · exact .inl ⟨names, rfl, hp⟩
      · split at hp <;> exact (Config.mem_addNew hp).imp_left fun hp => ⟨names, rfl, hp⟩

/-- Root files are written as normal paths. -/
theorem Project.normal_of_mem_fileNames {h : Host} {config p : Path}
    (hp : p ∈ (Project.read h config).fileNames) : ∃ q : Path, p = q.normalize := by
  unfold Project.read at hp
  split at hp
  · cases hp
  · rcases Config.of_mem_rootFiles hp with ⟨names, -, hp⟩ | hp
    · obtain ⟨name, -, rfl⟩ := List.mem_map.mp (List.mem_filter.mp hp).1
      exact ⟨_, rfl⟩
    · obtain ⟨f, -, rfl⟩ := List.mem_map.mp hp
      exact ⟨_, rfl⟩

/-- The root files that are compiled. -/
def Project.sources (p : Project) : List Path := p.fileNames.filter (!·.isDeclaration)

theorem Project.mem_sources {p : Project} {q : Path} :
    q ∈ p.sources ↔ q ∈ p.fileNames ∧ q.isDeclaration = false := by
  simp [sources]

namespace Path

/-! ## Places of scripts -/

/-- What is put to the end of a path is put to the text after its last slash. -/
theorem EndsIn.components_append {p : Path} {x : List Char} (h : EndsIn p x)
    (hx : x = [] ∨ IsLoud x) {s : String} (hs : IsLoud (x ++ s.toList)) :
    ∃ cs, p.components = cs ++ (component? x).toList ∧
      (⟨p.text ++ s⟩ : Path).components = cs ++ [componentOf (x ++ s.toList)] := by
  have hmk : (⟨p.text ++ s⟩ : Path) = ofChars (p.chars ++ s.toList) :=
    chars_inj.mp ((String.toList_append).trans (chars_ofChars _).symm)
  have hfirst : firstComponent? x = component? x := by
    rcases hx with rfl | hx
    · rfl
    · rw [hx.firstComponent?, hx.component?]
  have hp : p.components = (ofChars p.chars).components := by rw [ofChars_chars]
  rw [hmk, hp]
  rcases h.eq with heq | ⟨pre, heq⟩ <;> rw [heq]
  · refine ⟨[], ?_, ?_⟩
    · rw [components_of_piece h.noSlash, hfirst]
      rfl
    · rw [components_of_piece hs.noSlash, hs.firstComponent?]
      rfl
  · refine ⟨_, components_of_last h.noSlash pre, ?_⟩
    rw [List.append_assoc, List.cons_append, components_of_last hs.noSlash, hs.component?]
    rfl

/-- The path is written with the pieces after the components, and ends in the last piece, or in a slash
if there is none. -/
structure Lies (cs : List Component) (ps : List (List Char)) (p : Path) : Prop where
  components : p.components = cs ++ ps.map componentOf
  endsIn : EndsIn p (ps.getLast?.getD [])
  loud : ∀ x ∈ ps, IsLoud x

/-- The pieces of the path of a source map, from those of its script. -/
def mapPieces (ps : List (List Char)) : List (List Char) :=
  ps.dropLast ++ [ps.getLast?.getD [] ++ ".map".toList]

@[simp] theorem mapPieces_concat (ps : List (List Char)) (x : List Char) :
    mapPieces (ps ++ [x]) = ps ++ [x ++ ".map".toList] := by
  simp [mapPieces]

theorem isLoud_append_map {x : List Char} (hx : '/' ∉ x) :
    IsLoud (x ++ ".map".toList) ∧ x ++ ".map".toList ≠ up := by
  have hlength : (x ++ ".map".toList).length ≥ 4 := by simp
  refine ⟨⟨by simp [hx], ?_⟩, fun h => ?_⟩
  · have hne : x ++ ".map".toList ≠ ['.'] := by
      intro h
      rw [h] at hlength
      exact absurd hlength (by decide)
    rw [isSilent, decide_eq_false hne]
    simp
  · rw [h] at hlength
    exact absurd hlength (by decide)

theorem Lies.mapPath {cs : List Component} {ps : List (List Char)} {p : Path} (h : Lies cs ps p) :
    (Program.mapPath p).components = cs ++ (mapPieces ps).map componentOf := by
  rcases List.eq_nil_or_concat ps with rfl | ⟨ps, x, rfl⟩
  · obtain ⟨cs', hp, hmap⟩ := h.endsIn.components_append (.inl rfl)
      (isLoud_append_map h.endsIn.noSlash).1
    have hcs : cs = cs' := by
      have heq := h.components.symm.trans hp
      rwa [List.map_nil, List.append_nil, List.getLast?_nil, Option.getD_none,
        component?_of_silent rfl, Option.toList_none, List.append_nil] at heq
    rw [hcs]
    exact hmap
  · rw [List.concat_eq_append] at h ⊢
    have hx : IsLoud x := h.loud x (by simp)
    have hends := h.endsIn
    rw [List.getLast?_concat, Option.getD_some] at hends
    obtain ⟨cs', hp, hmap⟩ := hends.components_append (.inr hx) (isLoud_append_map hx.noSlash).1
    have hcs : cs ++ ps.map componentOf = cs' := by
      have heq := h.components.symm.trans hp
      rw [hx.component?, List.map_append, ← List.append_assoc] at heq
      exact List.append_cancel_right heq
    rw [mapPieces_concat, List.map_append, ← List.append_assoc, hcs]
    exact hmap

/-- A script with a name lies, as does its source map, on names after what is common to all. -/
theorem Lies.exists_names {cs : List Component} {us ts : List (List Char)} {script : Path}
    (h : Lies cs (scriptPieces (us ++ ts)) script) (hus : ∀ x ∈ us, x = up)
    (hts : ∀ x ∈ ts, x ≠ up) (hnamed : script.IsNamed) :
    (∃ names : List String, names ≠ [] ∧
      script.components = cs ++ us.map componentOf ++ names.map .name) ∧
    ∃ names : List String, names ≠ [] ∧
      (Program.mapPath script).components = cs ++ us.map componentOf ++ names.map .name := by
  obtain ⟨y, hends, hy, hyname⟩ := hnamed
  have hlast := h.endsIn.unique hends
  rcases List.eq_nil_or_concat ts with rfl | ⟨ts, x, rfl⟩
  · rw [List.append_nil] at hlast
    rcases List.eq_nil_or_concat us with rfl | ⟨us, x, rfl⟩
    · exact absurd hlast.symm hy.ne_nil
    · have hx : x = up := hus x (by simp)
      rw [List.concat_eq_append, scriptPieces_concat, List.getLast?_concat, Option.getD_some, hx,
        scriptPiece, withPiece_up] at hlast
      exact absurd hlast.symm hyname
  · have hpieces : scriptPieces (us ++ ts.concat x) = us ++ ts ++ [y] := by
      rw [List.concat_eq_append, ← List.append_assoc, scriptPieces_concat] at hlast ⊢
      rw [List.getLast?_concat, Option.getD_some] at hlast
      rw [hlast]
    have hplain : ∀ z, z ≠ up →
        (ts ++ [z]).map componentOf = ((ts ++ [z]).map String.ofList).map .name := by
      intro z hz
      rw [List.map_map]
      refine List.map_congr_left fun x hx => componentOf_of_ne ?_
      rcases List.mem_append.mp hx with hx | hx
      · exact hts x (by simp [hx])
      · rwa [List.mem_singleton.mp hx]
    rw [hpieces] at h
    refine ⟨⟨(ts ++ [y]).map String.ofList, by simp, ?_⟩,
      (ts ++ [y ++ ".map".toList]).map String.ofList, by simp, ?_⟩
    · rw [h.components, List.append_assoc, List.map_append, hplain y hyname, List.append_assoc]
    · rw [h.mapPath, mapPieces_concat, List.append_assoc, List.map_append,
        hplain _ (isLoud_append_map hy.noSlash).2, List.append_assoc]

namespace Tidy

variable {p q : Path} {abs abs' : Bool} {ps qs : List (List Char)}

theorem lies (h : Tidy p abs ps) : Lies (rootPart abs) ps p := by
  refine ⟨h.components, ?_, h.loud⟩
  rcases List.eq_nil_or_concat ps with rfl | ⟨ps, x, rfl⟩
  · refine ⟨by simp, ?_⟩
    rw [h.chars]
    cases abs with
    | true => exact .inr ⟨[], rfl⟩
    | false => exact .inl rfl
  · rw [List.concat_eq_append] at h ⊢
    rw [List.getLast?_concat]
    exact h.endsIn

theorem lies_join (hp : Tidy p abs ps) (hq : Tidy q false qs) :
    Lies p.components qs (p.join q) := by
  by_cases hqs : qs = []
  · subst hqs
    have hempty : q = ⟨""⟩ := hq.eq
    rw [hempty]
    have hrel : (⟨""⟩ : Path).isAbsolute = false := rfl
    unfold Path.join
    simp only [hrel, Bool.false_eq_true, if_false, String.append_empty]
    split
    · rename_i hend
      refine ⟨by simp, ⟨by simp, ?_⟩, nofun⟩
      by_cases htext : p.text = ""
      · exact .inl (by rw [Path.chars, htext]; rfl)
      · rw [String.isEmpty_eq_false_iff.mpr htext, Bool.false_or] at hend
        obtain ⟨pre, hpre⟩ := List.getLast?_eq_some_iff.mp (of_decide_eq_true hend)
        exact .inr ⟨pre, hpre⟩
    · rename_i hend
      have hne : p.chars ≠ [] := by
        intro hnil
        rw [Path.chars, String.toList_eq_nil_iff] at hnil
        exact hend (by simp [hnil])
      have hslash : (⟨p.text ++ "/"⟩ : Path) = ofChars (p.chars ++ ['/']) :=
        chars_inj.mp ((String.toList_append).trans (chars_ofChars _).symm)
      rw [hslash]
      refine ⟨?_, ⟨by simp, .inr ⟨p.chars, chars_ofChars _⟩⟩, nofun⟩
      rw [components_append_slash hne, ofChars_chars]
      simp
  · have hjoin := hp.join hq hqs
    refine ⟨?_, ?_, hq.loud⟩
    · rw [hjoin.components, hp.components, List.map_append, List.append_assoc]
    · obtain ⟨rs, x, rfl⟩ := List.eq_nil_or_concat qs |>.resolve_left hqs
      rw [List.concat_eq_append, ← List.append_assoc] at hjoin
      rw [List.concat_eq_append, List.getLast?_concat]
      exact hjoin.endsIn

end Tidy

end Path

namespace Program

/-- A script lies below the output directory as its source lies below the root directory. -/
theorem scriptPath_lies {out root p script : Path} {abs oabs : Bool} {ps qs os : List (List Char)}
    (hout : Tidy out oabs os) (hroot : Tidy root abs qs) (hp : Tidy p abs ps)
    (h : scriptPath (some out) (some root) p = .ok script) :
    ∃ rs, ps = qs ++ rs ∧ Lies out.components (scriptPieces rs) script := by
  unfold scriptPath at h
  cases hrel : p.stripPrefix? root with
  | none => simp [hrel] at h
  | some rel =>
      simp only [hrel, Except.ok.injEq] at h
      subst h
      rcases hp.of_stripPrefix? hroot hrel with ⟨-, rs, hps, hrel⟩ | ⟨rfl, habs, -⟩
      · exact ⟨rs, hps, hout.lies_join hrel.scriptPath⟩
      · cases habs

/-- Scripts of sources that are seen alike lie alike: something fixed comes before what they have of
their sources. -/
theorem exists_layout {out root : Option Path} (hout : ∀ d ∈ out, ∃ abs ps, Tidy d abs ps)
    (hroot : ∀ d ∈ root, ∃ abs ps, Tidy d abs ps) (abs : Bool) :
    ∃ cs qs, ∀ p ps script, Tidy p abs ps → scriptPath out root p = .ok script →
      ∃ rs, ps = qs ++ rs ∧ Lies cs (scriptPieces rs) script := by
  have hbeside : ∀ p ps script, Tidy p abs ps → .ok p.scriptPath = (.ok script : Except Diagnostic _) →
      ∃ rs, ps = [] ++ rs ∧ Lies (rootPart abs) (scriptPieces rs) script := by
    rintro p ps script hp ⟨rfl⟩
    exact ⟨ps, rfl, hp.scriptPath.lies⟩
  cases out with
  | none => exact ⟨_, _, hbeside⟩
  | some out =>
      cases root with
      | none => exact ⟨_, _, hbeside⟩
      | some root =>
          obtain ⟨oabs, os, hout⟩ := hout out rfl
          obtain ⟨rabs, qs, hroot⟩ := hroot root rfl
          by_cases hsame : rabs = abs
          · subst hsame
            exact ⟨_, qs, fun p ps script hp h => scriptPath_lies hout hroot hp h⟩
          · -- nothing is cut off an absolute path, which is then seen from nowhere else
            refine ⟨rootPart abs, [], fun p ps script hp h => ⟨ps, rfl, ?_⟩⟩
            unfold scriptPath at h
            cases hrel : p.stripPrefix? root with
            | none => simp [hrel] at h
            | some rel =>
                simp only [hrel, Except.ok.injEq] at h
                rcases hp.of_stripPrefix? hroot hrel with ⟨heq, -⟩ | ⟨-, rfl, -, rfl⟩
                · exact absurd heq hsame
                · have hscript := hp.scriptPath
                  rw [Path.join, if_pos hscript.isAbsolute] at h
                  rw [← h]
                  exact hscript.lies

/-! ## Outputs -/

/-- The directory of the outputs, if there is one. -/
def outDir (p : Program) : Option Path :=
  (p.options.text? .outDir).map fun dir => (⟨dir⟩ : Path).normalize

theorem path_of_readUnit {compiler : Compiler} {h : Host} {options : Options} {p : Path}
    {u : SourceUnit} (hu : readUnit compiler h options p = .ok u) : u.path = p := by
  unfold readUnit at hu
  split at hu <;> cases hu
  rfl

theorem mem_of_mem_units {compiler : Compiler} {h : Host} {fs : List Path} {options : Options}
    {u : SourceUnit} (hu : u ∈ (build compiler h fs options).units) : u.path ∈ fs := by
  obtain ⟨x, hx, hu⟩ := List.mem_filterMap.mp hu
  obtain ⟨p, hp, rfl⟩ := List.mem_map.mp hx
  rwa [path_of_readUnit (toOption_eq_some.mp hu)]

theorem unitOutput_eq_ok {out root : Option Path} {u : SourceUnit} {script : OutputFile}
    {map : Option OutputFile} (h : unitOutput out root u = .ok (some (script, map))) :
    u.path.isDeclaration = false ∧ scriptPath out root u.path = .ok script.path ∧
      ∀ f ∈ map, f.path = mapPath script.path := by
  unfold unitOutput at h
  cases hdecl : u.path.isDeclaration with
  | true => simp [hdecl, pure, Except.pure] at h
  | false =>
      cases hcode : u.output.code with
      | none => simp [hdecl, hcode, pure, Except.pure] at h
      | some code =>
          simp only [hdecl, hcode, Bool.false_eq_true, if_false] at h
          obtain ⟨path, hpath, h⟩ := bind_eq_ok.mp h
          cases h
          refine ⟨rfl, hpath, fun f hf => ?_⟩
          obtain ⟨map, -, rfl⟩ := Option.map_eq_some_iff.mp hf
          rfl

/-- Scripts and source maps of a program, source by source. -/
def unitFiles (p : Program) (u : SourceUnit) : List OutputFile :=
  match unitOutput p.outDir p.rootDir u with
  | .ok (some (script, map)) => map.toList ++ [script]
  | _ => []

theorem mem_unitFiles {p : Program} {u : SourceUnit} {f : OutputFile} (h : f ∈ p.unitFiles u) :
    u.path.isDeclaration = false ∧ ∃ script ∈ p.unitFiles u,
      scriptPath p.outDir p.rootDir u.path = .ok script.path ∧
      (f.path = script.path ∨ f.path = mapPath script.path) := by
  unfold unitFiles at h ⊢
  split at h
  · rename_i script map hunit
    obtain ⟨hdecl, hscript, hmap⟩ := unitOutput_eq_ok hunit
    refine ⟨hdecl, script, List.mem_append_right _ List.mem_cons_self, hscript, ?_⟩
    rcases List.mem_append.mp h with h | h
    · exact .inr (hmap f (Option.mem_toList.mp h))
    · exact .inl (by rw [List.mem_singleton.mp h])
  · cases h

theorem mapsLast_perm (files : List OutputFile) : (mapsLast files).Perm files := by
  unfold mapsLast
  exact List.perm_append_comm.trans (List.filter_append_perm isMap files)

theorem emit_files (p : Program) :
    p.emit.files = [] ∨ p.emit.files = mapsLast (p.units.flatMap p.unitFiles) := by
  unfold emit
  split
  · exact .inl rfl
  · split
    · exact .inl rfl
    · refine .inr (congrArg mapsLast ?_)
      rw [List.flatMap_map]
      rfl

theorem mem_emit {p : Program} {f : OutputFile} (h : f ∈ p.emit.files) :
    ∃ u ∈ p.units, f ∈ p.unitFiles u := by
  rcases p.emit_files with hnil | hfiles
  · rw [hnil] at h
    cases h
  · rw [hfiles] at h
    exact List.mem_flatMap.mp ((mapsLast_perm _).mem_iff.mp h)

/-! ## The root directory -/

theorem exists_tidy_dirOf {p : Path} {abs : Bool} {ps : List (List Char)} (h : Tidy p abs ps) :
    ∃ abs qs, Tidy (dirOf p) abs qs := by
  unfold dirOf
  by_cases hps : ps = []
  · subst hps
    rw [h.parent?_nil]
    exact ⟨_, _, tidy_empty⟩
  · obtain ⟨q, hq, hdir⟩ := h.parent? hps
    rw [hq]
    exact ⟨_, _, hdir⟩

theorem exists_tidy_commonDir {p : Path} {abs : Bool} {ps : List (List Char)} (h : Tidy p abs ps)
    (dir : Path) : ∃ abs qs, Tidy (commonDir p dir) abs qs := by
  unfold commonDir
  cases hfind : p.ancestors.find? (dir.startsWith ·) with
  | none => exact ⟨_, _, tidy_empty⟩
  | some a => exact ⟨abs, h.of_mem_ancestorsWithin (List.mem_of_find?_eq_some hfind)⟩

theorem exists_tidy_foldl_commonDir {p : Path} {abs : Bool} {ps : List (List Char)}
    (h : Tidy p abs ps) (dirs : List Path) : ∃ abs qs, Tidy (dirs.foldl commonDir p) abs qs := by
  induction dirs generalizing p abs ps with
  | nil => exact ⟨abs, ps, h⟩
  | cons dir dirs ih =>
      obtain ⟨abs, qs, h⟩ := exists_tidy_commonDir h dir
      exact ih h

/-- The root directory of tidy sources is tidy. -/
theorem exists_tidy_rootDir {p : Program}
    (h : ∀ u ∈ p.units, u.path.isDeclaration = false → ∃ abs ps, Tidy u.path abs ps) :
    ∀ d ∈ p.rootDir, ∃ abs ps, Tidy d abs ps := by
  intro d hd
  unfold rootDir at hd
  split at hd
  · cases hd
    obtain ⟨ps, htidy, -⟩ := exists_tidy_normalize _
    exact ⟨_, ps, htidy⟩
  · unfold sourceDir at hd
    split at hd
    · cases hd
    · rename_i dir dirs hdirs
      cases hd
      have hmem : dir ∈ (p.units.filter (!·.path.isDeclaration)).map fun u => dirOf u.path := by
        rw [hdirs]
        exact List.mem_cons_self
      obtain ⟨u, hu, rfl⟩ := List.mem_map.mp hmem
      obtain ⟨hunit, hdecl⟩ := List.mem_filter.mp hu
      obtain ⟨abs, ps, hp⟩ := h u hunit (by simpa using hdecl)
      obtain ⟨abs, qs, hdir⟩ := exists_tidy_dirOf hp
      exact exists_tidy_foldl_commonDir hdir dirs

theorem exists_tidy_outDir (p : Program) : ∀ d ∈ p.outDir, ∃ abs ps, Tidy d abs ps := by
  intro d hd
  obtain ⟨dir, -, rfl⟩ := Option.map_eq_some_iff.mp hd
  obtain ⟨ps, htidy, -⟩ := exists_tidy_normalize ⟨dir⟩
  exact ⟨_, ps, htidy⟩

end Program

end ScriptWorks
