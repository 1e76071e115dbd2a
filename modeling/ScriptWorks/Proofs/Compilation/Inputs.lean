import ScriptWorks.Small.Compiler
import ScriptWorks.Proofs.Compilation.Outcome
import ScriptWorks.Proofs.Engine.Emitting
import ScriptWorks.Proofs.FileSystem.Entry
import ScriptWorks.Proofs.Program.Layout

/-!
# Inputs of compilations

What is written ends in the extension of a script or of a source map, so that no TypeScript source is
overwritten. A file without a TypeScript extension is an input only if it is named.
-/

namespace ScriptWorks

open ScriptWorks.Path LawfulFileSystem

namespace Path

/-! ## Extensions of outputs -/

theorem isSource_congr {p q : Path} (h : p.extension? = q.extension?) : p.isSource = q.isSource := by
  unfold isSource
  rw [h]

/-- A name that ends two paths makes both of them sources, or neither. -/
theorem EndsIn.isSource_eq {p q : Path} {x : List Char} (hp : EndsIn p x) (hq : EndsIn q x)
    (hx : IsLoud x) : p.isSource = q.isSource := by
  refine isSource_congr ?_
  unfold Path.extension? Path.fileName?
  rw [hp.last? hx, hq.last? hx]

theorem isSource_scriptPath (p : Path) : p.scriptPath.isSource = false := by
  have hextension : sourceExtensions.contains p.scriptExtension = false := by
    unfold scriptExtension
    split <;> decide
  unfold isSource
  rcases extension?_withExtension p (isExtension_scriptExtension p) with h | h <;>
    rw [scriptPath, h]
  · rfl
  · simpa using hextension

theorem isSource_mapPath (script : Path) : (Program.mapPath script).isSource = false := by
  obtain ⟨x, hx⟩ := script.exists_endsIn
  obtain ⟨hloud, hname⟩ := isLoud_append_map hx.noSlash
  have hends : EndsIn (Program.mapPath script) (x ++ ".map".toList) := hx.append (by decide)
  have hdot : ".map".toList = '.' :: "map".toList := by decide
  unfold isSource
  rw [hends.extension? hloud hname, hdot, splitExtension_append (by decide)]
  split <;> rfl

/-- A script that is seen from a directory, and ends in a name, is no source. -/
theorem isSource_join {d p : Path} (hp : p.isSource = false) (hnamed : (d.join p).IsNamed) :
    (d.join p).isSource = false := by
  obtain ⟨x, hx, hloud, -⟩ := hnamed
  obtain ⟨y, hy⟩ := p.exists_endsIn
  obtain rfl := hx.unique (hy.join d)
  rwa [hx.isSource_eq hy hloud]

/-- A path is a source if its name alone is one. -/
theorem isSource_fileName? {p : Path} {name : String} (h : p.fileName? = some name) :
    (⟨name⟩ : Path).isSource = p.isSource := by
  obtain ⟨hloud, hname⟩ := isLoud_of_fileName? h
  have hends : EndsIn ⟨name⟩ name.toList := ⟨hloud.noSlash, .inl rfl⟩
  refine isSource_congr ?_
  unfold extension?
  rw [h, hends.fileName? hloud hname, String.ofList_toList]

/-- A source is still one when its path is written in normal form. -/
theorem isSource_normalize {p : Path} (h : p.isSource = true) : p.normalize.isSource = true := by
  obtain ⟨ext, hext⟩ : ∃ ext, p.extension? = some ext := by
    cases hext : p.extension? with
    | none => simp [isSource, hext] at h
    | some ext => exact ⟨ext, rfl⟩
  obtain ⟨name, hname, -⟩ := Option.bind_eq_some_iff.mp hext
  have hlast := last?_of_fileName? hname
  obtain ⟨cs, hcs⟩ := List.getLast?_eq_some_iff.mp hlast
  obtain ⟨-, -, -, hcomponents⟩ := p.exists_tidy_normalize
  have hsame : p.normalize.last? = p.last? := by
    rw [hlast]
    unfold last?
    rw [hcomponents, hcs, normalComponents, List.foldl_append]
    simp [normalStep]
  rw [← h]
  refine isSource_congr ?_
  unfold extension? fileName?
  rw [hsame]

end Path

/-! ## Files that are written -/

/-- The script of a file goes beside it, or under its name into some directory. -/
theorem Draft.scriptPath_cases {ω : Type} [FileSystem ω] (w : ω) (p : Path) (r : Resolved) :
    Draft.scriptPath w p r = p.scriptPath ∨ ∃ (dir : Path) (name : String),
      p.scriptPath.fileName? = some name ∧ Draft.scriptPath w p r = dir.child name := by
  unfold Draft.scriptPath
  dsimp only
  cases r.options.text? .outDir with
  | none => exact .inl rfl
  | some dir =>
      cases hname : p.scriptPath.fileName? with
      | none => exact .inl rfl
      | some name => exact .inr ⟨_, name, rfl, rfl⟩

theorem Draft.isSource_of_mem_outputs {script : Path} {options : Options} {code : String}
    {map : Option String} {f : OutputFile} (hf : f ∈ Draft.outputs script options code map)
    (hscript : script.IsNamed → script.isSource = false) (hnamed : f.path.IsNamed) :
    f.path.isSource = false := by
  unfold Draft.outputs at hf
  rcases List.mem_cons.mp hf with rfl | hf
  · exact hscript hnamed
  · split at hf
    · obtain ⟨text, -, rfl⟩ := Option.map_eq_some_iff.mp (Option.mem_toList.mp hf)
      exact isSource_mapPath script
    · cases hf

theorem Program.isSource_of_mem_emit {p : Program} {f : OutputFile} (hf : f ∈ p.emit.files)
    (hnamed : f.path.IsNamed) : f.path.isSource = false := by
  obtain ⟨u, -, hunit⟩ := mem_emit hf
  obtain ⟨-, script, -, hscript, hpath | hpath⟩ := mem_unitFiles hunit
  · rw [hpath] at hnamed ⊢
    unfold scriptPath at hscript
    split at hscript
    · split at hscript
      · rw [← Except.ok.inj hscript] at hnamed ⊢
        exact isSource_join (isSource_scriptPath _) hnamed
      · cases hscript
    · rw [← Except.ok.inj hscript]
      exact isSource_scriptPath _
  · rw [hpath]
    exact isSource_mapPath _

/-- Whatever a target wants written under a name is no source. -/
theorem Finds.isSource_eq_false {compiler : Compiler} {checker : Option Path} {r : CompileRequest}
    {w left : Workstation} {target : CompileTarget} {found : Finding}
    (h : Finds (compiler.engine checker) r w target found left) {f : OutputFile}
    (hf : f ∈ found.files) (hnamed : f.path.IsNamed) : f.path.isSource = false := by
  cases target with
  | file p =>
      rcases h.files_of_file with hnone | ⟨-, resolved, code, map, hfiles⟩
      · rw [hnone] at hf
        cases hf
      · rw [hfiles] at hf
        refine Draft.isSource_of_mem_outputs hf (fun hscript => ?_) hnamed
        rcases Draft.scriptPath_cases w p resolved with heq | ⟨dir, name, hname, heq⟩
        · rw [heq]
          exact isSource_scriptPath p
        · rw [heq] at hscript ⊢
          exact isSource_join ((isSource_fileName? hname).trans (isSource_scriptPath p)) hscript
  | project dir =>
      rcases h.files_of_project with hnone | ⟨-, options, hfiles⟩
      · rw [hnone] at hf
        cases hf
      · exact Program.isSource_of_mem_emit (hfiles ▸ hf) hnamed

/-! ## What stays -/

/-- The last name of a location decides whether it is that of a source. -/
theorem isSource_path_concat {dir : Location} {name : String} (hname : IsLoud name.toList) :
    (Location.path (dir ++ [name])).isSource = (⟨name⟩ : Path).isSource := by
  have hends : EndsIn (Location.path (dir ++ [name])) name.toList := by
    refine ⟨hname.noSlash, .inr ?_⟩
    have hchars : (Location.path (dir ++ [name])).chars =
        '/' :: Text.glue '/' (dir.map String.toList ++ [name.toList]) := by
      have htext : (Location.path (dir ++ [name])).chars =
          ("/" ++ String.intercalate "/" (dir ++ [name])).toList := rfl
      rw [htext, String.toList_append, String.toList_intercalate, Text.glue_eq_intercalate]
      simp
    rw [hchars]
    cases dir with
    | nil => exact ⟨[], rfl⟩
    | cons s dir =>
        rw [Text.glue_concat (by simp)]
        exact ⟨_, (List.cons_append ..).symm⟩
  exact hends.isSource_eq ⟨hname.noSlash, .inl rfl⟩ hname

theorem Writes.contentAt_of_isSource {w w' : Workstation} {fs : List OutputFile}
    (h : Writes w fs w') (hfs : ∀ f ∈ fs, f.path.IsNamed → f.path.isSource = false) {l : Location}
    (hl : l.path.isSource = true) : contentAt w' l = contentAt w l := by
  induction h with
  | nil => rfl
  | @cons w w₁ w' f fs hf _ ih =>
      obtain ⟨hfirst, hfs⟩ := List.forall_mem_cons.mp hfs
      obtain ⟨made, e, he, hplace⟩ := Workstation.exists_isFor_of_writeText hf
      have hne : l ≠ placeOf w f.path := by
        intro heq
        rw [heq, hplace, Disk.Slot.location, isSource_path_concat he.loud,
          ← he.endsIn.isSource_eq ⟨he.loud.noSlash, .inl rfl⟩ he.loud, hfirst he.isNamed] at hl
        cases hl
      exact (ih hfs).trans (contentAt_of_ne hf hne)

theorem Writes.isSource_eq_false {w w' : Workstation} {fs : List OutputFile} (h : Writes w fs w')
    (hfs : ∀ f ∈ fs, f.path.IsNamed → f.path.isSource = false) :
    ∀ f ∈ fs, f.path.isSource = false := by
  induction h with
  | nil => nofun
  | cons hf _ ih =>
      obtain ⟨hfirst, hfs⟩ := List.forall_mem_cons.mp hfs
      obtain ⟨made, e, he, -⟩ := Workstation.exists_isFor_of_writeText hf
      exact List.forall_mem_cons.mpr ⟨hfirst he.isNamed, ih hfs⟩

/-! ## Inputs -/

/-- The file is requested, or it is listed by the configuration of the project that is requested. -/
def CompileRequest.Names (r : CompileRequest) (h : Host) (p : Path) : Prop :=
  r.target = .ok (.file p) ∨ ∃ dir c names, r.target = .ok (.project dir) ∧
    Config.loadWithExtends h (dir.child "tsconfig.json") = .ok c ∧ c.files = some names ∧
    p ∈ (c.listed h names).1

/-- The file is requested, or it is a root file of the project that is requested. -/
def CompileRequest.Reads (r : CompileRequest) (h : Host) (p : Path) : Prop :=
  r.target = .ok (.file p) ∨ ∃ dir, r.target = .ok (.project dir) ∧
    p ∈ (Project.read h (dir.child "tsconfig.json")).fileNames

theorem Config.isSource_of_mem_selected {h : Host} {c : Config} {options : Options} {p : Path}
    (hp : p ∈ c.selected h options) : p.isSource = true := by
  obtain ⟨f, hf, rfl⟩ := List.mem_map.mp hp
  have hf := (List.mem_filter.mp hf).2
  rw [Bool.and_eq_true] at hf
  exact isSource_normalize hf.1

/-- A root file is listed, or it is a source. -/
theorem Project.isSource_of_mem_fileNames {h : Host} {config p : Path}
    (hp : p ∈ (Project.read h config).fileNames) :
    p.isSource = true ∨ ∃ c names, Config.loadWithExtends h config = .ok c ∧ c.files = some names ∧
      p ∈ (c.listed h names).1 := by
  unfold Project.read at hp
  split at hp
  · cases hp
  · rename_i c hload
    rcases Config.of_mem_rootFiles hp with ⟨names, hfiles, hp⟩ | hp
    · exact .inr ⟨c, names, hload, hfiles, hp⟩
    · exact .inl (Config.isSource_of_mem_selected hp)

/-- A compilation writes no path of an input that has a TypeScript extension, and leaves what such an
input holds as it is, unless a link leads to a file without one. Inputs without a TypeScript
extension are named by the request or the configuration. -/
theorem typescript_inputs_are_kept (compiler : Compiler) (checker : Option Path) (r : CompileRequest)
    (w w' : Workstation) (result : Except Failure Compilation)
    (h : Compilation.ofRequest (compiler.engine checker) r w = (result, w')) (p : Path)
    (hp : r.Reads w.host p) :
    (p.isSource = true →
      (∀ c, result = .ok c → ∀ f ∈ c.outputFiles, f.path.same p = false) ∧
      ∀ l, w.host.disk.locate w.host.cwd p = .ok l → l.path.isSource = true →
        w'.host.disk.contentAt l = w.host.disk.contentAt l) ∧
    (p.isSource = false → r.Names w.host p) := by
  refine ⟨fun hsource => ?_, fun hsource => ?_⟩
  · cases result with
    | error failure =>
        refine ⟨nofun, fun l _ _ => ?_⟩
        rw [Compilation.eq_of_ofRequest_error h]
    | ok c =>
        obtain ⟨target, found, left, -, hfinds, hcommit⟩ := Compilation.exists_of_ofRequest h
        obtain ⟨rest, stop, after, hfiles, hwrites, hstops, -⟩ := Draft.commit_eq hcommit
        rw [Finding.files_draft] at hfiles
        have hwritten : ∀ f ∈ c.outputFiles, f.path.IsNamed → f.path.isSource = false :=
          fun f hf => hfinds.isSource_eq_false (hfiles ▸ List.mem_append_left _ hf)
        refine ⟨fun c' hc' f hf => ?_, fun l _ hl => ?_⟩
        · cases hc'
          refine decide_eq_false fun hsame => ?_
          have hextension : f.path.extension? = p.extension? := by
            unfold extension? fileName? last?
            rw [hsame]
          rw [← isSource_congr hextension, hwrites.isSource_eq_false hwritten f hf] at hsource
          cases hsource
        · have hleft := hfinds.sameFiles (Compiler.engine_keepsFiles compiler checker) l
          have hkept := hwrites.contentAt_of_isSource hwritten hl
          exact (hstops.sameFiles l).trans (hkept.trans hleft)
  · rcases hp with hfile | ⟨dir, htarget, hp⟩
    · exact .inl hfile
    · rcases Project.isSource_of_mem_fileNames hp with hp | ⟨c, names, hlisted⟩
      · rw [hsource] at hp
        cases hp
      · exact .inr ⟨dir, c, names, htarget, hlisted⟩

/-- The source of a project is no output, and is left as it is. -/
theorem typescript_inputs_are_kept_of_one :
    let h : Host :=
      { disk := ⟨[(["v"], .dir),
          (["v", "tsconfig.json"], .file (.text "\x7b\"files\": [\"a.ts\"]\x7d") none),
          (["v", "a.ts"], .file (.text "const a: number = 1;\n") none)]⟩ }
    ∃ c w', Compilation.ofRequest (Engine.onHost none) (.ofProject ⟨"/v"⟩) { host := h } =
        (.ok c, w') ∧
      c.outputFiles.map (·.path.text) = ["/v/a.js"] ∧
      (∀ f ∈ c.outputFiles, f.path.same ⟨"/v/a.ts"⟩ = false) ∧
      w'.host.disk.contentAt ["v", "a.ts"] = some (.text "const a: number = 1;\n") := by
  intro h
  have hconfig : (⟨"/v"⟩ : Path).child "tsconfig.json" = ⟨"/v/tsconfig.json"⟩ := by decide +kernel
  have hroot : (⟨"/v/a.ts"⟩ : Path) ∈ (Project.read h ⟨"/v/tsconfig.json"⟩).fileNames := by
    decide +kernel
  have hreads : (CompileRequest.ofProject ⟨"/v"⟩).Reads h ⟨"/v/a.ts"⟩ :=
    .inr ⟨⟨"/v"⟩, rfl, hconfig ▸ hroot⟩
  have hplace : h.disk.locate h.cwd ⟨"/v/a.ts"⟩ = .ok ["v", "a.ts"] :=
    toOption_eq_some.mp (by decide +kernel)
  have hcontent : h.disk.contentAt ["v", "a.ts"] = some (.text "const a: number = 1;\n") := by
    decide +kernel
  have hfiles : (Compilation.ofRequest (Engine.onHost none) (.ofProject ⟨"/v"⟩)
      { host := h }).1.toOption.map (fun c => c.outputFiles.map (·.path.text)) =
      some ["/v/a.js"] := by
    decide +kernel
  obtain ⟨c, w', hresult, hpaths⟩ := exists_ok_of_toOption_map hfiles
  obtain ⟨hkept, -⟩ :=
    typescript_inputs_are_kept .small none _ _ w' (.ok c) hresult ⟨"/v/a.ts"⟩ hreads
  obtain ⟨hdiffer, hsame⟩ := hkept (by decide +kernel)
  exact ⟨c, w', hresult, hpaths, hdiffer c rfl, (hsame _ hplace (by decide +kernel)).trans hcontent⟩

/-- A requested or listed file that is named like a script is overwritten by its own script, and so is a
source that is a link to such a file. -/
theorem inputs_named_like_scripts_are_overwritten :
    let config : Location × Node :=
      (["v", "tsconfig.json"], .file (.text "\x7b\"files\": [\"a.js\"]\x7d") none)
    let script : Location × Node := (["v", "a.js"], .file (.text "const a: number = 1;\n") none)
    let after := fun (h : Host) (r : CompileRequest) =>
      let result := Compilation.ofRequest (Engine.onHost none) r { host := h }
      (result.1.toOption.map fun c => c.outputFiles.map (·.path.text),
        result.2.host.disk.contentAt ["v", "a.js"])
    after { disk := ⟨[(["v"], .dir), script]⟩ } (.ofFile ⟨"/v/a.js"⟩) =
        (some ["/v/a.js"], some (.text "const a = 1;\n")) ∧
      after { disk := ⟨[(["v"], .dir), config, script]⟩ } (.ofProject ⟨"/v"⟩) =
        (some ["/v/a.js"], some (.text "const a = 1;\n")) ∧
      after { disk := ⟨[(["v"], .dir), script, (["v", "a.ts"], .link ⟨"a.js"⟩)]⟩ }
          (.ofFile ⟨"/v/a.ts"⟩) =
        (some ["/v/a.js"], some (.text "const a = 1;\n")) := by
  decide +kernel

end ScriptWorks
