import ScriptWorks.Small.Compiler
import ScriptWorks.Proofs.Compilation.Inputs
import ScriptWorks.Proofs.Config.Own
import ScriptWorks.Proofs.Resolution
import ScriptWorks.Proofs.Resolution.Nearest

/-!
# Where the script of a file goes

The output directory of a configuration is seen from the directory of the configuration twice: once
when the configuration is loaded, and once more when the script is placed. The second time does nothing
if the first has made the directory absolute, as it does for an absolute source.
-/

namespace ScriptWorks

/-! ## Parents -/

namespace Path

variable {p q : Path} {x : List Char}

theorem EndsIn.isEmpty_eq_false (hp : EndsIn p x) (hx : IsLoud x) : p.isEmpty = false := by
  refine Bool.eq_false_iff.mpr fun hempty => ?_
  have hnil : p.chars = [] := String.toList_eq_nil_iff.mpr (String.isEmpty_iff.mp hempty)
  rcases hp.eq with heq | ⟨pre, heq⟩
  · exact hx.ne_nil (heq.symm.trans hnil)
  · simp [hnil] at heq

/-- The parent of a path has its trail but for the last piece. -/
theorem EndsIn.exists_trail (hp : EndsIn p x) (hx : IsLoud x) :
    ∃ q, p.parent? = some q ∧ q.isAbsolute = p.isAbsolute ∧
      ∀ h : Host, h.trail p = h.trail q ++ [componentOf x] := by
  obtain ⟨q, hq, habove, hcomponents⟩ := hp.exists_parent hx
  refine ⟨q, hq, habove.isAbsolute, fun h => ?_⟩
  unfold Host.trail
  rw [habove.isAbsolute, hcomponents]
  split
  · rfl
  · simp [componentOf_ne_here]

theorem resolveFrom_dirOf (p : Path) (l : Location) :
    (Config.dirOf p).resolveFrom l = (p.parent?.getD ⟨""⟩).resolveFrom l := by
  unfold Config.dirOf
  cases p.parent? with
  | none => rfl
  | some q =>
      dsimp only
      split
      case isTrue hq =>
        have hempty : q = ⟨""⟩ := congrArg Path.mk (String.isEmpty_iff.mp hq)
        rw [hempty]
        rfl
      case isFalse => rfl

theorem EndsIn.isAbsolute_dirOf (hp : EndsIn p x) (hx : IsLoud x) (habs : p.isAbsolute = true) :
    (Config.dirOf p).isAbsolute = true := by
  obtain ⟨q, hq, hqabs, -⟩ := hp.exists_trail hx
  have hqabs := hqabs.trans habs
  simp [Config.dirOf, hq, isEmpty_of_isAbsolute hqabs, hqabs]

theorem resolveFrom_name {name : String} (hloud : IsLoud name.toList) (hname : name.toList ≠ up)
    (l : Location) : (⟨name⟩ : Path).resolveFrom l = l ++ [name] := by
  have hp : Tidy ⟨name⟩ false [name.toList] :=
    ⟨chars_inj.mp (chars_ofChars _).symm, by simpa using hloud⟩
  unfold resolveFrom
  rw [hp.components]
  simp [rootPart, componentOf_of_ne hname, resolveStep]

end Path

/-! ## The script of a file -/

variable {compiler : Compiler} {checker : Option Path} {w w' : Workstation} {p config : Path}
  {result : Compilation} {f : OutputFile} {text raw : String} {c : Config}

theorem Compilation.exists_script {r : CompileRequest} {path : String}
    (h : (ofRequest (compiler.engine checker) r w).1.toOption.bind
      (fun c => c.outputFiles.head?.map (·.path.text)) = some path) :
    ∃ result w' f, ofRequest (compiler.engine checker) r w = (.ok result, w') ∧
      result.outputFiles.head? = some f ∧ f.path = ⟨path⟩ := by
  obtain ⟨result, hresult, h⟩ := Option.bind_eq_some_iff.mp h
  obtain ⟨f, hf, rfl⟩ := Option.map_eq_some_iff.mp h
  exact ⟨result, _, f, eq_ok_of_toOption hresult, hf, rfl⟩

/-- What a file request writes first is its script. -/
theorem Compilation.script_of_ofRequest
    (h : ofRequest (compiler.engine checker) (.ofFile p) w = (.ok result, w'))
    (hf : result.outputFiles.head? = some f) :
    w.host.isFile p = true ∧ ((compiler.engine checker).resolve w p {}).diagnostics = [] ∧
      f.path = Draft.scriptPath w p ((compiler.engine checker).resolve w p {}) ∧ f.path.IsNamed := by
  obtain ⟨target, found, left, htarget, hfinds, hcommit⟩ := Compilation.exists_of_ofRequest h
  obtain ⟨rest, stop, after, hfiles, hwrites, -⟩ := Draft.commit_eq hcommit
  obtain ⟨others, houtputs⟩ := List.head?_eq_some_iff.mp hf
  rw [Finding.files_draft, houtputs, List.cons_append] at hfiles
  have hnamed : f.path.IsNamed := by
    rw [houtputs] at hwrites
    cases hwrites with
    | cons hwrite _ =>
        obtain ⟨made, e, he, -⟩ := Workstation.exists_isFor_of_writeText hwrite
        exact he.isNamed
  cases htarget
  have hoverrides : (CompileRequest.ofFile p).overrides (FileSystem.host w) = {} := rfl
  cases hfinds with
  | fileMisconfigured | fileBroken | noScript => cases hfiles
  | transpiled hfile hresolved hgood _ _ _ =>
      rw [hoverrides] at hresolved
      subst hresolved
      exact ⟨hfile, hgood, congrArg OutputFile.path (List.cons.inj hfiles.symm).1, hnamed⟩

/-- The script goes where the output directory leads to, as it is loaded, from the directory of the
configuration. -/
theorem Compilation.script_place
    (h : ofRequest (compiler.engine checker) (.ofFile p) w = (.ok result, w'))
    (hf : result.outputFiles.head? = some f)
    (hconfig : (compiler.engine checker).findConfig w p = some config)
    (hread : w.host.readText config = .ok text) (hparse : Config.parse text = .ok c)
    (hout : Dict.get? c.compilerOptions "outDir" = some (.str raw)) (cwd : Location) :
    ∃ name, p.scriptPath.fileName? = some name ∧ f.path.resolveFrom cwd =
      ((Config.dirOf config).join ⟨raw⟩).normalize.resolveFrom
        ((Config.dirOf config).resolveFrom cwd) ++ [name] := by
  obtain ⟨-, hgood, hpath, hnamed⟩ := script_of_ofRequest h hf
  have hresolve : (compiler.engine checker).resolve w p {} =
      (compiler.engine checker).resolveWith w config {} := by
    simp only [Engine.resolve, hconfig]
  have hown : Config.ownOption CompilerOption.outDir.name (config, c) =
      some (.str ((Config.dirOf config).join ⟨raw⟩).normalize.text) := by
    simp [Config.ownOption, hout, CompilerOption.name]
  rw [hresolve] at hgood hpath
  have htext := Compiler.text?_resolveWith hread hparse rfl hown .empty rfl hgood
  have hconfigPath : ((compiler.engine checker).resolveWith w config {}).configPath = some config := by
    simp only [Engine.resolveWith, Resolved.ofProject]
  cases hname : p.scriptPath.fileName? with
  | none =>
      -- a script without a name cannot be written
      obtain ⟨x, hx, hloud, hup⟩ := hnamed
      rcases Draft.scriptPath_cases w p
        ((compiler.engine checker).resolveWith w config {}) with hscript | ⟨_, _, hsome, -⟩
      case inr =>
        rw [hname] at hsome
        cases hsome
      rw [hpath, hscript] at hx
      rw [hx.fileName? hloud hup] at hname
      cases hname
  | some name =>
      obtain ⟨hloud, hup⟩ := Path.isLoud_of_fileName? hname
      refine ⟨name, rfl, ?_⟩
      rw [hpath]
      simp only [Draft.scriptPath, htext, hname, hconfigPath]
      rw [Path.child, Path.resolveFrom_join, Path.resolveFrom_name hloud hup, Path.resolveFrom_join,
        Path.resolveFrom_dirOf]

/-! ## The configuration of a file -/

theorem Host.trail_searchStart (hfile : w.host.isFile p = true) :
    ∃ c, w.host.trail p = w.host.trail (searchStart w p) ++ [c] ∧
      (searchStart w p).isAbsolute = p.isAbsolute := by
  obtain ⟨x, hx, hloud⟩ := endsIn_of_isFile hfile
  obtain ⟨q, hq, habs, htrail⟩ := hx.exists_trail hloud
  have hstart : searchStart w p = q := by
    have hisFile : FileSystem.isFile w p = true := hfile
    simp [searchStart, hisFile, hq]
  rw [hstart]
  exact ⟨_, htrail w.host, habs⟩

theorem Host.resolveFrom_dirOf_eq {h : Host} {other : Path} {x : List Char} (hx : Path.IsLoud x)
    (hconfig : config.EndsIn x) (hother : other.EndsIn x) (htrail : h.trail other = h.trail config) :
    (Config.dirOf other).resolveFrom h.cwd = (Config.dirOf config).resolveFrom h.cwd := by
  obtain ⟨q, hq, -, hqtrail⟩ := hconfig.exists_trail hx
  obtain ⟨r, hr, -, hrtrail⟩ := hother.exists_trail hx
  have hsame : h.trail r = h.trail q := by
    rw [hqtrail h, hrtrail h] at htrail
    exact List.append_cancel_right htrail
  rw [Path.resolveFrom_dirOf, Path.resolveFrom_dirOf, hq, hr, Option.getD_some, Option.getD_some,
    resolveFrom_eq_trail, resolveFrom_eq_trail, hsame]

/-- If both spellings of a file are taken by the system, the same configuration is found for both. -/
theorem Engine.exists_findConfig_absolute (hcwd : w.host.Stands) (hfile : w.host.isFile p = true)
    (hfileFar : w.host.isFile (w.host.absolute p) = true)
    (hnear : Disk.checkPath ((searchStart w p).child "tsconfig.json") = .ok ())
    (hfar : Disk.checkPath ((searchStart w (w.host.absolute p)).child "tsconfig.json") = .ok ())
    (hconfig : (compiler.engine checker).findConfig w p = some config) :
    ∃ other, (compiler.engine checker).findConfig w (w.host.absolute p) = some other ∧
      (Config.dirOf other).isAbsolute = true ∧
      w.host.readText other = w.host.readText config ∧
      (Config.dirOf other).resolveFrom w.host.cwd =
        (Config.dirOf config).resolveFrom w.host.cwd := by
  have hname : Path.IsLoud "tsconfig.json".toList := ⟨by decide, by decide⟩
  have hne : p.isEmpty = false := by
    obtain ⟨x, hx, hloud⟩ := Host.endsIn_of_isFile hfile
    exact hx.isEmpty_eq_false hloud
  obtain ⟨c, htrail, -⟩ := Host.trail_searchStart hfile
  obtain ⟨d, htrailFar, habs⟩ := Host.trail_searchStart hfileFar
  rw [Host.isAbsolute_absolute hcwd hne] at habs
  rw [Host.trail_absolute hcwd hne, htrail] at htrailFar
  have hcomponents : (searchStart w (w.host.absolute p)).components =
      w.host.trail (searchStart w (w.host.absolute p)) := by
    rw [Host.trail, if_pos habs]
  have hroot : w.host.Sees (searchStart w p) (searchStart w (w.host.absolute p)) :=
    ⟨habs, hcomponents.trans (List.append_inj_left' htrailFar rfl).symm⟩
  have hrootFar : w.host.Sees (searchStart w (w.host.absolute p))
      (searchStart w (w.host.absolute p)) := ⟨habs, hcomponents⟩
  obtain ⟨dir, hclosest, hdir⟩ :=
    (compiler.engine checker).closest_of_findConfig hcwd hname hroot hnear hfar hconfig
  cases hother : (compiler.engine checker).findConfig w (w.host.absolute p) with
  | none =>
      have hnot := (compiler.engine checker).not_held_of_findConfig hcwd hname hrootFar hfar hfar hother
        hclosest.mem (.inl habs)
      rw [hclosest.isFile] at hnot
      cases hnot
  | some other =>
      obtain ⟨dir', hclosest', hdir'⟩ :=
        (compiler.engine checker).closest_of_findConfig hcwd hname hrootFar hfar hfar hother
      have hsame : w.host.trail other = w.host.trail config := by
        have hchild : ∀ q : Path, (q.child (compiler.engine checker).configFileName).components =
            q.components ++ [Path.componentOf "tsconfig.json".toList] := Path.components_child hname
        rw [hdir, hdir', hchild, hchild, hclosest.components_eq hclosest']
      obtain ⟨a, ha, rfl, -⟩ := Engine.findConfig_eq_some hconfig
      obtain ⟨b, hb, rfl, -⟩ := Engine.findConfig_eq_some hother
      have hbabove := Path.above_of_mem_ancestors hb
      refine ⟨_, rfl, ?_, ?_, ?_⟩
      · exact (Path.endsIn_child hname b).isAbsolute_dirOf hname
          ((Path.isAbsolute_child hname b).trans (hbabove.isAbsolute.trans habs))
      · exact Host.readText_eq_of_trail hcwd hname (Path.endsIn_child hname b)
          (hbabove.checkPath_child hname hfar) (Path.endsIn_child hname a)
          ((Path.above_of_mem_ancestors ha).checkPath_child hname hnear) hsame
      · exact Host.resolveFrom_dirOf_eq hname (Path.endsIn_child hname a) (Path.endsIn_child hname b)
          hsame

/-- Both spellings of a file put its script under one name into directories that are seen from that of
the configuration: the absolute one where the output directory leads to from there, the relative one
where it leads to when it is seen from there once more. These are one directory if the output directory
is absolute, or the configuration stands in the working directory and the normal form of the output
directory leads where it should. -/
theorem script_places_of_spellings {far : Compilation} {g : OutputFile} {wfar : Workstation}
    (hcwd : w.host.Stands)
    (hnear : Disk.checkPath ((searchStart w p).child "tsconfig.json") = .ok ())
    (hfar : Disk.checkPath ((searchStart w (w.host.absolute p)).child "tsconfig.json") = .ok ())
    (hconfig : (compiler.engine checker).findConfig w p = some config)
    (hread : w.host.readText config = .ok text) (hparse : Config.parse text = .ok c)
    (hout : Dict.get? c.compilerOptions "outDir" = some (.str raw))
    (hresult : Compilation.ofRequest (compiler.engine checker) (.ofFile p) w = (.ok result, w'))
    (hresultFar : Compilation.ofRequest (compiler.engine checker) (.ofFile (w.host.absolute p)) w =
      (.ok far, wfar))
    (hf : result.outputFiles.head? = some f) (hg : far.outputFiles.head? = some g) :
    let cwd := w.host.cwd
    let dir := (Config.dirOf config).resolveFrom cwd
    let loaded := ((Config.dirOf config).join ⟨raw⟩).normalize
    (∃ name, f.path.resolveFrom cwd = loaded.resolveFrom dir ++ [name] ∧
      g.path.resolveFrom cwd = (⟨raw⟩ : Path).resolveFrom dir ++ [name]) ∧
    ((⟨raw⟩ : Path).isAbsolute = true ∨ (dir = cwd ∧
        loaded.resolveFrom cwd = ((Config.dirOf config).join ⟨raw⟩).resolveFrom cwd) →
      f.path.resolveFrom cwd = g.path.resolveFrom cwd) := by
  intro cwd dir loaded
  obtain ⟨hfile, -⟩ := Compilation.script_of_ofRequest hresult hf
  obtain ⟨hfileFar, -⟩ := Compilation.script_of_ofRequest hresultFar hg
  obtain ⟨other, hother, habs, hsameText, hsameDir⟩ :=
    Engine.exists_findConfig_absolute hcwd hfile hfileFar hnear hfar hconfig
  obtain ⟨name, hname, hplace⟩ :=
    Compilation.script_place hresult hf hconfig hread hparse hout cwd
  obtain ⟨name', hname', hplaceFar⟩ := Compilation.script_place hresultFar hg hother
    (hsameText.trans hread) hparse hout cwd
  obtain ⟨x, hx, hloud⟩ := Host.endsIn_of_isFile hfile
  have hxFar : (w.host.absolute p).EndsIn x := by
    obtain ⟨y, hy, hyloud⟩ := Host.endsIn_of_isFile hfileFar
    have hlast := hy.last? hyloud
    rw [Path.last?, Host.components_absolute hcwd (hx.isEmpty_eq_false hloud)] at hlast
    obtain ⟨q, -, -, htrail⟩ := hx.exists_trail hloud
    rw [htrail, List.getLast?_concat, Option.some.injEq, Path.componentOf_inj] at hlast
    exact hlast ▸ hy
  have hnames : name' = name := by
    rw [hxFar.fileName?_scriptPath hx hloud, hname] at hname'
    exact (Option.some.inj hname').symm
  rw [hnames] at hplaceFar
  have hjoined : ((Config.dirOf other).join ⟨raw⟩).isAbsolute = true :=
    Path.isAbsolute_join habs _
  rw [Path.resolveFrom_normalize hjoined, Path.resolveFrom_join,
    Path.resolveFrom_of_isAbsolute habs _ w.host.cwd,
    hsameDir] at hplaceFar
  refine ⟨⟨name, hplace, hplaceFar⟩, fun hwhen => ?_⟩
  have hdirs : loaded.resolveFrom dir = (⟨raw⟩ : Path).resolveFrom dir := by
    rcases hwhen with hraw | ⟨hdir, hloaded⟩
    · have hjoin : (Config.dirOf config).join ⟨raw⟩ = ⟨raw⟩ := Path.join_of_isAbsolute hraw
      simp only [loaded, hjoin]
      exact Path.resolveFrom_normalize hraw dir
    · rw [hdir, hloaded, Path.resolveFrom_join]
      exact congrArg (Path.resolveFrom · ⟨raw⟩) hdir
  exact hplace.trans ((congrArg (· ++ [name]) hdirs).trans hplaceFar.symm)

/-- A configuration in the working directory, above the source. -/
theorem script_places_of_spellings_of_one :
    let text :=
      "\x7b\"compilerOptions\": \x7b\"outDir\": \"./dist\"\x7d, \"files\": [\"lib/a.ts\"]\x7d"
    let w : Workstation :=
      { host :=
        { cwd := ["v"]
          disk := ⟨[(["v"], .dir), (["v", "lib"], .dir),
            (["v", "tsconfig.json"], .file (.text text) none),
            (["v", "lib", "a.ts"], .file (.text "const a: number = 1;\n") none)]⟩ } }
    ∃ near w' f far wfar g,
      Compilation.ofRequest (Engine.onHost none) (.ofFile ⟨"lib/a.ts"⟩) w = (.ok near, w') ∧
      Compilation.ofRequest (Engine.onHost none) (.ofFile ⟨"/v/lib/a.ts"⟩) w = (.ok far, wfar) ∧
      near.outputFiles.head? = some f ∧ far.outputFiles.head? = some g ∧
      f.path = ⟨"dist/a.js"⟩ ∧ g.path = ⟨"/v/dist/a.js"⟩ ∧
      f.path.resolveFrom ["v"] = g.path.resolveFrom ["v"] := by
  intro text w
  have hcwd : w.host.Stands := Host.stands_iff.mpr (by decide +kernel)
  have habsolute : w.host.absolute ⟨"lib/a.ts"⟩ = ⟨"/v/lib/a.ts"⟩ := by decide +kernel
  have hconfig : (Engine.onHost none).findConfig w ⟨"lib/a.ts"⟩ = some ⟨"tsconfig.json"⟩ := by
    decide +kernel
  have hread : w.host.readText ⟨"tsconfig.json"⟩ = .ok text :=
    toOption_eq_some.mp (by decide +kernel)
  have hout : (Config.parse text).toOption.bind (fun c =>
      (Dict.get? c.compilerOptions "outDir").bind Json.asString?) = some "./dist" := by
    decide +kernel
  obtain ⟨c, hparse, hout⟩ := Option.bind_eq_some_iff.mp hout
  obtain ⟨v, hget, hv⟩ := Option.bind_eq_some_iff.mp hout
  have hraw : v = .str "./dist" := by
    cases v <;> cases hv
    rfl
  obtain ⟨near, w', f, hnear, hf, hfpath⟩ :=
    @Compilation.exists_script .small none w (.ofFile ⟨"lib/a.ts"⟩) "dist/a.js" (by decide +kernel)
  obtain ⟨far, wfar, g, hfar, hg, hgpath⟩ :=
    @Compilation.exists_script .small none w (.ofFile ⟨"/v/lib/a.ts"⟩) "/v/dist/a.js"
      (by decide +kernel)
  refine ⟨near, w', f, far, wfar, g, hnear, hfar, hf, hg, hfpath, hgpath, ?_⟩
  obtain ⟨-, hsame⟩ := script_places_of_spellings hcwd (by decide +kernel)
    (by decide +kernel) hconfig hread (toOption_eq_some.mp hparse) (hraw ▸ hget) hnear
    (habsolute.symm ▸ hfar) hf hg
  exact hsame (.inr (by decide +kernel))

/-- A configuration below the working directory: the directory that it stands in is put before the
output directory twice. -/
theorem scripts_of_spellings_differ :
    let w : Workstation :=
      { host :=
        { cwd := ["v"]
          disk := ⟨[(["v"], .dir), (["v", "app"], .dir),
            (["v", "app", "tsconfig.json"],
              .file (.text "\x7b\"compilerOptions\": \x7b\"outDir\": \"dist\"\x7d, \"files\": [\"a.ts\"]\x7d") none),
            (["v", "app", "a.ts"], .file (.text "const a: number = 1;\n") none)]⟩ } }
    let script := fun (p : Path) =>
      (Compilation.ofRequest (Engine.onHost none) (.ofFile p) w).1.toOption.bind fun c =>
        c.outputFiles.head?.map fun f => (f.path.text, f.path.resolveFrom w.host.cwd)
    script ⟨"app/a.ts"⟩ = some ("app/app/dist/a.js", ["v", "app", "app", "dist", "a.js"]) ∧
      script (w.host.absolute ⟨"app/a.ts"⟩) =
        some ("/v/app/dist/a.js", ["v", "app", "dist", "a.js"]) := by
  decide +kernel

end ScriptWorks
