import ScriptWorks.Proofs.Checking
import ScriptWorks.Proofs.Compilation.Inputs
import ScriptWorks.Proofs.Compilation.Preparing
import ScriptWorks.Proofs.FileSystem.Key

/-!
# One file under two paths

Two paths that name one entry of a directory are compiled alike, as long as their configurations say the
same and no source map names the source. What is reported differs in the names of files only.
-/

namespace ScriptWorks

/-! ## What is the same -/

/-- A problem without its file and its message, in which files may be named. -/
def Problem.unnamed (p : Problem) : Problem := { p with file := "", message := "" }

theorem hasErrors_map_unnamed (ps : List Problem) :
    hasErrors (ps.map Problem.unnamed) = hasErrors ps := by
  unfold hasErrors
  rw [List.any_map]
  rfl

namespace Compilation

/-- The same success, the same codes, severities and places of problems, and the same texts written to
the same places. -/
structure Agrees (h : Host) (a b : Compilation) : Prop where
  success : a.success = b.success
  diagnostics : a.diagnostics.map Problem.unnamed = b.diagnostics.map Problem.unnamed
  outputFiles : a.outputFiles.map (fun f => (h.disk.target h.cwd f.path, f.content)) =
    b.outputFiles.map fun f => (h.disk.target h.cwd f.path, f.content)

/-- Compilations that agree, or one reason why there are none. -/
inductive SameOutcome (h : Host) :
    Except Failure Compilation → Except Failure Compilation → Prop
  | compiled {a b : Compilation} : a.Agrees h b → SameOutcome h (.ok a) (.ok b)
  | invalid {fault : RequestFault} :
      SameOutcome h (.error (.invalidRequest fault)) (.error (.invalidRequest fault))
  | unreadable {p q : Path} {cause : FileError} :
      SameOutcome h (.error (.io p cause)) (.error (.io q cause))

end Compilation

/-- The same options, and diagnostics of the same codes, severities and places. -/
structure Resolved.Agrees (tag : String) (a b : Resolved) : Prop where
  options : a.options = b.options
  diagnostics : (a.diagnostics.map (Problem.ofDiagnostic tag)).map Problem.unnamed =
    (b.diagnostics.map (Problem.ofDiagnostic tag)).map Problem.unnamed
  /-- An output directory is one directory for both. -/
  outDir : ∀ dir, b.options.text? .outDir = some dir →
    (⟨dir⟩ : Path).isAbsolute = true ∧ a.configPath.isSome = b.configPath.isSome

theorem Resolved.agrees_self {tag : String} {a : Resolved}
    (h : ∀ dir, a.options.text? .outDir = some dir → (⟨dir⟩ : Path).isAbsolute = true) :
    a.Agrees tag a :=
  ⟨rfl, rfl, fun dir hdir => ⟨h dir hdir, rfl⟩⟩

theorem Resolved.Agrees.hasErrors_eq {tag : String} {a b : Resolved} (h : a.Agrees tag b) :
    a.hasErrors = b.hasErrors := by
  have hnil : a.diagnostics = [] ↔ b.diagnostics = [] := by
    have hempty := congrArg (· = []) h.diagnostics
    simpa using hempty
  rw [Bool.eq_iff_iff, hasErrors_eq_true, hasErrors_eq_true, Ne, Ne, hnil]

/-! ## Sources -/

/-- A compiler for which files of one name are alike, whatever directories they are in. Only source maps
may tell them apart. -/
structure Compiler.IgnoresDirectories (compiler : Compiler) : Prop where
  read : ∀ (p q : Path), p.fileName? = q.fileName? → ∀ source dialect level,
    compiler.read ⟨p.text, source⟩ dialect level = compiler.read ⟨q.text, source⟩ dialect level
  print : ∀ (p q : Path), p.fileName? = q.fileName? → ∀ source m level,
    (compiler.print ⟨p.text, source⟩ m level false).map Prod.fst =
      (compiler.print ⟨q.text, source⟩ m level false).map Prod.fst

variable {p q : Path} {x : List Char}

namespace Script

theorem dialectOf_eq (hp : p.EndsIn x) (hq : q.EndsIn x) (hx : Path.IsLoud x) :
    dialectOf p.text = dialectOf q.text := by
  have helements : ".tsx".toList.isSuffixOf p.text.toList = ".tsx".toList.isSuffixOf q.text.toList := by
    rw [Bool.eq_iff_iff, List.isSuffixOf_iff_suffix, List.isSuffixOf_iff_suffix,
      hp.suffix_iff (by decide), hq.suffix_iff (by decide)]
  unfold dialectOf
  rw [helements]
  exact congrArg (Dialect.mk _) (hp.isDeclaration_eq hq hx)

/-- What is said of one source under two names differs in the names only. -/
theorem unnamed_diagnostics {α : Type} (tag name name' source : String) (r : Reading α) :
    ((r.diagnostics ⟨name, source⟩).map (Problem.ofDiagnostic tag)).map Problem.unnamed =
      ((r.diagnostics ⟨name', source⟩).map (Problem.ofDiagnostic tag)).map Problem.unnamed := by
  unfold Reading.diagnostics
  simp only [List.map_map]
  rfl

end Script

namespace Compiler.IgnoresDirectories

open Script

variable {compiler : Compiler} (hc : compiler.IgnoresDirectories)

include hc

theorem readFile_eq (hp : p.EndsIn x) (hq : q.EndsIn x) (hx : Path.IsLoud x) (source : String)
    (level : LanguageLevel) :
    compiler.readFile ⟨p.text, source⟩ level = compiler.readFile ⟨q.text, source⟩ level := by
  unfold readFile
  dsimp only
  rw [dialectOf_eq hp hq hx]
  exact hc.read p q (hp.fileName?_eq hq hx) _ _ _

/-- Without a source map, what is written depends on what is printed only. -/
theorem write_eq (hname : p.fileName? = q.fileName?) (source : String) (m : compiler.Module)
    (level : LanguageLevel) :
    compiler.write ⟨p.text, source⟩ m level false = compiler.write ⟨q.text, source⟩ m level false := by
  unfold write
  cases compiler.strip m with
  | none => rfl
  | some m =>
      have hprint := hc.print p q hname source m level
      dsimp only
      generalize compiler.print ⟨p.text, source⟩ m level false = a at hprint ⊢
      generalize compiler.print ⟨q.text, source⟩ m level false = b at hprint ⊢
      rcases a with reason | ⟨printed, mappings⟩ <;> rcases b with reason' | ⟨printed', mappings'⟩
      case error.error =>
        obtain rfl := Except.error.inj hprint
        rfl
      case ok.ok =>
        obtain rfl : printed = printed' := Except.ok.inj hprint
        rfl
      case error.ok | ok.error => cases hprint

/-- A source without a source map becomes one script whatever its directory is, and what is said of it
differs in its name only. -/
theorem transpile_eq (hp : p.EndsIn x) (hq : q.EndsIn x) (hx : Path.IsLoud x) (source : String)
    {options : Options} (hmap : options.isOn .sourceMap = false) (tag : String) :
    let t := compiler.transpile source p.text options
    let t' := compiler.transpile source q.text options
    t.code = t'.code ∧
      (t.diagnostics.map (Problem.ofDiagnostic tag)).map Problem.unnamed =
        (t'.diagnostics.map (Problem.ofDiagnostic tag)).map Problem.unnamed := by
  unfold transpile
  dsimp only
  rw [hc.readFile_eq hp hq hx, hmap]
  generalize compiler.readFile ⟨q.text, source⟩ (levelOf options) = reading
  have hsaid := unnamed_diagnostics tag p.text q.text source reading
  cases reading.result with
  | error f => exact ⟨rfl, hsaid⟩
  | ok m =>
      dsimp only
      rw [hc.write_eq (hp.fileName?_eq hq hx)]
      cases hwrite : compiler.write ⟨q.text, source⟩ m (levelOf options) false with
      | error reason => exact ⟨rfl, by simp only [List.map_append, hsaid]⟩
      | ok script =>
          -- no map is written
          rcases script with ⟨code, _ | map⟩
          · exact ⟨rfl, hsaid⟩
          · cases isSome_of_write hwrite

end Compiler.IgnoresDirectories

/-! ## Engines on disks -/

/-- Files are those of the host, and a source is transpiled by the compiler. -/
structure Engine.IsOnDisk {ω π : Type} [FileSystem ω] (e : Engine ω π) (compiler : Compiler) :
    Prop where
  isFile : ∀ (w : ω) p, FileSystem.isFile w p = (FileSystem.host w).isFile p
  readText : ∀ (w : ω) p, FileSystem.readText w p = (FileSystem.host w).readText p
  writeText : ∀ (w : ω) p q s,
    FileSystem.writeText (FileSystem.host w) p s = FileSystem.writeText (FileSystem.host w) q s →
      FileSystem.writeText w p s = FileSystem.writeText w q s
  transpile : ∀ source fileName options,
    e.transpile source fileName options = pure (compiler.transpile source fileName options)

theorem Compiler.engine_isOnDisk (compiler : Compiler) (checker : Option Path) :
    (compiler.engine checker).IsOnDisk compiler where
  isFile _ _ := rfl
  readText _ _ := rfl
  writeText w p q s h := by
    have hwrite : ∀ r : Path, FileSystem.writeText w r s = ((FileSystem.writeText w.host r s).1,
      { w with host := (FileSystem.writeText w.host r s).2 }) := fun _ => rfl
    have h : FileSystem.writeText w.host p s = FileSystem.writeText w.host q s := h
    rw [hwrite, hwrite, h]
  transpile _ _ _ := rfl

variable {ω π : Type} [FileSystem ω] {e : Engine ω π} {compiler : Compiler} {w : ω} {dir : Location}

/-! ## Places of scripts -/

/-- Scripts go beside their sources, or they have one path. -/
theorem Draft.scriptPath_eq_or {a b : Resolved} {tag : String} (hagree : a.Agrees tag b)
    (hname : p.scriptPath.fileName? = q.scriptPath.fileName?) :
    scriptPath w p a = p.scriptPath ∧ scriptPath w q b = q.scriptPath ∨
      scriptPath w p a = scriptPath w q b := by
  unfold scriptPath
  rw [hagree.options]
  dsimp only
  rw [hname]
  cases hout : b.options.text? .outDir with
  | none => exact .inl ⟨rfl, rfl⟩
  | some out =>
      cases q.scriptPath.fileName? with
      | none => exact .inl ⟨rfl, rfl⟩
      | some name =>
          obtain ⟨habs, hconfig⟩ := hagree.outDir out hout
          refine .inr (congrArg (Path.child · name) ?_)
          cases ha : a.configPath <;> cases hb : b.configPath <;> simp [ha, hb] at hconfig
          · rfl
          · dsimp only
            rw [Path.join_of_isAbsolute habs, Path.join_of_isAbsolute habs]

/-- Texts that are written to the one path or the other go to one place. -/
def SamePlace (w : ω) (p q : Path) : Prop :=
  let h := FileSystem.host w
  h.disk.target h.cwd p = h.disk.target h.cwd q ∧
    ∀ s, FileSystem.writeText w p s = FileSystem.writeText w q s

theorem Draft.samePlace_scriptPath (he : e.IsOnDisk compiler) {a b : Resolved}
    (hagree : a.Agrees e.tag b)
    (hp : (FileSystem.host w).NamesIn dir p x) (hq : (FileSystem.host w).NamesIn dir q x)
    (hpscript : Disk.checkPath p.scriptPath = .ok ())
    (hqscript : Disk.checkPath q.scriptPath = .ok ()) :
    SamePlace w (scriptPath w p a) (scriptPath w q b) := by
  rcases scriptPath_eq_or (w := w) hagree (hp.endsIn.fileName?_scriptPath hq.endsIn hp.loud) with
    ⟨hpath, hpath'⟩ | hpath
  · have hnear := hp.beside (hp.endsIn.beside_scriptPath hp.loud) hpscript
    have hfar := hq.beside (hq.endsIn.beside_scriptPath hq.loud) hqscript
    rw [hpath, hpath']
    exact ⟨hnear.target_eq hfar, fun s => he.writeText w _ _ s (hnear.writeText_eq hfar s)⟩
  · rw [hpath]
    exact ⟨rfl, fun s => rfl⟩

/-! ## Compilations of files -/

namespace Draft

variable {r : CompileRequest}

/-- The draft of a transpiled source. -/
def ofTranspiled (tag : String) (script : Path) (options : Options) (t : Transpiled) : Draft :=
  let diagnostics := t.diagnostics.map (Problem.ofDiagnostic tag)
  match t.code with
  | none => failed diagnostics
  | some code => { diagnostics, files := outputs script options code t.sourceMap }

theorem prepare_file (he : e.IsOnDisk compiler) (hfile : (FileSystem.host w).isFile p = true) :
    let resolved := e.resolve w p (r.overrides (FileSystem.host w))
    prepare e r (.file p) w =
      (if resolved.hasErrors then .ok (failed (resolved.diagnostics.map (Problem.ofDiagnostic e.tag)))
      else
        match (FileSystem.host w).readText p with
        | .error cause => .error (.io p cause)
        | .ok source => .ok (ofTranspiled e.tag (scriptPath w p resolved) resolved.options
            (compiler.transpile source p.text resolved.options)), w) := by
  intro resolved
  have hresolved : e.resolve w p (r.overrides (FileSystem.host w)) = resolved := rfl
  unfold prepare ofFile
  simp only [Work.run_get_bind, he.isFile, hfile, hresolved, he.readText, he.transpile, Bool.not_true,
    Bool.false_eq_true, if_false]
  cases resolved.hasErrors with
  | true => rfl
  | false =>
      cases (FileSystem.host w).readText p with
      | error cause => rfl
      | ok source =>
          simp only [Bool.false_eq_true, if_false, ofTranspiled, pure_bind]
          cases (compiler.transpile source p.text resolved.options).code <;> rfl

/-- Nothing is written by either, or one text to one place. -/
structure Agrees (w : ω) (d d' : Draft) : Prop where
  diagnostics : d.diagnostics.map Problem.unnamed = d'.diagnostics.map Problem.unnamed
  incomplete : d.incomplete = d'.incomplete
  files : (d.files = [] ∧ d'.files = []) ∨
    ∃ f g s, d.files = [⟨f, s⟩] ∧ d'.files = [⟨g, s⟩] ∧ SamePlace w f g

theorem Agrees.exists_writeAll {d d' : Draft} (h : d.Agrees w d') :
    let place := fun f : OutputFile =>
      ((FileSystem.host w).disk.target (FileSystem.host w).cwd f.path, f.content)
    ∃ written written' stop stop' left, writeAll d.files w = ((written, stop), left) ∧
      writeAll d'.files w = ((written', stop'), left) ∧
      written.map place = written'.map place ∧
      stop.map Problem.unnamed = stop'.map Problem.unnamed := by
  intro place
  rcases h.files with ⟨hd, hd'⟩ | ⟨f, g, s, hd, hd', htarget, hwrite⟩ <;> rw [hd, hd']
  · exact ⟨[], [], none, none, w, rfl, rfl, rfl, rfl⟩
  · simp only [writeAll, hwrite]
    cases FileSystem.writeText w g s with
    | mk outcome left =>
        cases outcome with
        | error cause =>
            exact ⟨[], [], some (.writeFailed f cause), some (.writeFailed g cause), left, rfl, rfl, rfl,
              rfl⟩
        | ok u => exact ⟨[⟨f, s⟩], [⟨g, s⟩], none, none, left, rfl, rfl, by simp [place, htarget], rfl⟩

theorem Agrees.of_commit {d d' : Draft} (h : d.Agrees w d') :
    (d.commit w).1.Agrees (FileSystem.host w) (d'.commit w).1 ∧ (d.commit w).2 = (d'.commit w).2 := by
  obtain ⟨written, written', stop, stop', left, hd, hd', hwritten, hstop⟩ := h.exists_writeAll
  have hdiagnostics : (d.diagnostics ++ stop.toList).map Problem.unnamed =
      (d'.diagnostics ++ stop'.toList).map Problem.unnamed := by
    rw [List.map_append, List.map_append, h.diagnostics, ← Option.toList_map, ← Option.toList_map,
      hstop]
  have herrors : hasErrors (d.diagnostics ++ stop.toList) =
      hasErrors (d'.diagnostics ++ stop'.toList) := by
    rw [← hasErrors_map_unnamed, hdiagnostics, hasErrors_map_unnamed]
  unfold commit
  rw [hd, hd']
  exact ⟨⟨by simp only [h.incomplete, herrors], hdiagnostics, hwritten⟩, rfl⟩

/-- Scripts of one text that go to one place are drafts that agree. -/
theorem ofTranspiled_agrees {tag : String} {script script' : Path} {options : Options}
    {t t' : Transpiled} (hmap : options.isOn .sourceMap = false) (hcode : t.code = t'.code)
    (hdiagnostics : (t.diagnostics.map (Problem.ofDiagnostic tag)).map Problem.unnamed =
      (t'.diagnostics.map (Problem.ofDiagnostic tag)).map Problem.unnamed)
    (hplace : SamePlace w script script') :
    (ofTranspiled tag script options t).Agrees w (ofTranspiled tag script' options t') := by
  unfold ofTranspiled
  rw [hcode]
  cases t'.code with
  | none => exact ⟨hdiagnostics, rfl, .inl ⟨rfl, rfl⟩⟩
  | some code =>
      refine ⟨hdiagnostics, rfl, .inr ⟨script, script', code, ?_, ?_, hplace⟩⟩
      · simp [outputs, hmap]
      · simp [outputs, hmap]

end Draft

/-- The key of a path is another path of the file, which the path names itself, with the settings that the
path has. -/
structure Engine.Respells (e : Engine ω π) (compiler : Compiler) (w : ω) (overrides : Options)
    (p key : Path) : Prop where
  isOnDisk : e.IsOnDisk compiler
  ignoresDirectories : compiler.IgnoresDirectories
  stands : (FileSystem.host w).Stands
  isFile : (FileSystem.host w).isFile p = true
  itself : (FileSystem.host w).NamesItself p
  key_eq : (FileSystem.host w).key p = key
  /-- The system takes the paths of the key and of both scripts. -/
  taken : ∀ q ∈ [key, key.scriptPath, p.scriptPath], Disk.checkPath q = .ok ()
  settings : (e.resolve w key overrides).Agrees e.tag (e.resolve w p overrides)
  /-- No source map names the source. -/
  unmapped : (e.resolve w p overrides).options.isOn .sourceMap = false

/-- Where one configuration is found for both paths, or none for either, they have the same settings. -/
theorem Engine.resolve_eq {p q : Path} (h : e.findConfig w p = e.findConfig w q) (overrides : Options) :
    e.resolve w p overrides = e.resolve w q overrides := by
  unfold resolve
  rw [h]

namespace Compilation

variable {r : CompileRequest} {key : Path}

theorem ofTarget_of_respells (h : e.Respells compiler w (r.overrides (FileSystem.host w)) p key) :
    SameOutcome (FileSystem.host w) (ofTarget e r (.file key) w).1 (ofTarget e r (.file p) w).1 ∧
      (ofTarget e r (.file key) w).2 = (ofTarget e r (.file p) w).2 := by
  obtain ⟨hkey, hkeyscript, hscript⟩ : Disk.checkPath key = .ok () ∧
      Disk.checkPath key.scriptPath = .ok () ∧ Disk.checkPath p.scriptPath = .ok () := by
    simpa using h.taken
  rw [← h.key_eq] at hkey
  obtain ⟨dir, x, hp, hq, hnode⟩ := Host.exists_namesIn_key h.stands h.isFile h.itself hkey
  rw [h.key_eq] at hq hnode
  have hfile : (FileSystem.host w).isFile key = true := (Host.isFile_eq_of_node hnode).trans h.isFile
  have hagree := h.settings
  have hmap := h.unmapped
  unfold ofTarget
  rw [Draft.prepare_file h.isOnDisk hfile, Draft.prepare_file h.isOnDisk h.isFile,
    Host.readText_eq_of_node hnode]
  generalize e.resolve w key (r.overrides (FileSystem.host w)) = a at hagree ⊢
  generalize e.resolve w p (r.overrides (FileSystem.host w)) = b at hagree hmap ⊢
  rw [hagree.hasErrors_eq]
  cases b.hasErrors with
  | true =>
      have hfailed : (Draft.failed (a.diagnostics.map (Problem.ofDiagnostic e.tag))).Agrees w
        (.failed (b.diagnostics.map (Problem.ofDiagnostic e.tag))) :=
          ⟨hagree.diagnostics, rfl, .inl ⟨rfl, rfl⟩⟩
      obtain ⟨hresult, hworld⟩ := hfailed.of_commit
      exact ⟨.compiled hresult, hworld⟩
  | false =>
      cases (FileSystem.host w).readText p with
      | error cause => exact ⟨.unreadable, rfl⟩
      | ok source =>
          have hplace := Draft.samePlace_scriptPath h.isOnDisk hagree hq hp hkeyscript hscript
          obtain ⟨hcode, hproblems⟩ :=
            h.ignoresDirectories.transpile_eq hq.endsIn hp.endsIn hp.loud source hmap e.tag
          rw [hagree.options]
          obtain ⟨hresult, hworld⟩ := Draft.Agrees.of_commit
            (Draft.ofTranspiled_agrees hmap hcode hproblems hplace)
          exact ⟨.compiled hresult, hworld⟩

/-- A request for the key of a file comes to what the request for its path comes to. -/
theorem ofRequest_of_respells (hp : r.filePath = some p)
    (h : e.Respells compiler w (r.overrides (FileSystem.host w)) p key) :
    SameOutcome (FileSystem.host w) (ofRequest e { r with filePath := some key } w).1
        (ofRequest e r w).1 ∧
      (ofRequest e { r with filePath := some key } w).2 = (ofRequest e r w).2 := by
  unfold ofRequest CompileRequest.target
  rw [hp]
  cases r.projectPath with
  | some project => exact ⟨.invalid, rfl⟩
  | none => exact ofTarget_of_respells h

end Compilation

end ScriptWorks
