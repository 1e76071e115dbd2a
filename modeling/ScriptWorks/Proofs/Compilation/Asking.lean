import Mathlib.Data.List.Find
import Mathlib.Data.Set.Basic
import ScriptWorks.Proofs.Compilation.Respelling
import ScriptWorks.Proofs.FileSystem.Steady

/-!
# What a compilation looks at

A compilation is prepared from a source and from configurations that are looked for above it, and from what
an engine makes of them. Where all the files that are read for that are the same, the same is found.
-/

namespace ScriptWorks

open BareFileSystem

/-! ## Answers -/

namespace Work

variable {ω α : Type} {m : Work ω α} {w w' left : ω} {a : α} {reason : Breakdown}

/-- What a computation returns, without the world that it leaves. -/
def answer (m : Work ω α) (w : ω) : Except Breakdown α :=
  match m.run w with
  | .ok a _ => .ok a
  | .error reason _ => .error reason

theorem run_eq_ok_iff : m.run w = .ok a left ↔ m.answer w = .ok a ∧ m.world w = left := by
  unfold answer world
  cases m.run w <;> simp

theorem run_eq_error_iff :
    m.run w = .error reason left ↔ m.answer w = .error reason ∧ m.world w = left := by
  unfold answer world
  cases m.run w <;> simp

theorem run_ok_again (h : m.answer w' = m.answer w) (hrun : m.run w = .ok a left) :
    m.run w' = .ok a (m.world w') :=
  run_eq_ok_iff.mpr ⟨h.trans (run_eq_ok_iff.mp hrun).1, rfl⟩

theorem run_error_again (h : m.answer w' = m.answer w) (hrun : m.run w = .error reason left) :
    m.run w' = .error reason (m.world w') :=
  run_eq_error_iff.mpr ⟨h.trans (run_eq_error_iff.mp hrun).1, rfl⟩

end Work

/-! ## What an engine is asked -/

/-- What an engine may be asked in the course of a compilation. -/
inductive Question where
  | config (path : Path)
  | program (rootFiles : List Path) (options : Options)
  | script (source fileName : String) (options : Options)

variable {ω π : Type} [FileSystem ω]

/-- The engine has one answer to the question in both states of the world. -/
def Engine.AnswersAlike (e : Engine ω π) (w w' : ω) : Question → Prop
  | .config path => e.readProject w' path = e.readProject w path
  | .program rootFiles options =>
    (e.produce rootFiles options).answer w' = (e.produce rootFiles options).answer w
  | .script source fileName options =>
    (e.transpile source fileName options).answer w' = (e.transpile source fileName options).answer w

/-- The answers of the engine depend only on the files that it reads for them. These are inputs, and what
it hands over to be written are outputs. It writes nothing itself. -/
structure Engine.ReadsOnly [LawfulFileSystem ω] [BareFileSystem ω] (e : Engine ω π)
    (reads : ω → Question → Set Path) : Prop where
  alike {w w' : ω} {q : Question} : (FileSystem.host w').cwd = (FileSystem.host w).cwd →
    (∀ p ∈ reads w q, SameRead w w' p) → e.AnswersAlike w w' q
  inputs {w : ω} {q : Question} {p : Path} : p ∈ reads w q → p.isInput = true
  config (dir : Path) : (dir.child e.configFileName).isInput = true
  outputs {w left : ω} {rootFiles : List Path} {options : Options} {found : List Diagnostic}
    {emission : Emission} : (e.produce rootFiles options).run w = .ok (found, emission) left →
    ∀ f ∈ emission.files, f.path.isOutput = true
  produce (rootFiles : List Path) (options : Options) (w : ω) :
    bare ((e.produce rootFiles options).world w) = bare w
  transpile (source fileName : String) (options : Options) (w : ω) :
    bare ((e.transpile source fileName options).world w) = bare w

/-- What the engine is asked when a target is prepared. -/
inductive Asks (e : Engine ω π) (r : CompileRequest) (w : ω) : CompileTarget → Question → Prop
  | nearest {p config : Path} : e.findConfig w p = some config → Asks e r w (.file p) (.config config)
  | script {p : Path} {source : String} : FileSystem.readText w p = .ok source →
      Asks e r w (.file p)
        (.script source p.text (e.resolve w p (r.overrides (FileSystem.host w))).options)
  | config {dir : Path} : Asks e r w (.project dir) (.config (dir.child e.configFileName))
  | program {dir : Path} {resolved : Resolved} :
      e.resolveProject w dir (r.overrides (FileSystem.host w)) = .ok resolved →
      Asks e r w (.project dir) (.program resolved.fileNames resolved.options)

/-- The path is looked at when a target is prepared. -/
inductive LooksAt (e : Engine ω π) (reads : ω → Question → Set Path) (r : CompileRequest) (w : ω) :
    CompileTarget → Path → Prop
  | source {p : Path} : LooksAt e reads r w (.file p) p
  | candidate {p dir : Path} : dir ∈ (p.parent?.getD p).ancestors →
      LooksAt e reads r w (.file p) (dir.child e.configFileName)
  | config {dir : Path} : LooksAt e reads r w (.project dir) (dir.child e.configFileName)
  | read {target : CompileTarget} {q : Question} {p : Path} : Asks e r w target q → p ∈ reads w q →
      LooksAt e reads r w target p

/-! ## Preparing again -/

theorem CompileRequest.overrides_congr {h h' : Host} (hcwd : h'.cwd = h.cwd) (r : CompileRequest) :
    r.overrides h' = r.overrides h := by
  unfold overrides Host.absolute
  rw [hcwd]

theorem Draft.scriptPath_congr {w w' : ω}
    (hcwd : (FileSystem.host w').cwd = (FileSystem.host w).cwd) (p : Path) (resolved : Resolved) :
    scriptPath w' p resolved = scriptPath w p resolved := by
  unfold scriptPath Host.absolute
  rw [hcwd]

variable {e : Engine ω π} {r : CompileRequest} {w w' left : ω} {target : CompileTarget} {f : Finding}

/-- A source that can be read is what the engine transpiles it to. -/
theorem Draft.ofFile_run {p : Path} {source : String} {resolved : Resolved}
    (hfile : FileSystem.isFile w p = true)
    (hresolved : e.resolve w p (r.overrides (FileSystem.host w)) = resolved)
    (hgood : resolved.diagnostics = []) (hread : FileSystem.readText w p = .ok source) :
    (ofFile e r p).run w =
      (do
        let t ← e.transpile source p.text resolved.options
        return Except.ok (ofTranspiled e.tag (scriptPath w p resolved) resolved.options t) :
          Work ω (Except Failure Draft)).run w := by
  unfold ofFile
  simp only [Work.run_get_bind, hfile, hresolved, Resolved.hasErrors_eq_false.mpr hgood, hread,
    Bool.not_true, Bool.false_eq_true, if_false]
  refine congrArg (EStateM.run · w) (congrArg _ (funext fun t => ?_))
  unfold ofTranspiled
  cases t.code <;> rfl

namespace Finds

/-- What is found is what preparing comes to. -/
theorem prepare (h : Finds e r w target f left) :
    Draft.prepare e r target w = (.ok (f.draft e.tag target.path), left) := by
  unfold Draft.prepare
  cases h with
  | fileMisconfigured hfile hresolved hbad =>
      subst hresolved
      simp only [Draft.ofFile, Work.run_get_bind, hfile, Resolved.hasErrors_eq_true.mpr hbad,
        Bool.not_true, Bool.false_eq_true, if_true, if_false, Finding.draft_misconfigured]
      rfl
  | fileBroken hfile hresolved hgood hread hrun =>
      simp only [Draft.ofFile_run hfile hresolved hgood hread, EStateM.run_bind, hrun,
        Finding.draft_broken]
  | noScript hfile hresolved hgood hread hrun hcode =>
      simp only [Draft.ofFile_run hfile hresolved hgood hread, EStateM.run_bind, hrun,
        Draft.ofTranspiled, hcode, Finding.draft_noScript]
      rfl
  | transpiled hfile hresolved hgood hread hrun hcode =>
      simp only [Draft.ofFile_run hfile hresolved hgood hread, EStateM.run_bind, hrun,
        Draft.ofTranspiled, hcode, Finding.draft_produced]
      rfl
  | projectMisconfigured hresolved hbad =>
      simp only [Draft.ofProject, Work.run_get_bind, hresolved, Resolved.hasErrors_eq_true.mpr hbad,
        if_true, Finding.draft_misconfigured]
      rfl
  | projectBroken hresolved hgood hrun =>
      simp only [Draft.ofProject_run hresolved hgood, EStateM.run_bind, hrun, Finding.draft_broken]
  | emitted hresolved hgood hrun =>
      simp only [Draft.ofProject_run hresolved hgood, EStateM.run_bind, hrun, Finding.draft_produced]
      rfl

/-- Only a world whose files are those of the first one is left. -/
theorem bare_eq [LawfulFileSystem ω] [BareFileSystem ω] {reads : ω → Question → Set Path}
    (he : e.ReadsOnly reads) (h : Finds e r w target f left) : bare left = bare w := by
  cases h with
  | fileMisconfigured | projectMisconfigured => rfl
  | fileBroken _ _ _ _ hrun => exact (Work.run_eq_error_iff.mp hrun).2 ▸ he.transpile ..
  | noScript _ _ _ _ hrun _ | transpiled _ _ _ _ hrun _ =>
      exact (Work.run_eq_ok_iff.mp hrun).2 ▸ he.transpile ..
  | projectBroken _ _ hrun => exact (Work.run_eq_error_iff.mp hrun).2 ▸ he.produce ..
  | emitted _ _ hrun => exact (Work.run_eq_ok_iff.mp hrun).2 ▸ he.produce ..

/-- What is to be written is no input. -/
theorem isInput_eq_false [LawfulFileSystem ω] [BareFileSystem ω] {reads : ω → Question → Set Path}
    (he : e.ReadsOnly reads) (h : Finds e r w target f left) :
    ∀ file ∈ f.files, file.path.isInput = false := by
  intro file hfile
  cases h with
  | fileMisconfigured | fileBroken | noScript | projectMisconfigured | projectBroken => cases hfile
  | @transpiled p resolved source t code left =>
      rcases List.mem_cons.mp hfile with rfl | hfile
      · rcases Draft.scriptPath_cases w p resolved with heq | ⟨dir, name, hname, heq⟩
        · rw [heq]
          exact Path.isInput_scriptPath p
        · obtain ⟨hloud, hup⟩ := Path.isLoud_of_fileName? hname
          rw [heq, Path.isInput_eq_false_iff, Path.fileName?_child hloud hup, ← hname]
          exact Path.isInput_eq_false_iff.mp (Path.isInput_scriptPath p)
      · split at hfile
        · obtain ⟨text, -, rfl⟩ := Option.map_eq_some_iff.mp (Option.mem_toList.mp hfile)
          exact Path.isInput_mapPath _
        · cases hfile
  | emitted _ _ hrun => exact Path.isInput_of_isOutput (he.outputs hrun file hfile)

end Finds

theorem Engine.findConfig_congr {reads : ω → Question → Set Path} {p : Path}
    (hfile : FileSystem.isFile w p = true) (hsame : ∀ q, LooksAt e reads r w (.file p) q → SameRead w w' q) :
    e.findConfig w' p = e.findConfig w p := by
  unfold findConfig
  simp only [(hsame p .source).isFile, hfile, if_true]
  refine List.find?_congr fun q hq => ?_
  obtain ⟨dir, hdir, rfl⟩ := List.mem_map.mp hq
  exact (hsame _ (.candidate hdir)).isFile

section

variable [LawfulFileSystem ω] [BareFileSystem ω] {reads : ω → Question → Set Path}

/-- What is looked at is an input, if the source is one. -/
theorem LooksAt.isInput (he : e.ReadsOnly reads) (hsource : ∀ p, target = .file p → p.isInput = true)
    {p : Path} (h : LooksAt e reads r w target p) : p.isInput = true := by
  cases h with
  | source => exact hsource p rfl
  | candidate | config => exact he.config _
  | read _ hp => exact he.inputs hp

namespace Engine

theorem resolve_congr (he : e.ReadsOnly reads)
    (hcwd : (FileSystem.host w').cwd = (FileSystem.host w).cwd) {p : Path}
    (hfile : FileSystem.isFile w p = true)
    (hsame : ∀ q, LooksAt e reads r w (.file p) q → SameRead w w' q) (overrides : Options) :
    e.resolve w' p overrides = e.resolve w p overrides := by
  unfold resolve
  rw [findConfig_congr hfile hsame]
  cases hconfig : e.findConfig w p with
  | none => rfl
  | some config =>
      have halike : e.readProject w' config = e.readProject w config :=
        he.alike (q := .config config) hcwd fun q hq => hsame q (.read (.nearest hconfig) hq)
      simp only [resolveWith, halike]

theorem resolveProject_congr (he : e.ReadsOnly reads)
    (hcwd : (FileSystem.host w').cwd = (FileSystem.host w).cwd) {dir : Path}
    (hsame : ∀ q, LooksAt e reads r w (.project dir) q → SameRead w w' q) (overrides : Options) :
    e.resolveProject w' dir overrides = e.resolveProject w dir overrides := by
  have halike : e.readProject w' (dir.child e.configFileName) =
      e.readProject w (dir.child e.configFileName) :=
    he.alike (q := .config _) hcwd fun q hq => hsame q (.read .config hq)
  simp only [resolveProject, resolveWith, (hsame _ .config).isFile, halike]

end Engine

/-- Where all that is looked at is the same, the same is found. -/
theorem Finds.again (he : e.ReadsOnly reads)
    (hcwd : (FileSystem.host w').cwd = (FileSystem.host w).cwd)
    (hsame : ∀ p, LooksAt e reads r w target p → SameRead w w' p) (h : Finds e r w target f left) :
    ∃ left', Finds e r w' target f left' := by
  have hoverrides := r.overrides_congr hcwd
  cases target with
  | file p =>
      have hresolve (hfile : FileSystem.isFile w p = true) {resolved : Resolved}
          (hresolved : e.resolve w p (r.overrides (FileSystem.host w)) = resolved) :
          e.resolve w' p (r.overrides (FileSystem.host w')) = resolved := by
        rw [hoverrides, Engine.resolve_congr he hcwd hfile hsame, hresolved]
      have hfile' (hfile : FileSystem.isFile w p = true) : FileSystem.isFile w' p = true :=
        (hsame p .source).isFile.trans hfile
      have hread' (hfile : FileSystem.isFile w p = true) {source : String}
          (hread : FileSystem.readText w p = .ok source) : FileSystem.readText w' p = .ok source :=
        ((hsame p .source).readText hfile).trans hread
      have hanswer {source : String} (hread : FileSystem.readText w p = .ok source) {resolved : Resolved}
          (hresolved : e.resolve w p (r.overrides (FileSystem.host w)) = resolved) :
          (e.transpile source p.text resolved.options).answer w' =
            (e.transpile source p.text resolved.options).answer w := by
        subst hresolved
        exact he.alike (q := .script ..) hcwd fun q hq => hsame q (.read (.script hread) hq)
      cases h with
      | fileMisconfigured hfile hresolved hbad =>
          exact ⟨_, .fileMisconfigured (hfile' hfile) (hresolve hfile hresolved) hbad⟩
      | fileBroken hfile hresolved hgood hread hrun =>
          exact ⟨_, .fileBroken (hfile' hfile) (hresolve hfile hresolved) hgood (hread' hfile hread)
            (Work.run_error_again (hanswer hread hresolved) hrun)⟩
      | noScript hfile hresolved hgood hread hrun hcode =>
          exact ⟨_, .noScript (hfile' hfile) (hresolve hfile hresolved) hgood (hread' hfile hread)
            (Work.run_ok_again (hanswer hread hresolved) hrun) hcode⟩
      | @transpiled _ resolved source t code left hfile hresolved hgood hread hrun hcode =>
          rw [← Draft.scriptPath_congr hcwd p resolved]
          exact ⟨_, .transpiled (hfile' hfile) (hresolve hfile hresolved) hgood (hread' hfile hread)
            (Work.run_ok_again (hanswer hread hresolved) hrun) hcode⟩
  | project dir =>
      have hresolve {resolved : Resolved}
          (hresolved : e.resolveProject w dir (r.overrides (FileSystem.host w)) = .ok resolved) :
          e.resolveProject w' dir (r.overrides (FileSystem.host w')) = .ok resolved := by
        rw [hoverrides, Engine.resolveProject_congr he hcwd hsame, hresolved]
      have hanswer {resolved : Resolved}
          (hresolved : e.resolveProject w dir (r.overrides (FileSystem.host w)) = .ok resolved) :
          (e.produce resolved.fileNames resolved.options).answer w' =
            (e.produce resolved.fileNames resolved.options).answer w :=
        he.alike (q := .program ..) hcwd fun q hq => hsame q (.read (.program hresolved) hq)
      cases h with
      | projectMisconfigured hresolved hbad =>
          exact ⟨_, .projectMisconfigured (hresolve hresolved) hbad⟩
      | projectBroken hresolved hgood hrun =>
          exact ⟨_, .projectBroken (hresolve hresolved) hgood
            (Work.run_error_again (hanswer hresolved) hrun)⟩
      | emitted hresolved hgood hrun =>
          exact ⟨_, .emitted (hresolve hresolved) hgood
            (Work.run_ok_again (hanswer hresolved) hrun)⟩

end

end ScriptWorks
