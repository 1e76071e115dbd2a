import ScriptWorks.Compilation
import ScriptWorks.Proofs.Engine.Files

/-!
# Prepared compilations

What is known of a compilation when nothing is written yet, and why there can be nothing to know. A
draft is exactly what was found, as it is reported.
-/

namespace ScriptWorks

/-- What is known of a compilation before anything is written. -/
inductive Finding where
  /-- The configuration has errors; the engine was asked nothing more. -/
  | misconfigured (errors : List Diagnostic)
  | broken (reason : Breakdown)
  /-- A file of which there is no script. -/
  | noScript (diagnostics : List Diagnostic)
  /-- Files were produced, unless that was skipped. -/
  | produced (diagnostics : List Diagnostic) (files : List OutputFile) (skipped : Bool)

namespace Finding

/-- What is reported of it for a target. -/
def problems (tag : String) (target : Path) : Finding → List Problem
  | .misconfigured ds | .noScript ds | .produced ds _ _ => ds.map (Problem.ofDiagnostic tag)
  | .broken reason => [.breakdown target reason]

def files : Finding → List OutputFile
  | .produced _ files _ => files
  | _ => []

/-- Nothing that should be there is missing. -/
def isComplete : Finding → Bool
  | .produced _ _ skipped => !skipped
  | _ => false

def draft (tag : String) (target : Path) (f : Finding) : Draft :=
  { diagnostics := f.problems tag target, files := f.files, incomplete := !f.isComplete }

@[simp] theorem files_draft (tag : String) (target : Path) (f : Finding) :
    (f.draft tag target).files = f.files := rfl

@[simp] theorem draft_misconfigured (tag : String) (target : Path) (ds : List Diagnostic) :
    (misconfigured ds).draft tag target = .failed (ds.map (Problem.ofDiagnostic tag)) := rfl

@[simp] theorem draft_broken (tag : String) (target : Path) (reason : Breakdown) :
    (broken reason).draft tag target = .failed [.breakdown target reason] := rfl

@[simp] theorem draft_noScript (tag : String) (target : Path) (ds : List Diagnostic) :
    (noScript ds).draft tag target = .failed (ds.map (Problem.ofDiagnostic tag)) := rfl

@[simp] theorem draft_produced (tag : String) (target : Path) (ds : List Diagnostic)
    (files : List OutputFile) (skipped : Bool) :
    (produced ds files skipped).draft tag target =
      { diagnostics := ds.map (Problem.ofDiagnostic tag), files, incomplete := skipped } := by
  simp [draft, problems, Finding.files, isComplete]

end Finding

variable {ω π : Type} [FileSystem ω]

theorem Work.run_get_bind {ω α : Type} (f : ω → Work ω α) (w : ω) :
    (get >>= f).run w = (f w).run w := by
  rw [EStateM.run_bind, EStateM.run_get]

/-- All that a project asks the engine: what is known before anything is written, and what is to be
written. -/
def Engine.produce (e : Engine ω π) (rootFiles : List Path) (options : Options) :
    Work ω (List Diagnostic × Emission) := do
  let program ← e.createProgram rootFiles options
  let (found, program) ← e.preEmit program
  let (emission, _) ← e.emit program
  return (found, emission)

/-- What is found of a target, and the world that the engine leaves. -/
inductive Finds (e : Engine ω π) (r : CompileRequest) (w : ω) : CompileTarget → Finding → ω → Prop
  | fileMisconfigured {p resolved} :
      FileSystem.isFile w p = true →
      e.resolve w p (r.overrides (FileSystem.host w)) = resolved → resolved.diagnostics ≠ [] →
      Finds e r w (.file p) (.misconfigured resolved.diagnostics) w
  | fileBroken {p resolved source reason left} :
      FileSystem.isFile w p = true →
      e.resolve w p (r.overrides (FileSystem.host w)) = resolved → resolved.diagnostics = [] →
      FileSystem.readText w p = .ok source →
      (e.transpile source p.text resolved.options).run w = .error reason left →
      Finds e r w (.file p) (.broken reason) left
  | noScript {p resolved source t left} :
      FileSystem.isFile w p = true →
      e.resolve w p (r.overrides (FileSystem.host w)) = resolved → resolved.diagnostics = [] →
      FileSystem.readText w p = .ok source →
      (e.transpile source p.text resolved.options).run w = .ok t left → t.code = none →
      Finds e r w (.file p) (.noScript t.diagnostics) left
  | transpiled {p resolved source t code left} :
      FileSystem.isFile w p = true →
      e.resolve w p (r.overrides (FileSystem.host w)) = resolved → resolved.diagnostics = [] →
      FileSystem.readText w p = .ok source →
      (e.transpile source p.text resolved.options).run w = .ok t left → t.code = some code →
      Finds e r w (.file p)
        (.produced t.diagnostics
          (Draft.outputs (Draft.scriptPath w p resolved) resolved.options code t.sourceMap) false)
        left
  | projectMisconfigured {dir resolved} :
      e.resolveProject w dir (r.overrides (FileSystem.host w)) = .ok resolved →
      resolved.diagnostics ≠ [] →
      Finds e r w (.project dir) (.misconfigured resolved.diagnostics) w
  | projectBroken {dir resolved reason left} :
      e.resolveProject w dir (r.overrides (FileSystem.host w)) = .ok resolved →
      resolved.diagnostics = [] →
      (e.produce resolved.fileNames resolved.options).run w = .error reason left →
      Finds e r w (.project dir) (.broken reason) left
  | emitted {dir resolved found emission left} :
      e.resolveProject w dir (r.overrides (FileSystem.host w)) = .ok resolved →
      resolved.diagnostics = [] →
      (e.produce resolved.fileNames resolved.options).run w = .ok (found, emission) left →
      Finds e r w (.project dir)
        (.produced (found ++ emission.diagnostics) emission.files emission.skipped) left

/-- Why a target cannot be compiled at all. -/
inductive Refuses (e : Engine ω π) (r : CompileRequest) (w : ω) : CompileTarget → Failure → Prop
  | noSource {p} : FileSystem.isFile w p = false → Refuses e r w (.file p) (.sourceNotFound p)
  | unreadable {p cause} :
      FileSystem.isFile w p = true →
      (e.resolve w p (r.overrides (FileSystem.host w))).diagnostics = [] →
      FileSystem.readText w p = .error cause →
      Refuses e r w (.file p) (.io p cause)
  | noConfig {dir} :
      FileSystem.isFile w (dir.child e.configFileName) = false →
      Refuses e r w (.project dir) (.projectConfigNotFound dir e.configFileName)

namespace Resolved

theorem hasErrors_eq_false {r : Resolved} : r.hasErrors = false ↔ r.diagnostics = [] := by
  simp [hasErrors]

theorem hasErrors_eq_true {r : Resolved} : r.hasErrors = true ↔ r.diagnostics ≠ [] := by
  simp [hasErrors]

end Resolved

theorem Engine.resolveProject_eq_error {e : Engine ω π} {w : ω} {dir : Path} {overrides : Options}
    {failure : Failure} (h : e.resolveProject w dir overrides = .error failure) :
    FileSystem.isFile w (dir.child e.configFileName) = false ∧
      failure = .projectConfigNotFound dir e.configFileName := by
  unfold Engine.resolveProject at h
  cases hfile : FileSystem.isFile w (dir.child e.configFileName) with
  | true => simp [hfile] at h
  | false =>
      simp only [hfile, Bool.false_eq_true, if_false, Except.error.injEq] at h
      exact ⟨rfl, h.symm⟩

namespace Draft

variable {e : Engine ω π} {r : CompileRequest} {w : ω} {target : CompileTarget}

/-- What preparing a target may come to: a refusal that leaves the world as it is, or the draft of
what was found. -/
def IsPrepared (e : Engine ω π) (r : CompileRequest) (w : ω) (target : CompileTarget) :
    Except Failure Draft × ω → Prop
  | (.error failure, left) => Refuses e r w target failure ∧ left = w
  | (.ok d, left) => ∃ f, Finds e r w target f left ∧ d = f.draft e.tag target.path

theorem isPrepared_ofFile (p : Path) :
    IsPrepared e r w (.file p) (prepare e r (.file p) w) := by
  unfold prepare ofFile
  simp only [Work.run_get_bind]
  cases hfile : FileSystem.isFile w p with
  | false => exact ⟨.noSource hfile, rfl⟩
  | true =>
      simp only [Bool.not_true, Bool.false_eq_true, if_false]
      cases hbad : (e.resolve w p (r.overrides (FileSystem.host w))).hasErrors with
      | true =>
          refine ⟨_, .fileMisconfigured hfile rfl (Resolved.hasErrors_eq_true.mp hbad), ?_⟩
          exact (Finding.draft_misconfigured ..).symm
      | false =>
          have hgood := Resolved.hasErrors_eq_false.mp hbad
          simp only [Bool.false_eq_true, if_false]
          cases hread : FileSystem.readText w p with
          | error cause => exact ⟨.unreadable hfile hgood hread, rfl⟩
          | ok source =>
              simp only [EStateM.run_bind]
              cases hrun : (e.transpile source p.text
                  (e.resolve w p (r.overrides (FileSystem.host w))).options).run w with
              | error reason left =>
                  exact ⟨_, .fileBroken hfile rfl hgood hread hrun,
                    (Finding.draft_broken ..).symm⟩
              | ok t left =>
                  cases hcode : t.code with
                  | none =>
                      simp only [hcode]
                      refine ⟨_, .noScript hfile rfl hgood hread hrun hcode, ?_⟩
                      exact (Finding.draft_noScript ..).symm
                  | some code =>
                      simp only [hcode]
                      refine ⟨_, .transpiled hfile rfl hgood hread hrun hcode, ?_⟩
                      exact (Finding.draft_produced ..).symm

/-- Once its configuration has no errors, a project is what the engine produces for it. -/
theorem ofProject_run {dir : Path} {resolved : Resolved}
    (hresolved : e.resolveProject w dir (r.overrides (FileSystem.host w)) = .ok resolved)
    (hgood : resolved.diagnostics = []) :
    (ofProject e r dir).run w =
      (do
        let (found, emission) ← e.produce resolved.fileNames resolved.options
        return Except.ok
          { diagnostics := (found ++ emission.diagnostics).map (Problem.ofDiagnostic e.tag)
            files := emission.files
            incomplete := emission.skipped : Draft } : Work ω (Except Failure Draft)).run w := by
  unfold ofProject Engine.produce
  simp only [Work.run_get_bind, hresolved, Resolved.hasErrors_eq_false.mpr hgood,
    Bool.false_eq_true, if_false, bind_assoc, pure_bind]

theorem isPrepared_ofProject (dir : Path) :
    IsPrepared e r w (.project dir) (prepare e r (.project dir) w) := by
  cases hresolved : e.resolveProject w dir (r.overrides (FileSystem.host w)) with
  | error failure =>
      obtain ⟨hconfig, rfl⟩ := Engine.resolveProject_eq_error hresolved
      unfold prepare ofProject
      simp only [Work.run_get_bind, hresolved]
      exact ⟨.noConfig hconfig, rfl⟩
  | ok resolved =>
      cases hbad : resolved.hasErrors with
      | true =>
          unfold prepare ofProject
          simp only [Work.run_get_bind, hresolved, hbad, if_true]
          refine ⟨_, .projectMisconfigured hresolved (Resolved.hasErrors_eq_true.mp hbad), ?_⟩
          exact (Finding.draft_misconfigured ..).symm
      | false =>
          have hgood := Resolved.hasErrors_eq_false.mp hbad
          unfold prepare
          simp only [ofProject_run hresolved hgood]
          rw [EStateM.run_bind]
          cases hrun : (e.produce resolved.fileNames resolved.options).run w with
          | error reason left => exact ⟨_, .projectBroken hresolved hgood hrun, rfl⟩
          | ok result left =>
              obtain ⟨found, emission⟩ := result
              refine ⟨_, .emitted hresolved hgood hrun, ?_⟩
              exact (Finding.draft_produced ..).symm

theorem isPrepared (target : CompileTarget) : IsPrepared e r w target (prepare e r target w) := by
  cases target with
  | file p => exact isPrepared_ofFile p
  | project dir => exact isPrepared_ofProject dir

end Draft

/-! ## Requests -/

section

variable {e : Engine ω π} {r : CompileRequest} {w w' : ω}

/-- A compilation is what was found of the target of the request, committed. -/
theorem Compilation.exists_of_ofRequest {c : Compilation} (h : ofRequest e r w = (.ok c, w')) :
    ∃ target f left, r.target = .ok target ∧ Finds e r w target f left ∧
      (f.draft e.tag target.path).commit left = (c, w') := by
  unfold ofRequest at h
  cases htarget : r.target with
  | error fault => simp [htarget] at h
  | ok target =>
      simp only [htarget, ofTarget] at h
      have hprepared := Draft.isPrepared (e := e) (r := r) (w := w) target
      cases hp : Draft.prepare e r target w with
      | mk draft left =>
          rw [hp] at h hprepared
          cases draft with
          | error failure => cases h
          | ok d =>
              obtain ⟨f, hfinds, rfl⟩ := hprepared
              cases h
              exact ⟨target, f, left, rfl, hfinds, rfl⟩

/-- A request that fails leaves the world as it was. -/
theorem Compilation.eq_of_ofRequest_error {failure : Failure}
    (h : ofRequest e r w = (.error failure, w')) : w' = w := by
  unfold ofRequest at h
  cases htarget : r.target with
  | error fault =>
      simp only [htarget, Prod.mk.injEq] at h
      exact h.2.symm
  | ok target =>
      simp only [htarget, ofTarget] at h
      have hprepared := Draft.isPrepared (e := e) (r := r) (w := w) target
      cases hp : Draft.prepare e r target w with
      | mk draft left =>
          rw [hp] at h hprepared
          cases draft with
          | error failure =>
              simp only [Prod.mk.injEq] at h
              exact h.2.symm.trans hprepared.2
          | ok d => cases h

end

/-! ## What stays -/

section

variable [LawfulFileSystem ω] {e : Engine ω π}

theorem Engine.KeepsFiles.produce (he : e.KeepsFiles) (rootFiles : List Path) (options : Options) :
    (e.produce rootFiles options).KeepsFiles :=
  Work.keepsFiles_bind (he.createProgram rootFiles options) fun program =>
    Work.keepsFiles_bind (he.preEmit program) fun result =>
      Work.keepsFiles_bind (he.emit result.2) fun _ => Work.keepsFiles_pure _

/-- Nothing is written while a compilation is prepared, unless the engine itself writes. -/
theorem Finds.sameFiles {r : CompileRequest} {w left : ω} {target : CompileTarget} {f : Finding}
    (he : e.KeepsFiles) (h : Finds e r w target f left) : SameFiles w left := by
  cases h with
  | fileMisconfigured | projectMisconfigured => exact .refl w
  | fileBroken _ _ _ _ hrun => exact (he.transpile _ _ _).of_run_error hrun
  | noScript _ _ _ _ hrun _ => exact (he.transpile _ _ _).of_run_ok hrun
  | transpiled _ _ _ _ hrun _ => exact (he.transpile _ _ _).of_run_ok hrun
  | projectBroken _ _ hrun => exact (he.produce _ _).of_run_error hrun
  | emitted _ _ hrun => exact (he.produce _ _).of_run_ok hrun

theorem Draft.sameFiles_of_prepare {r : CompileRequest} {w left : ω} {target : CompileTarget}
    {draft : Except Failure Draft} (he : e.KeepsFiles)
    (h : Draft.prepare e r target w = (draft, left)) : SameFiles w left := by
  have hprepared := Draft.isPrepared (e := e) (r := r) (w := w) target
  rw [h] at hprepared
  cases draft with
  | error failure => exact hprepared.2 ▸ .refl w
  | ok d =>
      obtain ⟨f, hfinds, -⟩ := hprepared
      exact hfinds.sameFiles he

end

end ScriptWorks
