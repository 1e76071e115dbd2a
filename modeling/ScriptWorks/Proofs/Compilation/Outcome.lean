import ScriptWorks.Proofs.Compilation.Committing
import ScriptWorks.Proofs.Compilation.Preparing
import ScriptWorks.Proofs.Schedule.Solitary

/-!
# What a compilation comes to

A compilation fails before it has changed anything. Otherwise its result tells what was found, which
files were written and what stopped the writing, and no other file changed.
-/

namespace ScriptWorks

open LawfulFileSystem

theorem Summary.total_ofProblems (ps : List Problem) :
    (Summary.ofProblems ps).total = ps.length := by
  induction ps with
  | nil => rfl
  | cons p ps ih =>
      simp only [total, ofProblems, List.countP_cons, List.length_cons] at ih ⊢
      cases p.severity <;> simp <;> omega

theorem hasErrors_eq_false {ps : List Problem} :
    hasErrors ps = false ↔ ∀ p ∈ ps, p.severity ≠ .error := by
  simp [hasErrors, Problem.isError]

variable {ω π : Type} [FileSystem ω] [LawfulFileSystem ω]

/-- The result accounts for all that was found, and for each file that was to be written. -/
structure Compilation.AccountsFor (c : Compilation) (tag : String) (target : Path) (f : Finding)
    (left w' : ω) : Prop where
  /-- Files are written in order, up to the first that cannot be; that one is reported. -/
  written : ∃ rest stop after, f.files = c.outputFiles ++ rest ∧ Writes left c.outputFiles after ∧
    Stops after rest stop w' ∧ SameFiles after w' ∧
    c.diagnostics = f.problems tag target ++ stop.toList ∧
    (c.success = true ↔
      f.isComplete = true ∧ rest = [] ∧ ∀ p ∈ c.diagnostics, p.severity ≠ .error)
  /-- No other file changes. -/
  unchanged : ∀ l : Place ω, contentAt w' l = contentAt left l ∨
    ∃ f ∈ c.outputFiles, contentAt w' l = some (.text f.content)
  errors : c.summary.errors = (c.diagnostics.filter (·.severity = .error)).length
  warnings : c.summary.warnings = (c.diagnostics.filter (·.severity = .warning)).length
  infos : c.summary.infos = (c.diagnostics.filter (·.severity = .info)).length
  total : c.summary.total = c.diagnostics.length

theorem Draft.commit_accountsFor {tag : String} {target : Path} {f : Finding} {left w' : ω}
    {c : Compilation} (h : (f.draft tag target).commit left = (c, w')) :
    c.AccountsFor tag target f left w' := by
  obtain ⟨rest, stop, after, hfiles, hw, hs, hdiagnostics, hsuccess⟩ := Draft.commit_eq h
  refine ⟨⟨rest, stop, after, hfiles, hw, hs, hs.sameFiles, hdiagnostics, ?_⟩, fun l => ?_,
    List.countP_eq_length_filter, List.countP_eq_length_filter, List.countP_eq_length_filter,
    Summary.total_ofProblems _⟩
  · have hcomplete : (f.draft tag target).incomplete = !f.isComplete := rfl
    rw [hsuccess, hcomplete, Bool.not_not, Bool.and_eq_true, Bool.not_eq_true', hasErrors_eq_false]
    -- A file that could not be written is an error itself, so nothing is left without one.
    refine and_congr_right fun _ => (and_iff_right_of_imp fun hgood => hs.rest_eq_nil ?_).symm
    exact fun p hp => hgood p (hdiagnostics ▸ List.mem_append_right _ hp)
  · rw [hs.sameFiles l]
    exact hw.contentAt_eq l

/-- Carrying out a request fails with the world as it was, or its result accounts for what was found
of the target and for the files that were written; the engines write nothing themselves. A call that
meets nobody at the gate comes to the same. -/
theorem compilation_accounts_for_files :
    (∀ {ω π : Type} [FileSystem ω] [LawfulFileSystem ω] (e : Engine ω π) (r : CompileRequest) (w : ω),
      match Compilation.ofRequest e r w with
      | (.error failure, w') => w' = w ∧
          ((∃ fault, r.target = .error fault ∧ failure = .invalidRequest fault) ∨
            ∃ target, r.target = .ok target ∧ Refuses e r w target failure)
      | (.ok c, w') => ∃ target f left, r.target = .ok target ∧ Finds e r w target f left ∧
          (e.KeepsFiles → SameFiles w left) ∧ c.AccountsFor e.tag target.path f left w') ∧
    (∀ compiler checker, (Compiler.engine compiler checker).KeepsFiles) ∧
    (∀ rules emitRules, (Engine.scripted rules emitRules).KeepsFiles) ∧
    (∀ {ω π ν : Type} [FileSystem ω] (t : Toolchain ω π ν) (r : CompileRequest)
      (target : CompileTarget) (s : Schedule ω ν), r.target = .ok target → s.gate.IsIdle →
      ∃ s', t.compileTarget r target s = ((Compilation.ofRequest t.engine r s.world).1, s') ∧
        s'.world = (Compilation.ofRequest t.engine r s.world).2 ∧ s'.gate.IsIdle) := by
  refine ⟨fun e r w => ?_, Compiler.engine_keepsFiles, Engine.scripted_keepsFiles,
    fun t r target s htarget hs => ?_⟩
  · unfold Compilation.ofRequest
    cases htarget : r.target with
    | error fault => exact ⟨rfl, .inl ⟨fault, rfl, rfl⟩⟩
    | ok target =>
        have hprepared := Draft.isPrepared (e := e) (r := r) (w := w) target
        simp only [Compilation.ofTarget]
        cases hp : Draft.prepare e r target w with
        | mk draft left =>
            rw [hp] at hprepared
            cases draft with
            | error failure =>
                obtain ⟨hrefused, hleft⟩ := hprepared
                exact ⟨hleft, .inr ⟨target, rfl, hrefused⟩⟩
            | ok d =>
                obtain ⟨f, hfinds, rfl⟩ := hprepared
                exact ⟨target, f, left, rfl, hfinds, hfinds.sameFiles,
                  Draft.commit_accountsFor rfl⟩
  · obtain ⟨hresult, hworld, hidle⟩ := t.compileTarget_of_isIdle r target hs
    have hrequest : Compilation.ofRequest t.engine r s.world =
        Compilation.ofTarget t.engine r target s.world := by
      unfold Compilation.ofRequest
      rw [htarget]
    rw [hrequest]
    exact ⟨_, Prod.ext hresult rfl, hworld, hidle⟩

/-- Of a script and its map only the script can be written. -/
theorem compilation_accounts_for_files_of_denied_map :
    let e := Engine.scripted [] []
    let r : CompileRequest := { filePath := some ⟨"/a.ts"⟩, sourceMap := some true }
    let w : Rehearsal :=
      { memory := { files := [(⟨"/a.ts"⟩, "x")], readOnly := [⟨"/a.js.map"⟩] } }
    let s : Schedule Rehearsal DirectoryWatch := { world := w, sessions := { watcher := {} } }
    let written := Compilation.ofRequest e r w
    r.target = .ok (.file ⟨"/a.ts"⟩) ∧ s.gate.IsIdle ∧ e.KeepsFiles ∧
    (∃ c f left, written.1 = .ok c ∧ c.success = false ∧
      c.outputFiles = [⟨⟨"/a.js"⟩, "// compiled\nx"⟩] ∧ Finds e r w (.file ⟨"/a.ts"⟩) f left ∧
      SameFiles w left ∧ c.AccountsFor "TS" ⟨"/a.ts"⟩ f left written.2) ∧
    ∃ s', Toolchain.compileTarget ⟨e, .directories⟩ r (.file ⟨"/a.ts"⟩) s = (written.1, s') := by
  intro e r w s written
  obtain ⟨haccounts, -, hscripted, hcall⟩ := compilation_accounts_for_files
  have hkeeps : e.KeepsFiles := hscripted [] []
  have hidle : s.gate.IsIdle := ⟨rfl, rfl⟩
  obtain ⟨s', hs', -⟩ := hcall ⟨e, .directories⟩ r (.file ⟨"/a.ts"⟩) s rfl hidle
  have hwritten : ∃ c, written.1 = .ok c ∧ c.success = false ∧
      c.outputFiles = [⟨⟨"/a.js"⟩, "// compiled\nx"⟩] := by
    refine ⟨⟨false, [.writeFailed ⟨"/a.js.map"⟩ (.readOnly ⟨"/a.js.map"⟩)],
      [⟨⟨"/a.js"⟩, "// compiled\nx"⟩]⟩, toOption_eq_some.mp ?_, rfl, rfl⟩
    decide +kernel
  obtain ⟨c, hc, hsuccess, hfiles⟩ := hwritten
  have h := haccounts e r w
  rw [show Compilation.ofRequest e r w = (.ok c, written.2) from Prod.ext hc rfl] at h
  obtain ⟨target, f, left, htarget, hfinds, hsame, hc'⟩ := h
  cases htarget
  exact ⟨rfl, hidle, hkeeps, ⟨c, f, left, hc, hsuccess, hfiles, hfinds, hsame hkeeps, hc'⟩, s', hs'⟩

end ScriptWorks
