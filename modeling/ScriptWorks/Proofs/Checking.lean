import ScriptWorks.Checking
import ScriptWorks.Small.Compiler
import ScriptWorks.Proofs.Checker.Place
import ScriptWorks.Proofs.Failing
import ScriptWorks.Proofs.Json.Dict
import ScriptWorks.Proofs.Transpiling

/-!
# Checks that succeed

A check that succeeds without the warning that types were left out has a clean configuration and clean
sources, and a checker ran over them and reported no error. There is no other way to succeed, whatever
the checker does.
-/

namespace ScriptWorks

/-! ## Sources -/

namespace Program

variable {compiler : Compiler}

/-- What is wrong with a source: that it cannot be read, or what the compiler says of it. -/
def sourceErrors (compiler : Compiler) (h : Host) (o : Options) (p : Path) : List Diagnostic :=
  match h.readText p with
  | .error e => [.global 6053 s!"File '{p.text}' not found: {e.message}."]
  | .ok source => (compiler.transpile source p.text o).diagnostics

/-- The source can be read, and the compiler accepts it. -/
def IsClean (compiler : Compiler) (h : Host) (o : Options) (p : Path) : Prop :=
  ∃ source, h.readText p = .ok source ∧ compiler.Accepts ⟨p.text, source⟩ o

theorem sourceErrors_eq_nil_iff {h : Host} {o : Options} {p : Path} :
    sourceErrors compiler h o p = [] ↔ IsClean compiler h o p := by
  unfold sourceErrors IsClean
  cases h.readText p with
  | error e => simp
  | ok source => simp [Compiler.diagnostics_transpile_eq_nil_iff]

theorem category_of_mem_sourceErrors {h : Host} {o : Options} {p : Path} {d : Diagnostic}
    (hd : d ∈ sourceErrors compiler h o p) : d.category = .error := by
  unfold sourceErrors at hd
  split at hd
  · rw [List.mem_singleton.mp hd]
    rfl
  · exact Compiler.category_of_mem_transpile hd

/-- What is known to be wrong with a program is what is wrong with its root files. -/
theorem mem_preEmit_iff {h : Host} {roots : List Path} {o : Options} {d : Diagnostic} :
    d ∈ (build compiler h roots o).preEmit ↔ ∃ p ∈ roots, d ∈ sourceErrors compiler h o p := by
  have hsource : ∀ p, d ∈ sourceErrors compiler h o p ↔
      readUnit compiler h o p = .error d ∨
        ∃ u, readUnit compiler h o p = .ok u ∧ d ∈ u.output.diagnostics := by
    intro p
    unfold sourceErrors readUnit
    cases h.readText p with
    | error e => simp [eq_comm]
    | ok source => simp
  simp only [hsource, preEmit, syntaxErrors, build, List.mem_append, List.mem_filterMap,
    List.mem_flatMap, List.mem_map]
  constructor
  · rintro (⟨_, ⟨p, hp, rfl⟩, hd⟩ | ⟨u, ⟨_, ⟨p, hp, rfl⟩, hu⟩, hd⟩)
    · refine ⟨p, hp, .inl ?_⟩
      cases hunit : readUnit compiler h o p <;> simp_all
    · exact ⟨p, hp, .inr ⟨u, toOption_eq_some.mp hu, hd⟩⟩
  · rintro ⟨p, hp, hunit | ⟨u, hunit, hd⟩⟩
    · exact .inl ⟨_, ⟨p, hp, rfl⟩, by rw [hunit]⟩
    · exact .inr ⟨u, ⟨_, ⟨p, hp, rfl⟩, toOption_eq_some.mpr hunit⟩, hd⟩

theorem category_of_mem_preEmit {h : Host} {roots : List Path} {o : Options} {d : Diagnostic}
    (hd : d ∈ (build compiler h roots o).preEmit) : d.category = .error :=
  let ⟨_, _, hsource⟩ := mem_preEmit_iff.mp hd
  category_of_mem_sourceErrors hsource

/-- Nothing is known to be wrong with clean sources, and with no others. -/
theorem preEmit_eq_nil_iff {h : Host} {roots : List Path} {o : Options} :
    (build compiler h roots o).preEmit = [] ↔ ∀ p ∈ roots, IsClean compiler h o p := by
  simp only [List.eq_nil_iff_forall_not_mem, mem_preEmit_iff, ← sourceErrors_eq_nil_iff]
  exact ⟨fun h p hp d hd => h d ⟨p, hp, hd⟩, fun h d ⟨p, hp, hd⟩ => h p hp d hd⟩

end Program

/-! ## Checkers -/

namespace Checker

/-- The configuration of a run lists the root files. -/
theorem member?_config_files (h : Host) (roots : List Path) (o : Options) (start : Path) :
    (config h roots o start).member? "files" = some (.ofStrings (roots.map Path.text)) := by
  unfold config Json.ofMembers Json.member? Json.asObject? Dict.ofList
  rw [Option.bind_some, Dict.get?_overlay (by simp)]
  simp [Dict.get?_cons]

/-- Where a checker is started: in the directory of the first root file. -/
def startDir (roots : List Path) : Path := (roots.head?.bind Path.parent?).getD ⟨"."⟩

/-- A run that started with a configuration for the root files, ended well or printed a diagnostic, and
printed no error. -/
structure Clears (h : Host) (program : Path) (roots : List Path) (o : Options)
    (result : ProcessResult) (run : Run) : Prop where
  placed : ∃ p, place h = .ok p
  started : h.run program (startDir roots) = .ok result
  recorded : run = ⟨config h roots o (startDir roots), result.cwd⟩
  answered : result.behaviour.status.isSuccess = true ∨ printed result.behaviour.stdout.lossy ≠ []
  harmless : ∀ p ∈ printed result.behaviour.stdout.lossy, p.head.category.severity ≠ .error

/-- A run over root files that is trusted was configured and started, and it ended well or said
something. -/
theorem run_cons_of_ok {h : Host} {program first : Path} {rest : List Path} {o : Options}
    {found : List Diagnostic} {run? : Option Run}
    (hrun : run h program (first :: rest) o = (.ok found, run?)) :
    ∃ configPath result, place h = .ok configPath ∧
      h.run program (startDir (first :: rest)) = .ok result ∧
      (¬(found.isEmpty && !result.behaviour.status.isSuccess) = true ∧
        found = diagnostics h result.behaviour.stdout.lossy (startDir (first :: rest))) ∧
      run? = some ⟨config h (first :: rest) o (startDir (first :: rest)), result.cwd⟩ := by
  unfold Checker.run at hrun
  dsimp only at hrun
  cases hplace : place h with
  | error reason =>
      rw [hplace] at hrun
      cases hrun
  | ok configPath =>
      rw [hplace] at hrun
      dsimp only at hrun
      cases hstart : h.run program (first.parent?.getD ⟨"."⟩) with
      | error e =>
          rw [hstart] at hrun
          cases hrun
      | ok result =>
          rw [hstart, Prod.mk.injEq] at hrun
          obtain ⟨hverdict, rfl⟩ := hrun
          unfold verdict at hverdict
          dsimp only at hverdict
          split at hverdict
          case isTrue => cases hverdict
          case isFalse htrusted =>
            cases hverdict
            exact ⟨configPath, result, rfl, hstart, ⟨htrusted, rfl⟩, rfl⟩

/-- A checker that is trusted and reports no error clears the root files, if there are any. -/
theorem clears_of_run {h : Host} {program : Path} {roots : List Path} {o : Options}
    {found : List Diagnostic} {run? : Option Run} (hrun : run h program roots o = (.ok found, run?))
    (hfound : ∀ d ∈ found, d.category.severity ≠ .error) :
    roots = [] ∧ run? = none ∨
      ∃ result run, run? = some run ∧ Clears h program roots o result run := by
  cases roots with
  | nil =>
      cases hrun
      exact .inl ⟨rfl, rfl⟩
  | cons first rest =>
      obtain ⟨config, result, hplace, hstart, hverdict, rfl⟩ := run_cons_of_ok hrun
      refine .inr ⟨result, _, rfl, ⟨config, hplace⟩, hstart, rfl, ?_, fun p hp => ?_⟩
      · by_cases hsilent : printed result.behaviour.stdout.lossy = []
        · exact .inl (by simpa [hverdict.2, diagnostics, hsilent] using hverdict.1)
        · exact .inr hsilent
      · rw [← (diagnostic_of_printed h (startDir (first :: rest)) p).1]
        exact hfound _ (hverdict.2 ▸ List.mem_map_of_mem hp)

end Checker

/-! ## Checks -/

/-- Among the diagnostics of a check that succeeds there is no error. -/
theorem TypeCheck.severity_of_success {tag : String} {found : List Diagnostic} {extra : List Problem}
    (h : (ofDiagnostics (found.map (Problem.ofDiagnostic tag) ++ extra)).success = true) :
    ∀ d ∈ found, d.category.severity ≠ .error := by
  intro d hd hseverity
  have hnone : hasErrors (found.map (Problem.ofDiagnostic tag) ++ extra) = false := by
    simpa [ofDiagnostics] using h
  have hp : Problem.ofDiagnostic tag d ∈ found.map (Problem.ofDiagnostic tag) ++ extra :=
    List.mem_append_left _ (List.mem_map_of_mem hd)
  exact List.any_eq_false.mp hnone _ hp (decide_eq_true hseverity)

/-- Where there is no reason why types were not checked, what is found is wrong with the sources
themselves, or it is what a checker says of clean sources. -/
theorem CheckedProgram.preEmit_of_checked {program : Program} {checker : Option Path}
    {w w' : Workstation} {found : List Diagnostic} {p : CheckedProgram}
    (h : EStateM.run (preEmit ⟨program, checker, none⟩) w = .ok (found, p) w')
    (hchecked : p.uncheckedReason = none) :
    program.preEmit = found ∧ found ≠ [] ∨
      ∃ path run?, checker = some path ∧ program.preEmit = [] ∧
        Checker.run w.host path program.rootFiles program.options = (.ok found, run?) ∧
        w'.runs = w.runs ++ run?.toList := by
  unfold preEmit at h
  cases checker with
  | none =>
      cases h
      cases hchecked
  | some path =>
      cases hpre : program.preEmit with
      | cons d rest =>
          simp only [hpre] at h
          cases h
          exact .inl ⟨rfl, List.cons_ne_nil d rest⟩
      | nil =>
          refine .inr ⟨path, ?_⟩
          cases hrun : Checker.run w.host path program.rootFiles program.options with
          | mk v run? =>
              simp only [hpre, consult, bind_assoc, EStateM.run_bind, EStateM.run_get, hrun,
                EStateM.run_set, pure_bind] at h
              cases v with
              | error reason =>
                  cases h
                  cases hchecked
              | ok diagnostics =>
                  simp only [EStateM.run_pure, EStateM.Result.ok.injEq, Prod.mk.injEq] at h
                  obtain ⟨⟨rfl, rfl⟩, rfl⟩ := h
                  exact ⟨run?, rfl, rfl, rfl, rfl⟩

/-- A check that succeeds found its configuration in order, and reports what is found before anything is
written and why types were left out. -/
theorem TypeCheck.of_success {ω π : Type} [FileSystem ω] {e : Engine ω π} {r : CheckRequest}
    {w w' : ω} {c : TypeCheck} (h : ofRequest e r w = (.ok c, w')) (hsuccess : c.success = true) :
    ∃ resolved roots program w₁ found p, scope e w r = .ok (resolved, roots) ∧
      resolved.diagnostics = [] ∧
      (e.createProgram roots resolved.options).run w = .ok program w₁ ∧
      (e.preEmit program).run w₁ = .ok (found, p) w' ∧
      c = ofDiagnostics (found.map (Problem.ofDiagnostic e.tag) ++
        ((e.uncheckedReason p).map (syntaxOnly r.path)).toList) := by
  unfold ofRequest check at h
  simp only [EStateM.run_bind, EStateM.run_get] at h
  cases hscope : scope e w r with
  | error failure =>
      rw [hscope] at h
      cases h
  | ok found =>
      obtain ⟨resolved, roots⟩ := found
      rw [hscope] at h
      dsimp only at h
      by_cases hclean : resolved.diagnostics = []
      · have hnone : resolved.hasErrors = false := by simp [Resolved.hasErrors, hclean]
        rw [hnone, if_neg Bool.false_ne_true, EStateM.run_bind] at h
        cases hcreate : (e.createProgram roots resolved.options).run w with
        | error reason w₁ =>
            rw [hcreate] at h
            cases h
            cases hsuccess
        | ok program w₁ =>
            rw [hcreate] at h
            dsimp only at h
            rw [EStateM.run_bind] at h
            cases hfound : (e.preEmit program).run w₁ with
            | error reason w₂ =>
                rw [hfound] at h
                cases h
                cases hsuccess
            | ok a w₂ =>
                rw [hfound] at h
                cases h
                exact ⟨resolved, roots, program, w₁, a.1, a.2, rfl, hclean, hcreate, hfound, rfl⟩
      · have hsome : resolved.hasErrors = true := by simp [Resolved.hasErrors, hclean]
        rw [hsome, if_pos rfl] at h
        cases h
        cases hsuccess

/-- A check on a host that succeeds without the warning that types were left out had a configuration
without errors and clean sources, and if there were any, one run of the checker clears them. -/
theorem checks_succeed_on_checked_sources (compiler : Compiler) (checker : Option Path)
    (r : CheckRequest) (w w' : Workstation) (c : TypeCheck)
    (h : TypeCheck.ofRequest (compiler.engine checker) r w = (.ok c, w')) (hsuccess : c.success = true)
    (hchecked : ∀ d ∈ c.diagnostics, d.code ≠ "syntax-only") :
    ∃ resolved roots, TypeCheck.scope (compiler.engine checker) w r = .ok (resolved, roots) ∧
      resolved.diagnostics = [] ∧
      (∀ p ∈ roots, Program.IsClean compiler w.host resolved.options p) ∧
      (roots = [] ∨ ∃ program result run, checker = some program ∧ w'.runs = w.runs ++ [run] ∧
        Checker.Clears w.host program roots resolved.options result run ∧
        run.config.member? "files" = some (.ofStrings (roots.map Path.text))) := by
  obtain ⟨resolved, roots, _, _, found, p, hscope, hclean, ⟨⟩, hfound, rfl⟩ :=
    TypeCheck.of_success h hsuccess
  have hharmless := TypeCheck.severity_of_success hsuccess
  refine ⟨resolved, roots, hscope, hclean, ?_⟩
  have hreason : (compiler.engine checker).uncheckedReason p = none := by
    cases hreason : (compiler.engine checker).uncheckedReason p with
    | none => rfl
    | some reason =>
        refine absurd rfl (hchecked (TypeCheck.syntaxOnly r.path reason) ?_)
        rw [hreason]
        exact List.mem_append_right _ (List.mem_singleton_self _)
  rcases CheckedProgram.preEmit_of_checked hfound hreason with
    ⟨hpre, hne⟩ | ⟨path, run?, rfl, hpre, hrun, hruns⟩
  · obtain ⟨d, hd⟩ := List.exists_mem_of_ne_nil found hne
    have herror := Program.category_of_mem_preEmit (hpre ▸ hd)
    exact absurd (congrArg Category.severity herror) (hharmless d hd)
  · refine ⟨Program.preEmit_eq_nil_iff.mp hpre, ?_⟩
    rcases Checker.clears_of_run hrun hharmless with ⟨hempty, -⟩ | ⟨result, run, rfl, hclears⟩
    · exact .inl hempty
    · refine .inr ⟨path, result, run, rfl, hruns, hclears, ?_⟩
      rw [hclears.recorded]
      exact Checker.member?_config_files _ _ _ _

/-- A checker that fails with a warning clears its file. -/
theorem checks_succeed_on_checked_sources_of_warning :
    let warns : Behaviour := ⟨.text "a.ts(1,7): warning TS6133: unused\n", .text "", .code 2⟩
    let w : Workstation :=
      { host := { disk := ⟨[(["p"], .dir), (["p", "a.ts"], .file (.text "const a = 1;") none),
          (["bin"], .dir), (["bin", "tsgo"], .file (.text "") (some warns))]⟩ } }
    let r : CheckRequest := { path := ⟨"/p/a.ts"⟩ }
    let checked := TypeCheck.ofRequest (Engine.onHost (some ⟨"/bin/tsgo"⟩)) r w
    ∃ c o, checked.1 = .ok c ∧ c.success = true ∧ (∀ d ∈ c.diagnostics, d.code ≠ "syntax-only") ∧
      Program.IsClean .small w.host o r.path ∧
      ∃ result run, checked.2.runs = [run] ∧
        Checker.Clears w.host ⟨"/bin/tsgo"⟩ [r.path] o result run := by
  intro warns w r checked
  have hresult : checked.1.toOption.map (fun c => (c.success, c.diagnostics.map Problem.code)) =
      some (true, ["TS6133"]) := by decide +kernel
  obtain ⟨c, hc, hcodes⟩ := Option.map_eq_some_iff.mp hresult
  rw [toOption_eq_some] at hc
  rw [Prod.mk.injEq] at hcodes
  have hchecked : ∀ d ∈ c.diagnostics, d.code ≠ "syntax-only" := by
    intro d hd heq
    have hmem : "syntax-only" ∈ c.diagnostics.map Problem.code := heq ▸ List.mem_map_of_mem hd
    rw [hcodes.2] at hmem
    exact absurd hmem (by decide)
  have hroots : (TypeCheck.scope (Engine.onHost (some ⟨"/bin/tsgo"⟩)) w r).toOption.map (·.2) =
      some [r.path] := by decide +kernel
  obtain ⟨resolved, roots, hscope, -, hclean, hrun⟩ :=
    checks_succeed_on_checked_sources .small _ r w checked.2 c (Prod.ext hc rfl) hcodes.1 hchecked
  rw [hscope] at hroots
  cases hroots
  refine ⟨c, resolved.options, hc, hcodes.1, hchecked, hclean _ (List.mem_singleton_self _), ?_⟩
  rcases hrun with hempty | ⟨program, result, run, hprogram, hruns, hclears, -⟩
  · cases hempty
  · cases hprogram
    exact ⟨result, run, hruns, hclears⟩

end ScriptWorks
