import ScriptWorks.Engine.Checked

/-!
# Questions to a checked program

A program is asked for its diagnostics, to be written, and why types were not checked, in any order and
while the world around it changes. The first question that needs the checker runs it, and what it said then
stands in all answers from there on.
-/

namespace ScriptWorks.CheckedProgram

/-- What a program is asked. -/
inductive Question where
  | preEmit
  | syntaxErrors
  | emit
  | uncheckedReason
deriving DecidableEq

/-- What a program answers. -/
inductive Answer where
  | preEmit (found : List Diagnostic)
  | syntaxErrors (found : List Diagnostic)
  | emit (result : Emission)
  | uncheckedReason (reason : Option String)

def Answer.question : Answer → Question
  | .preEmit _ => .preEmit
  | .syntaxErrors _ => .syntaxErrors
  | .emit _ => .emit
  | .uncheckedReason _ => .uncheckedReason

def ask (p : CheckedProgram) : Question → Work Workstation (Answer × CheckedProgram)
  | .preEmit => do
    let (found, p) ← p.preEmit
    return (.preEmit found, p)
  | .syntaxErrors => return (.syntaxErrors p.program.syntaxErrors, p)
  | .emit => do
    let (result, p) ← p.emit
    return (.emit result, p)
  | .uncheckedReason => return (.uncheckedReason p.uncheckedReason, p)

/-- Asks one question after another. Each of them finds a host of its own, on which checkers may behave
differently. -/
def inquire (p : CheckedProgram) :
    List (Host × Question) → Work Workstation (List Answer × CheckedProgram)
  | [] => return ([], p)
  | (host, q) :: turns => do
    modify fun w => { w with host }
    let (a, p) ← p.ask q
    let (answers, p) ← p.inquire turns
    return (a :: answers, p)

/-- What a checker says of a program. -/
abbrev Verdict := Except String (List Diagnostic)

/-- The question cannot be answered without the checker. -/
def consults (program : Program) : Question → Bool
  | .preEmit => program.preEmit.isEmpty
  | .emit => program.preEmit.isEmpty && Program.noEmitOnError program.options
  | .syntaxErrors | .uncheckedReason => false

/-- What is known before anything is written, given what the checker said. -/
def knownWith (program : Program) (v : Option Verdict) : List Diagnostic :=
  if program.preEmit.isEmpty then (v.bind Except.toOption).getD [] else program.preEmit

/-- Why types were not checked, given what the checker said. -/
def reasonWith : Option Verdict → Option String
  | some (.error reason) => some reason
  | _ => none

/-- The answer to a question, given what the checker said. -/
def reply (program : Program) (v : Option Verdict) : Question → Answer
  | .preEmit => .preEmit (knownWith program v)
  | .syntaxErrors => .syntaxErrors program.syntaxErrors
  | .emit => .emit <|
    if Program.noEmitOnError program.options && !(knownWith program v).isEmpty then { skipped := true }
    else program.emit
  | .uncheckedReason => .uncheckedReason (reasonWith v)

/-- The run of the checker for the first question that needs it. -/
def firstRun (program : Program) (checker : Path) (turns : List (Host × Question)) :
    Option (Verdict × Option Checker.Run) :=
  (turns.find? fun t => consults program t.2).map fun t =>
    Checker.run t.1 checker program.rootFiles program.options

variable {program : Program} {checker : Path}

theorem firstRun_cons_of_consults (checker : Path) {t : Host × Question}
    (ht : consults program t.2 = true) (turns : List (Host × Question)) : firstRun program checker (t :: turns) =
      some (Checker.run t.1 checker program.rootFiles program.options) := by
  simp [firstRun, ht]

theorem firstRun_cons (checker : Path) {t : Host × Question} (ht : consults program t.2 = false)
    (turns : List (Host × Question)) :
    firstRun program checker (t :: turns) = firstRun program checker turns := by
  simp [firstRun, ht]

theorem consults_eq_false (hpre : program.preEmit ≠ []) (q : Question) :
    consults program q = false := by
  cases q <;> simp [consults, hpre]

theorem firstRun_eq_none_iff {turns : List (Host × Question)} :
    firstRun program checker turns = none ↔ ∀ t ∈ turns, consults program t.2 = false := by
  simp [firstRun]

theorem starts_nothing_without_roots (hroots : program.rootFiles = [])
    {turns : List (Host × Question)} : (firstRun program checker turns).bind (·.2) = none := by
  rw [firstRun, hroots, Option.bind_map]
  cases turns.find? fun t => consults program t.2 <;> rfl

/-- What was said to the first questions stays what was said. -/
theorem firstRun_take {turns : List (Host × Question)} {n : Nat}
    (hsome : firstRun program checker (turns.take n) ≠ none) :
    firstRun program checker (turns.take n) = firstRun program checker turns := by
  obtain ⟨result, hresult⟩ := Option.ne_none_iff_exists'.mp hsome
  obtain ⟨t, hfind, -⟩ := Option.map_eq_some_iff.mp hresult
  have hall : turns.find? (fun t => consults program t.2) = some t := by
    rw [← List.take_append_drop n turns, List.find?_append, hfind, Option.some_or]
  rw [firstRun, hfind, firstRun, hall]

@[simp] theorem question_reply (program : Program) (v : Option Verdict) (q : Question) :
    (reply program v q).question = q := by
  cases q <;> rfl

/-- Only the reason why types were not checked is told without the checker and depends on it. -/
theorem reply_of_not_consults {q : Question} (hq : consults program q = false)
    (hreason : q ≠ .uncheckedReason) (v v' : Option Verdict) :
    reply program v q = reply program v' q := by
  cases q with
  | uncheckedReason => exact absurd rfl hreason
  | syntaxErrors => rfl
  | preEmit =>
      have hpre : program.preEmit.isEmpty = false := hq
      simp [reply, knownWith, hpre]
  | emit =>
      rcases Bool.and_eq_false_iff.mp hq with hpre | hoption
      · simp [reply, knownWith, hpre]
      · simp [reply, hoption]

/-- A program that must not be written with diagnostics is skipped with them, or because of the option. -/
theorem skipped_iff (hoption : Program.noEmitOnError program.options = true) {v : Option Verdict}
    {result : Emission} (hresult : reply program v .emit = .emit result) :
    result.skipped = true ↔ program.options.isOn .noEmit = true ∨ knownWith program v ≠ [] := by
  obtain rfl := Answer.emit.inj hresult
  by_cases hknown : knownWith program v = []
  · have hpre : program.preEmit = [] := by
      cases hpre : program.preEmit with
      | nil => rfl
      | cons d found => simp [knownWith, hpre] at hknown
    cases hnoEmit : program.options.isOn .noEmit <;> simp [hknown, Program.emit, hnoEmit, hpre]
  · simp [hoption, hknown]

/-! ## One question -/

/-- What the checker said once is not asked again. -/
theorem run_preEmit_of_verdict (v : Verdict) (w : Workstation) :
    (preEmit ⟨program, some checker, some v⟩).run w =
      .ok (knownWith program (some v), ⟨program, some checker, some v⟩) w := by
  unfold preEmit knownWith
  cases hpre : program.preEmit with
  | nil =>
      simp only [consult, pure_bind]
      cases v <;> rfl
  | cons d found => simp

theorem run_preEmit (w : Workstation) :
    let r := firstRun program checker [(w.host, .preEmit)]
    (preEmit ⟨program, some checker, none⟩).run w =
      .ok (knownWith program (r.map (·.1)), ⟨program, some checker, r.map (·.1)⟩)
        { w with runs := w.runs ++ (r.bind (·.2)).toList } := by
  intro r
  cases hpre : program.preEmit with
  | nil =>
      have hr : r = some (Checker.run w.host checker program.rootFiles program.options) := by
        simp [r, firstRun, consults, hpre]
      simp only [hr, preEmit, consult, hpre, bind_assoc, EStateM.run_bind, EStateM.run_get,
        EStateM.run_set, pure_bind]
      cases hrun : Checker.run w.host checker program.rootFiles program.options with
      | mk v run => cases v <;> simp [knownWith, hpre, Except.toOption]
  | cons d found =>
      have hr : r = none := by simp [r, firstRun, consults, hpre]
      simp [hr, preEmit, hpre, knownWith]

theorem run_ask_of_verdict (v : Verdict) (q : Question) (w : Workstation) :
    (ask ⟨program, some checker, some v⟩ q).run w =
      .ok (reply program (some v) q, ⟨program, some checker, some v⟩) w := by
  cases q with
  | syntaxErrors | uncheckedReason => cases v <;> rfl
  | preEmit =>
      rw [ask, EStateM.run_bind, run_preEmit_of_verdict]
      rfl
  | emit =>
      rw [ask, EStateM.run_bind, reply, emit]
      cases Program.noEmitOnError program.options with
      | false => simp
      | true =>
          simp only [Option.isSome_some, Bool.and_self, if_true, Bool.true_and, EStateM.run_bind,
            run_preEmit_of_verdict]
          cases knownWith program (some v) <;> rfl

theorem run_ask (program : Program) (checker : Path) (q : Question) (w : Workstation) :
    let r := firstRun program checker [(w.host, q)]
    (ask ⟨program, some checker, none⟩ q).run w =
      .ok (reply program (r.map (·.1)) q, ⟨program, some checker, r.map (·.1)⟩)
        { w with runs := w.runs ++ (r.bind (·.2)).toList } := by
  intro r
  cases q with
  | syntaxErrors | uncheckedReason => simp [r, firstRun, consults, ask, reply, reasonWith, uncheckedReason]
  | preEmit =>
      rw [ask, EStateM.run_bind, run_preEmit]
      rfl
  | emit =>
      rw [ask, EStateM.run_bind, reply, emit]
      cases hoption : Program.noEmitOnError program.options with
      | false => simp [r, firstRun, consults, hoption]
      | true =>
          have hr : firstRun program checker [(w.host, .preEmit)] = r := by
            simp [r, firstRun, consults, hoption]
          simp only [Option.isSome_some, Bool.and_self, if_true, Bool.true_and, EStateM.run_bind,
            run_preEmit, hr]
          cases knownWith program (r.map (·.1)) <;> rfl

/-! ## Many questions -/

theorem run_inquire_cons {p p₁ p₂ : CheckedProgram} {t : Host × Question}
    {turns : List (Host × Question)} {a : Answer} {answers : List Answer} {w w₁ w₂ : Workstation}
    (hask : (p.ask t.2).run { w with host := t.1 } = .ok (a, p₁) w₁)
    (hrest : (p₁.inquire turns).run w₁ = .ok (answers, p₂) w₂) :
    (p.inquire (t :: turns)).run w = .ok (a :: answers, p₂) w₂ := by
  simp only [inquire, EStateM.run_bind, EStateM.run_modify, hask, hrest]
  rfl

theorem run_inquire_of_verdict (program : Program) (checker : Path) (v : Verdict)
    (turns : List (Host × Question)) (w : Workstation) :
    ∃ w', (inquire ⟨program, some checker, some v⟩ turns).run w =
        .ok (turns.map fun t => reply program (some v) t.2, ⟨program, some checker, some v⟩) w' ∧
      w'.runs = w.runs := by
  induction turns generalizing w with
  | nil => exact ⟨w, rfl, rfl⟩
  | cons t turns ih =>
      obtain ⟨w', hrun, hruns⟩ := ih { w with host := t.1 }
      exact ⟨w', run_inquire_cons (run_ask_of_verdict v t.2 _) hrun, hruns⟩

/-- Each answer is given with what the checker said for the first question that needed it, up to the one
that is answered. -/
def Told (program : Program) (checker : Path) (turns : List (Host × Question))
    (answers : List Answer) : Prop :=
  ∀ i, answers[i]? = turns[i]?.map fun t =>
    reply program ((firstRun program checker (turns.take (i + 1))).map (·.1)) t.2

theorem run_inquire (program : Program) (checker : Path) (turns : List (Host × Question))
    (w : Workstation) :
    ∃ answers w', (inquire ⟨program, some checker, none⟩ turns).run w =
        .ok (answers, ⟨program, some checker, (firstRun program checker turns).map (·.1)⟩) w' ∧
      w'.runs = w.runs ++ ((firstRun program checker turns).bind (·.2)).toList ∧
      Told program checker turns answers := by
  induction turns generalizing w with
  | nil => exact ⟨[], w, rfl, by simp [firstRun], by simp [Told]⟩
  | cons t turns ih =>
      have hask := run_ask program checker t.2 { w with host := t.1 }
      cases ht : consults program t.2 with
      | true =>
          have hfirst := firstRun_cons_of_consults checker ht
          generalize Checker.run t.1 checker program.rootFiles program.options = result at hfirst
          rw [hfirst []] at hask
          obtain ⟨w', hrun, hruns⟩ := run_inquire_of_verdict program checker result.1 turns
            { host := t.1, runs := w.runs ++ result.2.toList }
          rw [hfirst turns]
          refine ⟨_, w', run_inquire_cons hask hrun, hruns, fun i => ?_⟩
          rw [List.take_succ_cons, hfirst]
          cases i <;> simp
      | false =>
          have hfirst := firstRun_cons checker ht
          have hnone : firstRun program checker [] = none := rfl
          rw [hfirst [], hnone] at hask
          obtain ⟨answers, w', hrun, hruns, htold⟩ := ih { host := t.1, runs := w.runs ++ [] }
          rw [hfirst turns]
          refine ⟨_, w', run_inquire_cons hask hrun, by simpa using hruns, fun i => ?_⟩
          rw [List.take_succ_cons, hfirst]
          cases i with
          | zero => simp [hnone]
          | succ i => simpa using htold i

/-- Whoever needs the checker is told what it said, and so is whoever comes later. -/
theorem firstRun_take_of_consults {turns : List (Host × Question)} {i n : Nat} (hle : i ≤ n)
    (hconsults : ∃ t ∈ turns.take i, consults program t.2 = true) :
    firstRun program checker (turns.take n) = firstRun program checker turns := by
  obtain ⟨t, ht, hconsults⟩ := hconsults
  have hmem : t ∈ turns.take n := (List.take_prefix_take_left hle).subset ht
  refine firstRun_take fun hnone => ?_
  rw [firstRun_eq_none_iff.mp hnone t hmem] at hconsults
  cases hconsults

section Told

variable {turns : List (Host × Question)} {answers : List Answer}
  (htold : Told program checker turns answers)
include htold

theorem Told.questions : answers.map Answer.question = turns.map (·.2) := by
  refine List.ext_getElem? fun i => ?_
  rw [List.getElem?_map, htold, List.getElem?_map]
  cases turns[i]? <;> simp

/-- Some of the first answers needed the checker, and so did some of the first questions. -/
theorem Told.exists_consults_iff (i : Nat) :
    (∃ a ∈ answers.take i, consults program a.question = true) ↔
      ∃ t ∈ turns.take i, consults program t.2 = true := by
  have hasked : (answers.take i).map Answer.question = (turns.take i).map (·.2) := by
    rw [List.map_take, htold.questions, List.map_take]
  have hany := congrArg (List.any · (consults program)) hasked
  simp only [List.any_map] at hany
  rw [← List.any_eq_true, ← List.any_eq_true]
  exact Bool.eq_iff_iff.mp hany

/-- Only the reason why types were not checked depends on when it is asked for. -/
theorem Told.eq_reply {a : Answer} (ha : a ∈ answers) (hreason : a.question ≠ .uncheckedReason) :
    a = reply program ((firstRun program checker turns).map (·.1)) a.question := by
  obtain ⟨i, hi⟩ := List.mem_iff_getElem?.mp ha
  rw [htold] at hi
  obtain ⟨t, ht, rfl⟩ := Option.map_eq_some_iff.mp hi
  rw [question_reply] at hreason ⊢
  cases hconsults : consults program t.2 with
  | false => exact reply_of_not_consults hconsults hreason _ _
  | true =>
      have hmem : t ∈ turns.take (i + 1) := List.mem_of_getElem? (i := i) (by simpa using ht)
      rw [firstRun_take_of_consults (Nat.le_refl _) ⟨t, hmem, hconsults⟩]

/-- Why types were not checked is told from the run that was made before. -/
theorem Told.reason_eq {i : Nat} {reason : Option String}
    (hi : answers[i]? = some (.uncheckedReason reason)) :
    reason = reasonWith ((firstRun program checker (turns.take i)).map (·.1)) := by
  rw [htold] at hi
  obtain ⟨t, ht, hreply⟩ := Option.map_eq_some_iff.mp hi
  have hquestion : t.2 = .uncheckedReason := by
    rw [← question_reply program _ t.2, hreply, Answer.question]
  have hconsults : consults program t.2 = false := by rw [hquestion, consults]
  have hfind : firstRun program checker (turns.take (i + 1)) =
      firstRun program checker (turns.take i) := by
    simp [firstRun, List.take_add_one, ht, List.find?_append, hconsults]
  rw [hquestion, hfind] at hreply
  exact (Answer.uncheckedReason.inj hreply).symm

end Told

/-- The checker is run for the first question that needs it and for no other, and not at all if the sources
are not clean or there are none. All lists of diagnostics are the same, programs that must not be written
with diagnostics are not, and the reason why types were not checked stays what it is once the checker was
needed. -/
theorem checker_runs_once_for_program (program : Program) (checker : Path)
    (turns : List (Host × Question)) (w : Workstation) :
    ∃ answers p w', (inquire ⟨program, some checker, none⟩ turns).run w = .ok (answers, p) w' ∧
      answers.map Answer.question = turns.map (·.2) ∧
      (∃ runs, w'.runs = w.runs ++ runs ∧ runs.length ≤ 1 ∧
        (program.preEmit ≠ [] ∨ program.rootFiles = [] → runs = [])) ∧
      (∃ known, (∀ found, .preEmit found ∈ answers → found = known) ∧
        (Program.noEmitOnError program.options = true → ∀ result, .emit result ∈ answers →
          (result.skipped = true ↔ program.options.isOn .noEmit = true ∨ known ≠ []))) ∧
      ∀ i reason, answers[i]? = some (.uncheckedReason reason) →
        ((∀ a ∈ answers.take i, consults program a.question = false) → reason = none) ∧
        ((∃ a ∈ answers.take i, consults program a.question = true) →
          ∀ j reason', i ≤ j → answers[j]? = some (.uncheckedReason reason') → reason' = reason) := by
  obtain ⟨answers, w', hrun, hruns, htold⟩ := run_inquire program checker turns w
  refine ⟨answers, _, w', hrun, htold.questions, ⟨_, hruns, ?once, ?never⟩,
    ⟨knownWith program ((firstRun program checker turns).map (·.1)), ?same, ?skipped⟩, ?reason⟩
  case once => cases (firstRun program checker turns).bind (·.2) <;> simp
  case never =>
    rintro (hpre | hroots)
    · rw [firstRun_eq_none_iff.mpr fun t _ => consults_eq_false hpre t.2]
      rfl
    · rw [starts_nothing_without_roots hroots]
      rfl
  case same => exact fun found hfound => Answer.preEmit.inj (htold.eq_reply hfound nofun)
  case skipped =>
    exact fun hoption result hresult => skipped_iff hoption (htold.eq_reply hresult nofun).symm
  case reason =>
    intro i reason hi
    have hreason := htold.reason_eq hi
    refine ⟨fun hnone => ?_, fun hsome j reason' hle hj => ?_⟩
    · have hfirst : firstRun program checker (turns.take i) = none := by
        refine firstRun_eq_none_iff.mpr fun t ht => Bool.eq_false_iff.mpr fun hconsults => ?_
        obtain ⟨a, ha, hneeds⟩ := (htold.exists_consults_iff i).mpr ⟨t, ht, hconsults⟩
        rw [hnone a ha] at hneeds
        cases hneeds
      rw [hreason, hfirst, Option.map_none, reasonWith]
      nofun
    · have hbefore := (htold.exists_consults_iff i).mp hsome
      rw [hreason, htold.reason_eq hj, firstRun_take_of_consults hle hbefore,
        firstRun_take_of_consults (Nat.le_refl i) hbefore]

end ScriptWorks.CheckedProgram
