import ScriptWorks.Toolchain

/-!
# Calls that meet nobody

A call that comes to an idle gate gets the lock at once, does all its work, and leaves the gate idle.
Its result is that of the compilation itself.
-/

namespace ScriptWorks

namespace Gate

variable {τ : Type} [DecidableEq τ]

/-- Nobody is at the gate, and nothing is left of those who were. -/
def IsIdle (g : Gate τ) : Prop := g.table = [] ∧ g.tickets = []

def solitary (id : τ) (key : Path) (lock : Nat) (phase : Phase) : Gate τ :=
  { table := [(key, lock)], tickets := [⟨id, key, lock, phase⟩], nextLock := lock + 1 }

theorem join_of_isIdle {g : Gate τ} (hg : g.IsIdle) (id : τ) (key : Path) :
    g.step (.join id key) = solitary id key g.nextLock .waiting := by
  obtain ⟨table, tickets, nextLock⟩ := g
  obtain ⟨rfl, rfl⟩ := hg
  simp [step, ticket?, join, lockOf?, solitary]

theorem grant_solitary (id : τ) (key : Path) (lock : Nat) :
    (solitary id key lock .waiting).grant id = solitary id key lock .held := by
  simp [grant, ticket?, isReady, isHeld, queue, setPhase, solitary]

theorem release_solitary (id : τ) (key : Path) (lock : Nat) :
    (solitary id key lock .held).release id = solitary id key lock .leaving := by
  simp [release, ticket?, setPhase, solitary]

theorem forget_solitary (id : τ) (key : Path) (lock : Nat) :
    (solitary id key lock .leaving).forget id = { nextLock := lock + 1 } := by
  have hsame : key.same key = true := decide_eq_true rfl
  simp [forget, ticket?, removeTicket, sweep, isShared, queue, solitary, hsame]

end Gate

def Call.completed (r : CompileRequest) (target : CompileTarget)
    (result : Except Failure Compilation) : Call :=
  { request := r, target, stage := .finished result }

/-- The call of a session that has reported its result. -/
def Call.reported (r : CompileRequest) (target : CompileTarget) (key : Path)
    (result : Except Failure Compilation) : Call :=
  { Call.completed r target result with session := some key, isReported := true }

namespace Schedule

section

variable {ω ν : Type}

/-- The schedule with one more call, which is alone at the gate. -/
def solitary (s : Schedule ω ν) (key : Path) (lock : Nat) (phase : Gate.Phase) (c : Call) :
    Schedule ω ν :=
  { s with gate := .solitary s.calls.length key lock phase, calls := s.calls ++ [c] }

variable (s : Schedule ω ν) (key : Path) (lock : Nat) (phase : Gate.Phase) (c : Call)

theorem withCall_solitary (f : Nat → Call → Schedule ω ν → Schedule ω ν) :
    (s.solitary key lock phase c).withCall s.calls.length f =
      f s.calls.length c (s.solitary key lock phase c) := by
  simp [withCall, solitary]

theorem setCall_solitary (c' : Call) :
    (s.solitary key lock phase c).setCall s.calls.length c' = s.solitary key lock phase c' := by
  simp [setCall, solitary]

theorem holds_solitary : (s.solitary key lock .held c).holds s.calls.length = true := by
  simp [holds, solitary, Gate.solitary, Gate.ticket?]

end

variable {ω π ν : Type} [FileSystem ω]

/-- A prepared call that commits has the result of the compilation, and so has the world. -/
theorem commit_solitary (e : Engine ω π) (r : CompileRequest) (target : CompileTarget)
    {s : Schedule ω ν} {key : Path} {lock : Nat} {draft : Except Failure Draft} {w : ω}
    (hdraft : Draft.prepare e r target w = (draft, s.world)) (c : Call) :
    commit s.calls.length { c with stage := .prepared draft }
        (s.solitary key lock .held { c with stage := .prepared draft }) =
      { s with world := (Compilation.ofTarget e r target w).2 }.solitary key lock .held
        { c with stage := .finished (Compilation.ofTarget e r target w).1 } := by
  unfold Compilation.ofTarget
  rw [hdraft]
  cases draft with
  | error failure => exact setCall_solitary s key lock .held _ _
  | ok d => simp only [commit, setCall_solitary]; rfl

/-- What a call does that has come to an idle gate, up to its report. -/
theorem course_of_isIdle (e : Engine ω π) (watcher : Watcher ω ν) (r : CompileRequest)
    (target : CompileTarget) (session : Option Path) {s : Schedule ω ν} (hs : s.gate.IsIdle) :
    (s.enqueue r target session).run e watcher (courseOf s.calls.length) =
      step e watcher
        { s with
          world := (Compilation.ofTarget e r target s.world).2
          gate := { nextLock := s.gate.nextLock + 1 }
          calls := s.calls ++ [{ Call.completed r target
            (Compilation.ofTarget e r target s.world).1 with session }] }
        (.report s.calls.length) := by
  obtain ⟨draft, left, hdraft⟩ : ∃ draft left, Draft.prepare e r target s.world = (draft, left) :=
    ⟨_, _, rfl⟩
  let n := s.calls.length
  let key := (FileSystem.host s.world).key target.path
  let lock := s.gate.nextLock
  let c : Call := { request := r, target, session }
  let result := Compilation.ofTarget e r target s.world
  have hask : s.enqueue r target session = s.solitary key lock .waiting c := by
    simp only [enqueue, solitary, Gate.join_of_isIdle hs]
    rfl
  have hgrant : step e watcher (s.solitary key lock .waiting c) (.grant n) =
      s.solitary key lock .held c := by
    simp only [step, solitary, n, Gate.grant_solitary]
  have hstart : step e watcher (s.solitary key lock .held c) (.start n) =
      s.solitary key lock .held { c with stage := .started } := by
    simp only [step, n, withCall_solitary, Schedule.start, holds_solitary, setCall_solitary]
    rfl
  have hprepare : step e watcher (s.solitary key lock .held { c with stage := .started })
      (.prepare n) =
        { s with world := left }.solitary key lock .held { c with stage := .prepared draft } := by
    simp only [step, n, withCall_solitary, Schedule.prepare, setCall_solitary]
    have hworld : (s.solitary key lock .held { c with stage := .started }).world = s.world := rfl
    simp only [hworld, c, hdraft]
    rfl
  have hcommit : step e watcher
      ({ s with world := left }.solitary key lock .held { c with stage := .prepared draft })
      (.commit n) =
        { s with world := result.2 }.solitary key lock .held { c with stage := .finished result.1 } :=
    (withCall_solitary _ key lock .held _ commit).trans
      (commit_solitary (s := { s with world := left }) e r target hdraft c)
  have hrelease : step e watcher
      ({ s with world := result.2 }.solitary key lock .held { c with stage := .finished result.1 })
      (.release n) =
        { s with world := result.2 }.solitary key lock .leaving
          { c with stage := .finished result.1 } := by
    refine (withCall_solitary _ key lock .held _ release).trans ?_
    simp only [release, Call.result?, Option.isSome_some, Bool.true_or, if_true, solitary,
      Gate.release_solitary]
  have hforget : step e watcher
      ({ s with world := result.2 }.solitary key lock .leaving { c with stage := .finished result.1 })
      (.forget n) =
        { s with
          world := result.2
          gate := { nextLock := lock + 1 }
          calls := s.calls ++ [{ Call.completed r target result.1 with session }] } := by
    simp only [step, solitary, n, Gate.forget_solitary]
    rfl
  unfold run courseOf
  simp only [List.foldl_cons, List.foldl_nil]
  rw [hask, hgrant, hstart, hprepare, hcommit, hrelease, hforget]

/-- A call that meets nobody goes through the gate, and all that it changes besides is what its
compilation changes. -/
theorem call_of_isIdle (e : Engine ω π) (watcher : Watcher ω ν) (r : CompileRequest)
    (target : CompileTarget) {s : Schedule ω ν} (hs : s.gate.IsIdle) :
    s.call e watcher r target =
      { s with
        world := (Compilation.ofTarget e r target s.world).2
        gate := { nextLock := s.gate.nextLock + 1 }
        calls := s.calls ++ [.completed r target (Compilation.ofTarget e r target s.world).1] } := by
  have hcourse := course_of_isIdle e watcher r target none hs
  simp only [step, withCall, List.getElem?_concat_length] at hcourse
  exact hcourse

/-- A change that reaches a session while nobody is at the gate is compiled and reported. -/
theorem changed_of_isIdle (e : Engine ω π) (watcher : Watcher ω ν) {o : WatchSession}
    {target : CompileTarget} {s : Schedule ω ν} (hs : s.gate.IsIdle)
    (ho : s.sessions.active.find? (·.subscription = o.subscription) = some o)
    (htarget : o.request.target = .ok target) :
    s.changed e watcher o.subscription =
      { s with
        world := (Compilation.ofTarget e o.request target s.world).2
        gate := { nextLock := s.gate.nextLock + 1 }
        calls := s.calls ++ [.reported o.request target o.key
          (Compilation.ofTarget e o.request target s.world).1]
        reports := s.reports ++ [⟨o.key, (Compilation.ofTarget e o.request target s.world).1⟩] } := by
  have hdeliver : step e watcher s (.deliver o.subscription) =
      s.enqueue o.request target (some o.key) := by
    simp only [step, deliver, ho, htarget]
  have hcourse := course_of_isIdle e watcher o.request target (some o.key) hs
  simp only [step, withCall, List.getElem?_concat_length] at hcourse
  unfold changed
  rw [run, List.foldl_cons, hdeliver]
  refine hcourse.trans ?_
  simp [report, Call.completed, Call.result?, Gate.ticket?, setCall, Call.reported]

end Schedule

namespace Toolchain

variable {ω π ν : Type} [FileSystem ω]

/-- Where nobody else is at the gate, compiling a target gives the result of its compilation. -/
theorem compileTarget_of_isIdle (t : Toolchain ω π ν) (r : CompileRequest) (target : CompileTarget)
    {s : Schedule ω ν} (hs : s.gate.IsIdle) :
    (t.compileTarget r target s).1 = (Compilation.ofTarget t.engine r target s.world).1 ∧
      (t.compileTarget r target s).2.world = (Compilation.ofTarget t.engine r target s.world).2 ∧
      (t.compileTarget r target s).2.gate.IsIdle := by
  unfold compileTarget
  rw [Schedule.call_of_isIdle t.engine t.watcher r target hs]
  simp [Call.completed, Call.result?, Gate.IsIdle]

end Toolchain

end ScriptWorks
