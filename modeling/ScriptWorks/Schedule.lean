import ScriptWorks.Gate
import ScriptWorks.Watch.Session

/-!
# Schedules

Compilations and watch sessions as a machine of small steps. A call comes to the gate of its target,
works once it holds the lock, and goes; a change of a watched file makes a call of its own, which
reports to whoever listens. Steps of different calls may be taken in any order, with changes of the
files between them. A step that is not possible changes nothing.
-/

namespace ScriptWorks

/-- How far the work of a call has come. -/
inductive Call.Stage where
  | waiting
  | started
  /-- The sources were read, nothing is written yet. -/
  | prepared (draft : Except Failure Draft)
  | finished (result : Except Failure Compilation)
deriving Inhabited

/-- A compilation that somebody asks for. -/
structure Call where
  request : CompileRequest
  target : CompileTarget
  /-- The key of the watch session that asks. -/
  session : Option Path := none
  stage : Call.Stage := .waiting
  /-- Nobody waits for the result any more. -/
  isAbandoned : Bool := false
  isReported : Bool := false
deriving Inhabited

namespace Call

def result? (c : Call) : Option (Except Failure Compilation) :=
  match c.stage with
  | .finished result => some result
  | _ => none

def isWaiting (c : Call) : Bool :=
  match c.stage with
  | .waiting => true
  | _ => false

/-- The body of the call is at work. -/
def isRunning (c : Call) : Bool :=
  match c.stage with
  | .started | .prepared _ => true
  | _ => false

end Call

/-- A state of the world with all calls and sessions. The number of a call is its place. -/
structure Schedule (ω ν : Type) where
  world : ω
  sessions : Sessions ν
  gate : Gate Nat := {}
  calls : List Call := []
  /-- What the sessions reported, latest last. -/
  reports : List WatchReport := []
deriving Inhabited

/-- A step of a schedule. -/
inductive Schedule.Step (ω : Type) where
  /-- Somebody asks for a compilation. -/
  | ask (request : CompileRequest) (target : CompileTarget)
  | grant (call : Nat)
  | start (call : Nat)
  | prepare (call : Nat)
  | commit (call : Nat)
  | release (call : Nat)
  | forget (call : Nat)
  | report (call : Nat)
  /-- Whoever asked goes away. Work that has begun goes on. -/
  | abandon (call : Nat)
  | watch (request : CompileRequest)
  | stop (path : Path)
  | stopAll
  /-- A change reaches the session of a subscription. -/
  | deliver (subscription : Nat)
  /-- The world changes by itself. -/
  | change (f : ω → ω)

namespace Schedule

variable {ω π ν : Type} [FileSystem ω]

/-- A call comes to the gate of its target. -/
def enqueue (request : CompileRequest) (target : CompileTarget) (session : Option Path)
    (s : Schedule ω ν) : Schedule ω ν :=
  { s with
    gate := s.gate.step (.join s.calls.length ((FileSystem.host s.world).key target.path))
    calls := s.calls ++ [{ request, target, session }] }

def setCall (n : Nat) (c : Call) (s : Schedule ω ν) : Schedule ω ν :=
  { s with calls := s.calls.set n c }

/-- The call holds the lock of its target. -/
def holds (s : Schedule ω ν) (n : Nat) : Bool := (s.gate.ticket? n).any (·.phase = .held)

/-- A call that holds the lock goes to work. -/
def start (n : Nat) (c : Call) (s : Schedule ω ν) : Schedule ω ν :=
  if c.isWaiting && s.holds n then s.setCall n { c with stage := .started } else s

/-- A call at work reads its sources. -/
def prepare (e : Engine ω π) (n : Nat) (c : Call) (s : Schedule ω ν) :
    Schedule ω ν :=
  match c.stage with
  | .started =>
    let (draft, world) := Draft.prepare e c.request c.target s.world
    { s.setCall n { c with stage := .prepared draft } with world }
  | _ => s

/-- A call at work writes its files. -/
def commit (n : Nat) (c : Call) (s : Schedule ω ν) : Schedule ω ν :=
  match c.stage with
  | .prepared (.error failure) => s.setCall n { c with stage := .finished (.error failure) }
  | .prepared (.ok draft) =>
    let (result, world) := draft.commit s.world
    { s.setCall n { c with stage := .finished (.ok result) } with world }
  | _ => s

/-- A call gives the lock back: when its work is done, or when nobody waits for it. -/
def release (n : Nat) (c : Call) (s : Schedule ω ν) : Schedule ω ν :=
  if c.result?.isSome || c.isAbandoned then { s with gate := s.gate.release n } else s

/-- A call of a session reports its result, once it is through the gate. -/
def report (n : Nat) (c : Call) (s : Schedule ω ν) : Schedule ω ν :=
  match c.session, c.result? with
  | some key, some outcome =>
    if c.isReported || (s.gate.ticket? n).isSome then s
    else
      { s.setCall n { c with isReported := true } with
        reports := s.reports ++ [⟨key, outcome⟩] }
  | _, _ => s

/-- Nobody waits for the call any more. If it waits itself, it leaves the gate; its work goes on if
it has begun. Calls of sessions are never abandoned. -/
def abandon (n : Nat) (c : Call) (s : Schedule ω ν) : Schedule ω ν :=
  if c.session.isSome then s
  else
    { s.setCall n { c with isAbandoned := true } with
      gate := s.gate.run [.cancel n, .release n] }

/-- A change reaches the session of a subscription, which asks for its compilation. -/
def deliver (subscription : Nat) (s : Schedule ω ν) : Schedule ω ν :=
  match s.sessions.active.find? (·.subscription = subscription) with
  | none => s
  | some session =>
    match session.request.target with
    | .ok target => s.enqueue session.request target (some session.key)
    | .error fault =>
      { s with reports := s.reports ++ [⟨session.key, .error (.invalidRequest fault)⟩] }

/-- Does something with a call, if there is one of that number. -/
def withCall (s : Schedule ω ν) (n : Nat) (f : Nat → Call → Schedule ω ν → Schedule ω ν) :
    Schedule ω ν :=
  match s.calls[n]? with
  | some c => f n c s
  | none => s

def step (e : Engine ω π) (watcher : Watcher ω ν) (s : Schedule ω ν) : Step ω → Schedule ω ν
  | .ask request target => s.enqueue request target none
  | .grant n => { s with gate := s.gate.grant n }
  | .start n => s.withCall n start
  | .prepare n => s.withCall n (prepare e)
  | .commit n => s.withCall n commit
  | .release n => s.withCall n release
  | .forget n => { s with gate := s.gate.forget n }
  | .report n => s.withCall n report
  | .abandon n => s.withCall n abandon
  | .watch request => { s with sessions := (s.sessions.watch watcher true s.world request).2 }
  | .stop p => { s with sessions := (s.sessions.stop watcher s.world p).2 }
  | .stopAll => { s with sessions := (s.sessions.stopAll watcher).2 }
  | .deliver subscription => s.deliver subscription
  | .change f => { s with world := f s.world }

/-- The schedule after steps. -/
def run (e : Engine ω π) (watcher : Watcher ω ν) (s : Schedule ω ν) (steps : List (Step ω)) :
    Schedule ω ν :=
  steps.foldl (step e watcher) s

/-- All that a call does after it has come to the gate, if nobody is in its way. -/
def courseOf (n : Nat) : List (Step ω) :=
  [.grant n, .start n, .prepare n, .commit n, .release n, .forget n, .report n]

/-- A call from start to end. -/
def call (e : Engine ω π) (watcher : Watcher ω ν) (request : CompileRequest)
    (target : CompileTarget) (s : Schedule ω ν) : Schedule ω ν :=
  s.run e watcher (.ask request target :: courseOf s.calls.length)

/-- A change and what its session does about it, from start to end. -/
def changed (e : Engine ω π) (watcher : Watcher ω ν) (subscription : Nat) (s : Schedule ω ν) :
    Schedule ω ν :=
  s.run e watcher (.deliver subscription :: courseOf s.calls.length)

end Schedule

end ScriptWorks
