import ScriptWorks.Checking
import ScriptWorks.Manager
import ScriptWorks.Schedule

/-!
# The toolchain

The operations of the toolchain, one after another: compiling, watching, checking, and managing
configuration files.
-/

namespace ScriptWorks

/-- An engine and a watcher at work for each other. -/
structure Toolchain (ω π ν : Type) where
  engine : Engine ω π
  watcher : Watcher ω ν

/-- What a request to compile leads to. -/
inductive CompileOutcome where
  | completed (result : Compilation)
  | watching (ack : WatchAck)
deriving Inhabited

namespace Toolchain

variable {ω π ν : Type} [FileSystem ω]

/-- Watches the file of a request; outside a runtime that fails. -/
def watch (t : Toolchain ω π ν) (inRuntime : Bool) (r : CompileRequest) (s : Schedule ω ν) :
    Except Failure WatchAck × Schedule ω ν :=
  let (ack, sessions) := s.sessions.watch t.watcher inRuntime s.world r
  (ack, { s with sessions })

/-- Compiles a target. -/
def compileTarget (t : Toolchain ω π ν) (r : CompileRequest) (target : CompileTarget)
    (s : Schedule ω ν) : Except Failure Compilation × Schedule ω ν :=
  let after := s.call t.engine t.watcher r target
  match after.calls[s.calls.length]?.bind Call.result? with
  | some result => (result, after)
  | none => (.error (.internal "the gate is taken"), after)

/-- Carries out a request to compile. A file is watched if the request says so; a project is compiled
once in any case. -/
def compile (t : Toolchain ω π ν) (r : CompileRequest) (s : Schedule ω ν) :
    Except Failure CompileOutcome × Schedule ω ν :=
  match r.target with
  | .error fault => (.error (.invalidRequest fault), s)
  | .ok target =>
    match r.watch, target with
    | true, .file _ =>
      let (ack, s) := t.watch true r s
      (ack.map .watching, s)
    | _, _ =>
      let (result, s) := t.compileTarget r target s
      (result.map .completed, s)

/-- Stops watching a path. Tells whether it was watched. -/
def stop (t : Toolchain ω π ν) (p : Path) (s : Schedule ω ν) : Bool × Schedule ω ν :=
  let (stopped, sessions) := s.sessions.stop t.watcher s.world p
  (stopped, { s with sessions })

/-- Closes all watch sessions. Tells how many there were. -/
def shutdown (t : Toolchain ω π ν) (s : Schedule ω ν) : Nat × Schedule ω ν :=
  let (count, sessions) := s.sessions.stopAll t.watcher
  (count, { s with sessions })

/-- Tells the session of a subscription of a change. The report comes with the new state. -/
def notify (t : Toolchain ω π ν) (subscription : Nat) (s : Schedule ω ν) :
    Option WatchReport × Schedule ω ν :=
  let after := s.changed t.engine t.watcher subscription
  (after.reports[s.reports.length]?, after)

/-- Tells all sessions that a change of a file concerns of it. -/
def fileChanged (t : Toolchain ω π DirectoryWatch) (p : Path) (s : Schedule ω DirectoryWatch) :
    List WatchReport × Schedule ω DirectoryWatch :=
  (DirectoryWatch.receivers (FileSystem.host s.world) p s.sessions.watcher).foldl
    (fun (reports, s) n =>
      let (report, s) := t.notify n s
      (reports ++ report.toList, s)) ([], s)

/-- Does something that changes nothing but the world. -/
def onWorld {α : Type} (f : ω → α × ω) (s : Schedule ω ν) : α × Schedule ω ν :=
  let (a, world) := f s.world
  (a, { s with world })

def check (t : Toolchain ω π ν) (r : CheckRequest) :
    Schedule ω ν → Except Failure TypeCheck × Schedule ω ν :=
  onWorld (TypeCheck.ofRequest t.engine r)

def diagnostics (t : Toolchain ω π ν) (r : CheckRequest) :
    Schedule ω ν → Except Failure String × Schedule ω ν :=
  onWorld (TypeCheck.rendered t.engine r)

def checkSyntax (t : Toolchain ω π ν) (p : Path) :
    Schedule ω ν → Except Failure SyntaxCheck × Schedule ω ν :=
  onWorld (SyntaxCheck.ofPath t.engine p)

def createConfig (t : Toolchain ω π ν) (dir : Path) (settings : Dict Json) :
    Schedule ω ν → Except Failure Manager.Written × Schedule ω ν :=
  onWorld fun w => Manager.create w t.engine.configFileName dir settings

def updateConfig (t : Toolchain ω π ν) (p : Path) (settings : Dict Json) :
    Schedule ω ν → Except Failure Manager.Written × Schedule ω ν :=
  onWorld fun w => Manager.update w t.engine.configFileName p settings

end Toolchain

end ScriptWorks
