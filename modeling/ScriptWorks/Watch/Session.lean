import ScriptWorks.Compilation
import ScriptWorks.Watch.Watcher

/-!
# Watch sessions

A session recompiles a file whenever it changes. There is one session for a key at most, with one
subscription.
-/

namespace ScriptWorks

/-- A file that is watched. -/
structure WatchSession where
  key : Path
  /-- What is done when the file changes. -/
  request : CompileRequest
  subscription : Nat
deriving DecidableEq, Inhabited

/-- A session was opened. -/
structure WatchAck where
  key : Path
  /-- There was a session for the key before. -/
  replaced : Bool
deriving DecidableEq, Inhabited

/-- What a recompilation came to. -/
structure WatchReport where
  key : Path
  outcome : Except Failure Compilation
deriving Inhabited

/-- The record of a report. -/
def WatchReport.toJson (r : WatchReport) : Json :=
  .obj [("key", .str r.key.text),
    ("outcome", match r.outcome with
      | .ok c => .obj [("compiled", c.toJson)]
      | .error failure => .obj [("failed", .str failure.message)])]

/-- The open sessions with the state of the watcher that serves them. -/
structure Sessions (ν : Type) where
  active : List WatchSession := []
  watcher : ν
deriving Inhabited

namespace Sessions

variable {ω ν : Type}

/-- The session of a key. -/
def find? (s : Sessions ν) (key : Path) : Option WatchSession := s.active.find? (·.key.same key)

/-- The keys of all sessions, in the order of paths. -/
def keys (s : Sessions ν) : List Path :=
  (s.active.map (·.key)).mergeSort fun p q => !q.before p

/-- Closes the session of a key. Tells whether there was one. -/
def close (watcher : Watcher ω ν) (key : Path) (s : Sessions ν) : Bool × Sessions ν :=
  match s.find? key with
  | none => (false, s)
  | some old =>
    (true, { active := s.active.filter (!·.key.same key)
             watcher := watcher.unsubscribe old.subscription s.watcher })

/-- Opens a session. An older one for its key is closed before. -/
def start (watcher : Watcher ω ν) (w : ω) (key : Path) (request : CompileRequest)
    (s : Sessions ν) : Except Failure WatchAck × Sessions ν :=
  let (replaced, s) := s.close watcher key
  match watcher.subscribe w key s.watcher with
  | (.error reason, state) => (.error (.watch reason), { s with watcher := state })
  | (.ok subscription, state) =>
    (.ok ⟨key, replaced⟩,
      { active := s.active ++ [⟨key, request, subscription⟩], watcher := state })

/-- Why nothing can be watched outside a runtime. -/
def noRuntime : String :=
  "no async runtime: there is no reactor running, must be called from the context of a Tokio 1.x runtime"

variable [FileSystem ω]

/-- Watches the file of a request. -/
def watch (watcher : Watcher ω ν) (inRuntime : Bool) (w : ω) (r : CompileRequest)
    (s : Sessions ν) : Except Failure WatchAck × Sessions ν :=
  match r.filePath with
  | none => (.error (.invalidRequest .watchNeedsFile), s)
  | some p =>
    if !FileSystem.isFile w p then (.error (.sourceNotFound p), s)
    else if !inRuntime then (.error (.watch noRuntime), s)
    else
      let key := (FileSystem.host w).key p
      s.start watcher w key { r with filePath := some key, watch := false }

/-- Stops watching a path. Tells whether it was watched. -/
def stop (watcher : Watcher ω ν) (w : ω) (p : Path) (s : Sessions ν) : Bool × Sessions ν :=
  s.close watcher ((FileSystem.host w).key p)

/-- Stops all sessions. Tells how many there were. -/
def stopAll (watcher : Watcher ω ν) (s : Sessions ν) : Nat × Sessions ν :=
  (s.active.length,
    { active := []
      watcher := s.active.foldl (fun state o => watcher.unsubscribe o.subscription state) s.watcher })

end Sessions

end ScriptWorks
