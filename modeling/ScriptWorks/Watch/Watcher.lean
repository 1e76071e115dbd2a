import ScriptWorks.FileSystem.Host
import ScriptWorks.Text.Quoted

/-!
# Watchers

A watcher opens subscriptions to changes of files. One kind watches the directory of a file on a
disk; another one records subscriptions, for rehearsals.
-/

namespace ScriptWorks

/-- A watcher with states `ν` in a world of states `ω`. Subscriptions have numbers. -/
structure Watcher (ω ν : Type) where
  /-- Opens a subscription to a file, or says why that fails. -/
  subscribe : ω → Path → ν → Except String Nat × ν
  /-- Closes a subscription. Closing it again does nothing. -/
  unsubscribe : Nat → ν → ν

/-! ## Directories on a disk -/

/-- Open subscriptions to the directories of files. -/
structure DirectoryWatch where
  opened : Nat := 0
  live : List (Nat × Path) := []
deriving Inhabited

namespace DirectoryWatch

/-- The directory that is watched for a file. -/
def directoryOf (p : Path) : Path :=
  match p.parent? with
  | some dir => if dir.isEmpty then ⟨"."⟩ else dir
  | none => ⟨"."⟩

/-- Why a directory cannot be watched. -/
def refusal (h : Host) (dir : Path) (cause : FileError) : String :=
  let reason := if cause = .notFound then "No path was found." else cause.message
  let place := Text.quoteList [(h.cwd.path.join dir).text]
  s!"{dir.text}: {reason} about {place}"

def subscribe (h : Host) (p : Path) (s : DirectoryWatch) : Except String Nat × DirectoryWatch :=
  let dir := directoryOf p
  match h.disk.node h.cwd dir with
  | .error cause => (.error (refusal h dir cause), s)
  | .ok _ => (.ok s.opened, { opened := s.opened + 1, live := s.live ++ [(s.opened, p)] })

def unsubscribe (n : Nat) (s : DirectoryWatch) : DirectoryWatch :=
  { s with live := s.live.filter (·.1 ≠ n) }

/-- A change of the file `q` is a change of the watched file `p`: same directory, same name. -/
def concerns (h : Host) (p q : Path) : Bool :=
  p.fileName? = q.fileName? && (h.key (directoryOf p)).same (h.key (directoryOf q))

/-- The open subscriptions that a change of a file concerns. -/
def receivers (h : Host) (q : Path) (s : DirectoryWatch) : List Nat :=
  (s.live.filter fun (_, p) => concerns h p q).map (·.1)

end DirectoryWatch

/-- Watches directories on a disk. -/
def Watcher.directories {ω : Type} [FileSystem ω] : Watcher ω DirectoryWatch where
  subscribe w := DirectoryWatch.subscribe (FileSystem.host w)
  unsubscribe := DirectoryWatch.unsubscribe

/-! ## Records of subscriptions -/

/-- What a recording watcher knows. -/
structure Recording where
  opened : Nat := 0
  live : List (Nat × Path) := []
  /-- The most subscriptions that were open at one time, by path. -/
  peaks : List (Path × Nat) := []
  /-- The subscriptions that get the events of a path: always the one that was opened last. -/
  receivers : List (Path × Nat) := []
  /-- The next subscription fails. -/
  failsNext : Bool := false
deriving Inhabited

namespace Recording

/-- The number of open subscriptions to a path. -/
def liveCount (s : Recording) (p : Path) : Nat := s.live.countP (·.2.same p)

def totalLive (s : Recording) : Nat := s.live.length

def peak (s : Recording) (p : Path) : Nat := ((s.peaks.find? (·.1.same p)).map (·.2)).getD 0

/-- The subscription that gets the events of a path. -/
def receiver? (s : Recording) (p : Path) : Option Nat :=
  (s.receivers.find? (·.1.same p)).map (·.2)

/-- The table with a value stored under a path. -/
def store (p : Path) (n : Nat) (table : List (Path × Nat)) : List (Path × Nat) :=
  (p, n) :: table.filter (!·.1.same p)

def subscribe (p : Path) (s : Recording) : Except String Nat × Recording :=
  if s.failsNext then (.error "scripted watch failure", { s with failsNext := false })
  else
    (.ok s.opened,
      { s with
        opened := s.opened + 1
        live := s.live ++ [(s.opened, p)]
        peaks := store p (max (s.peak p) (s.liveCount p + 1)) s.peaks
        receivers := store p s.opened s.receivers })

/-- Closes a subscription. Whichever subscription gets the events of its path gets none any more. -/
def unsubscribe (n : Nat) (s : Recording) : Recording :=
  match s.live.find? (·.1 = n) with
  | none => s
  | some (_, p) =>
    { s with
      live := s.live.filter (·.1 ≠ n)
      receivers := s.receivers.filter (!·.1.same p) }

end Recording

/-- Records subscriptions and opens none. -/
def Watcher.recording {ω : Type} : Watcher ω Recording where
  subscribe _ := Recording.subscribe
  unsubscribe := Recording.unsubscribe

end ScriptWorks
