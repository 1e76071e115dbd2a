import ScriptWorks.FileSystem.Host

/-!
# Processes

Finding and starting programs on a host.
-/

namespace ScriptWorks

/-- What a program did. -/
structure ProcessResult where
  behaviour : Behaviour
  /-- The directory it ran in. -/
  cwd : Path
deriving Inhabited

namespace ExitStatus

def isSuccess : ExitStatus → Bool
  | .code n => n = 0
  | .signal _ => false

/-- The names of the signals from 1 on. -/
def signalNames : List String :=
  ["SIGHUP", "SIGINT", "SIGQUIT", "SIGILL", "SIGTRAP", "SIGABRT", "SIGBUS", "SIGFPE", "SIGKILL",
    "SIGUSR1", "SIGSEGV", "SIGUSR2", "SIGPIPE", "SIGALRM", "SIGTERM", "SIGSTKFLT", "SIGCHLD",
    "SIGCONT", "SIGSTOP", "SIGTSTP", "SIGTTIN", "SIGTTOU", "SIGURG", "SIGXCPU", "SIGXFSZ",
    "SIGVTALRM", "SIGPROF", "SIGWINCH", "SIGIO", "SIGPWR", "SIGSYS"]

def text : ExitStatus → String
  | .code n => s!"exit status: {n}"
  | .signal n =>
    match n, signalNames[n - 1]? with
    | _ + 1, some name => s!"signal: {n} ({name})"
    | _, _ => s!"signal: {n}"

end ExitStatus

namespace Host

/-- Starts the program at a location. -/
def start (h : Host) (cwd : Location) (p : Path) : Except FileError Behaviour := do
  match ← h.disk.node cwd p with
  | (_, .file _ (some b)) => return b
  | _ => throw .permissionDenied

/-- A program that can be started is at the path. -/
def isProgram (h : Host) (p : Path) : Bool := (h.start h.cwd p).isOk

/-- The first program of a name on the search path. -/
def which? (h : Host) (name : String) : Option Path :=
  (h.searchPath.map (·.child name)).find? h.isProgram

/-- Starts the first program of a name in directories. Where nothing can be started the reason is that
one was denied, else the last reason. -/
def startNamed (h : Host) (cwd : Location) (name : String) :
    FileError → List Path → Except FileError Behaviour
  | reason, [] => .error reason
  | reason, dir :: dirs =>
    match h.start cwd (dir.child name) with
    | .ok b => .ok b
    | .error .permissionDenied => h.startNamed cwd name .permissionDenied dirs
    | .error e =>
      if e = .notFound ∨ e = .notDirectory then
        h.startNamed cwd name (if reason = .permissionDenied then reason else e) dirs
      else .error e

/-- Runs a program in a directory. A name without slashes is looked for on the search path; other
paths are seen from that directory. -/
def run (h : Host) (program dir : Path) : Except FileError ProcessResult := do
  let (cwd, node) ← h.disk.node h.cwd dir
  if node ≠ .dir then throw .notDirectory
  let behaviour ←
    if program.chars.contains '\x00' then throw .nulInProgram
    else if program.isEmpty then throw .notFound
    else if program.text.toList.contains '/' then h.start cwd program
    else h.startNamed cwd program.text .notFound h.searchPath
  return ⟨behaviour, cwd.path⟩

end Host

end ScriptWorks
