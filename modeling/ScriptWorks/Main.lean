import ScriptWorks.CommandLine.Run

/-!
# The tool

The program sees the files whose paths stand on its standard input, one to a line. It runs a command
on them, prints what the command prints, and writes the files that have changed. Programs are not
started.
-/

open ScriptWorks

namespace ScriptWorks.Main

/-- The lines of a stream. -/
partial def readLines (input : IO.FS.Stream) : IO (List String) := do
  let line ← input.getLine
  if line.isEmpty then return []
  return String.ofList (line.toList.filter (· ≠ '\n')) :: (← readLines input)

/-- Puts a file on a disk; takes it away if it cannot be read. -/
def addFile (cwd : Path) (d : Disk) (p : String) : IO Disk := do
  let l := Disk.pathNames (cwd.join ⟨p⟩).normalize
  try
    let bytes ← IO.FS.readBinFile p
    return d.plant l (.file (.ofBytes bytes.toList) none)
  catch _ => return d.remove l

/-- The host with the files of the given paths. -/
def loadHost (paths : List String) : IO Host := do
  let cwd : Path := ⟨toString (← IO.currentDir)⟩
  let l := Disk.pathNames cwd
  return { disk := ← paths.foldlM (addFile cwd) (Disk.plant {} l .dir), cwd := l }

/-- Writes the files that were not so on an earlier disk. -/
def save (before after : Disk) : IO Unit := do
  for (p, text) in after.writtenSince before do
    IO.FS.createDirAll (Disk.parentDir p).text
    IO.FS.writeFile p.text text

def printAll (texts : List String) : IO Unit := do
  texts.forM IO.println
  (← IO.getStdout).flush

def noteAll (texts : List String) : IO Unit := texts.forM IO.eprintln

/-- Reads the watched files again and again, and compiles those that have changed. -/
partial def watch (c : CommandLine.Context) (s : CommandLine.Station) : IO Unit := do
  IO.sleep c.settings.debounce.toUInt32
  let mut s := s
  for key in s.sessions.keys do
    let h := s.world.host
    let disk ← addFile h.cwd.path h.disk key.text
    if h.disk.lookup? (Disk.pathNames key) ≠ disk.lookup? (Disk.pathNames key) then
      let changed := { s with world := { s.world with host := { h with disk } } }
      let (reports, after) := c.toolchain.fileChanged key changed
      save disk after.world.host.disk
      for report in reports do
        let (printed, notes) := c.reportTexts report
        printAll printed
        noteAll notes
      s := after
  watch c s

/-- Runs a command and says how it ended. -/
def runCommand (i : CommandLine.Invocation) : IO UInt32 := do
  let h ← loadHost (← readLines (← IO.getStdin))
  let r := CommandLine.run h (← IO.getEnv "RUST_LOG") i
  save h.disk r.station.world.host.disk
  printAll r.outcome.printed
  noteAll (r.outcome.notes ++ (r.outcome.trouble?.map CommandLine.Trouble.text).toList)
  if let some c := r.context then
    unless r.station.sessions.active.isEmpty do watch c r.station
  return r.outcome.exitCode.toUInt32

end ScriptWorks.Main

open ScriptWorks.Main in
/-- Exits with 2 where the arguments are not allowed. -/
def main (args : List String) : IO UInt32 := do
  match CommandLine.read args with
  | .ok i => runCommand i
  | .error .version =>
    IO.println CommandLine.versionText
    return 0
  | .error .help =>
    IO.println CommandLine.usage
    return 0
  | .error .refused =>
    IO.eprintln CommandLine.usage
    return 2
