import ScriptWorks.CommandLine.Command
import ScriptWorks.Small.Compiler
import ScriptWorks.LogFilter
import ScriptWorks.Settings
import ScriptWorks.Toolchain

/-!
# Running commands

What a command does on a host, and what it prints.
-/

namespace ScriptWorks.CommandLine

/-- A toolchain at work on a host. -/
abbrev Station := Schedule Workstation DirectoryWatch

/-- The tools of a run and how results are shown. -/
structure Context where
  toolchain : Toolchain Workstation CheckedProgram DirectoryWatch
  settings : Settings
  json : Bool

/-- Why a command ends without a result: what was tried, and what stood in the way. -/
structure Trouble where
  attempt : String
  causes : List String := []
deriving DecidableEq, Inhabited

namespace Trouble

/-- The causes of a failure, the nearest one first. -/
def causesOf : Failure → List String
  | .io p cause => [(Failure.io p cause).message, cause.message]
  | failure => [failure.message]

def ofFailure (attempt : String) (failure : Failure) : Trouble := ⟨attempt, causesOf failure⟩

/-- A text with its lines behind a margin. -/
def indented (first margin text : String) : String :=
  first ++ String.intercalate ("\n" ++ margin) (Text.cutString '\n' text)

/-- The report of a trouble. Several causes are numbered. -/
def text (t : Trouble) : String :=
  let causes := match t.causes with
    | [] => ""
    | [cause] => "\n\nCaused by:\n" ++ indented "    " "    " cause
    | causes =>
      "\n\nCaused by:" ++ String.join (causes.zipIdx.map fun (cause, n) =>
        let number := toString n
        "\n" ++ indented (String.ofList (List.replicate (5 - number.length) ' ') ++ number ++ ": ")
          "       " cause)
  "Error: " ++ t.attempt ++ causes

end Trouble

/-- How a command ends. -/
inductive Ending where
  /-- With a result, which tells whether all is well. -/
  | result (isGood : Bool)
  | trouble (t : Trouble)
  /-- It breaks down and says nothing more. -/
  | breakdown
deriving DecidableEq, Inhabited

/-- What a command did. -/
structure Outcome where
  /-- Texts for the standard output, each with a line's end after it. -/
  printed : List String := []
  /-- Texts for the standard error output. -/
  notes : List String := []
  ending : Ending := .result true
deriving Inhabited

namespace Outcome

/-- The exit code. -/
def exitCode (o : Outcome) : Nat :=
  match o.ending with
  | .result true => 0
  | .result false | .trouble _ => 1
  | .breakdown => 101

/-- The standard output. -/
def output (o : Outcome) : String := String.join (o.printed.map (· ++ "\n"))

def trouble? (o : Outcome) : Option Trouble :=
  match o.ending with
  | .trouble t => some t
  | _ => none

end Outcome

/-! ## What is printed -/

namespace Context

/-- Diagnostics in the format that is set, and a line of numbers. -/
def problemTexts (c : Context) (ps : List Problem) : List String :=
  (if ps.isEmpty then [] else [render ps (c.settings.outputFormat c.json)]) ++
    [(Summary.ofProblems ps).line]

/-- What is printed of a compilation. Times are not measured. -/
def compilationTexts (c : Context) (r : Compilation) : List String :=
  if c.json then [r.toJson.pretty]
  else
    r.outputFiles.map (fun f => s!"  wrote {f.path.text}") ++ c.problemTexts r.diagnostics ++
      [if r.success then "Compiled in 0ms" else "Compilation failed in 0ms"]

/-- What is printed of a report, on the standard output and on the error output. -/
def reportTexts (c : Context) (r : WatchReport) : List String × List String :=
  if c.json then ([r.toJson.pretty], [])
  else
    let heading := s!"\n[{r.key.text}] changed"
    match r.outcome with
    | .ok result => (heading :: c.compilationTexts result, [])
    | .error failure => ([heading], [s!"Recompile failed: {failure.message}"])

end Context

/-- The record of a configuration file that was written. -/
def writtenJson (w : Manager.Written) : Json :=
  .obj [("path", .str w.path.text), ("config", w.config)]

/-! ## Commands -/

variable (c : Context)

/-- The outcome of an operation that may fail. -/
def outcomeOf {α : Type} (attempt : String) (present : α → List String × Bool) :
    Except Failure α → Outcome
  | .error failure => { ending := .trouble (.ofFailure attempt failure) }
  | .ok a => { printed := (present a).1, ending := .result (present a).2 }

/-- Compiles once, and then starts watching if that is asked for. Watching goes on as long as sessions
are open. -/
def compile (r : CompileRequest) (watch : Bool) (s : Station) : Outcome × Station :=
  let label := ((r.filePath.or r.projectPath).map Path.text).getD ""
  match c.toolchain.compile r s with
  | (.error failure, s) => ({ ending := .trouble (.ofFailure s!"failed to compile {label}" failure) }, s)
  | (.ok (.watching _), s) => ({}, s)
  | (.ok (.completed result), s) =>
    let first : Outcome := { printed := c.compilationTexts result, ending := .result result.success }
    if !watch then (first, s)
    else if r.filePath.isNone then
      ({ first with
         notes := ["--watch applies to single files; the project was compiled once."] }, s)
    else
      match c.toolchain.watch true r s with
      | (.error failure, s) =>
        ({ first with ending := .trouble (.ofFailure "failed to start watching" failure) }, s)
      | (.ok ack, s) =>
        let line := if c.json then [] else [s!"Watching {ack.key.text} (Ctrl-C to stop)"]
        ({ printed := first.printed ++ line }, s)

def check (r : CheckRequest) (s : Station) : Outcome × Station :=
  let (result, s) := c.toolchain.check r s
  (outcomeOf s!"failed to type check {r.path.text}" (fun t =>
    (if c.json then [t.toJson.pretty] else c.problemTexts t.diagnostics, t.success)) result, s)

def diagnostics (p : Path) (format : Option OutputFormat) (s : Station) : Outcome × Station :=
  let format := format.getD (c.settings.outputFormat c.json)
  let (result, s) := c.toolchain.diagnostics { path := p, format := some format } s
  (outcomeOf s!"failed to collect diagnostics for {p.text}" (fun text =>
    (if text.isEmpty then [] else [text], true)) result, s)

def syntaxCheck (p : Path) (s : Station) : Outcome × Station :=
  let (result, s) := c.toolchain.checkSyntax p s
  (outcomeOf s!"failed to validate {p.text}" (fun t =>
    (if c.json then [t.toJson.pretty]
     else if t.isValid then [s!"No syntax errors in {p.text}"]
     else c.problemTexts t.errors, t.isValid)) result, s)

def initConfig (dir : Path) (settings : List (String × Json)) (s : Station) : Outcome × Station :=
  let (result, s) := c.toolchain.createConfig dir (Dict.ofList settings) s
  (outcomeOf s!"failed to create configuration in {dir.text}" (fun w =>
    ([if c.json then (writtenJson w).pretty else s!"Created {w.path.text}"], true)) result, s)

def updateConfig (p : Path) (settings : List (String × Json)) (s : Station) : Outcome × Station :=
  let (result, s) := c.toolchain.updateConfig p (Dict.ofList settings) s
  let count := settings.length
  (outcomeOf s!"failed to update {p.text}" (fun w =>
    ([if c.json then (writtenJson w).pretty
      else s!"Updated {w.path.text} ({count} option(s))"], true)) result, s)

def runCommand : Command → Station → Outcome × Station
  | .compile r watch => compile c r watch
  | .check r => check c r
  | .diagnostics p format => diagnostics c p format
  | .syntaxCheck p => syntaxCheck c p
  | .initConfig dir settings => initConfig c dir settings
  | .updateConfig p settings => updateConfig c p settings

/-! ## The tool -/

/-- The tools for settings on a host. -/
def contextFor (compiler : Compiler) (h : Host) (settings : Settings) (json : Bool) : Context where
  toolchain := { engine := compiler.defaultEngine h settings.binary, watcher := .directories }
  settings
  json

/-- A run of the tool. -/
structure Run where
  outcome : Outcome
  /-- The tools, unless the settings cannot be loaded. -/
  context : Option Context := none
  station : Station

/-- The station on a host at which nothing has been done yet. -/
def Station.on (h : Host) : Station := { world := { host := h }, sessions := { watcher := {} } }

/-- Why there is no log filter. One from the environment counts before that of the settings, unless it
is none. -/
def filterFault? (environment : Option String) (level : String) : Option LogFilter.Fault :=
  match environment with
  | none => LogFilter.fault? level
  | some f =>
    match LogFilter.fault? f with
    | none => none
    | some .splitCharacter => some .splitCharacter
    | some _ => LogFilter.fault? level

/-- How a run ends that has no log filter. -/
def Ending.ofFilter : LogFilter.Fault → Ending
  | .noDirective => .trouble ⟨"invalid filter directive", []⟩
  | .noLevel =>
    let text :=
      "error parsing level filter: expected one of \"off\", \"error\", \"warn\", \"info\", \"debug\", \"trace\", or a number 0-5"
    .trouble ⟨text, [text]⟩
  | .splitCharacter => .breakdown

/-- Loads the settings and runs the command. `environment` is the log filter of the environment. -/
def runWith (compiler : Compiler) (h : Host) (environment : Option String) (i : Invocation) : Run :=
  match Settings.load h i.settingsPath with
  | .error e => { outcome := { ending := .trouble ⟨e.message, []⟩ }, station := .on h }
  | .ok settings =>
    match filterFault? environment (settings.filter i.verbose) with
    | some fault => { outcome := { ending := .ofFilter fault }, station := .on h }
    | none =>
      let c := contextFor compiler h settings i.json
      let (outcome, station) := runCommand c i.command (.on h)
      { outcome, context := some c, station }

/-- A run that works with the small compiler. -/
def run : Host → Option String → Invocation → Run := runWith .small

/-- The name and the version of the tool. -/
def versionText : String := "tsmith 0.1.0"

/-- How the tool is called. -/
def usage : String :=
  "Usage: tsmith [--verbose] [--config FILE] [--json] COMMAND\n\n" ++
    "  compile FILE [--out-dir DIR] [--source-map] [--watch]\n" ++
    "  compile --project DIR [--out-dir DIR] [--source-map]\n" ++
    "  check PATH [--strict] [--include-declarations]\n" ++
    "  diagnostics PATH [--format json|text|formatted]\n" ++
    "  syntax FILE\n" ++
    "  config init [DIR] [--set KEY=VALUE]...\n" ++
    "  config update PATH --set KEY=VALUE..."

end ScriptWorks.CommandLine
