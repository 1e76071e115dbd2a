import ScriptWorks.Diagnostic.Render
import ScriptWorks.FileSystem.Host
import ScriptWorks.Toml.Parser

/-!
# Settings

Settings of the tool, from a file near the working directory. What is not set keeps its default, and
unknown settings are ignored, unless a number in them is out of range; a known one of a wrong type is
refused.
-/

namespace ScriptWorks

/-- The form of log lines. -/
inductive LogFormat where
  | pretty
  | compact
  | json
deriving DecidableEq, Inhabited

namespace LogFormat

def name : LogFormat → String
  | .pretty => "pretty"
  | .compact => "compact"
  | .json => "json"

def all : List LogFormat := [.pretty, .compact, .json]

def ofName? (s : String) : Option LogFormat := all.find? (·.name = s)

end LogFormat

/-- How long changes of a file are collected before they are reported, unless something else is set. -/
def defaultDebounce : Nat := 100

/-- Settings of the tool. -/
structure Settings where
  level : String := "warn"
  logFormat : LogFormat := .pretty
  format : OutputFormat := .text
  /-- In milliseconds. -/
  debounce : Nat := defaultDebounce
  /-- The type checker; looked for on the search path when not set. -/
  binary : Option Path := none
deriving DecidableEq, Inhabited

namespace Settings

/-- The log level; asking for more talk wins over the file. -/
def filter (s : Settings) (verbose : Bool) : String := if verbose then "debug" else s.level

/-- The form of diagnostics; asking for JSON wins over the file. -/
def outputFormat (s : Settings) (json : Bool) : OutputFormat := if json then .json else s.format

/-! ## Decoding -/

/-- Reads a setting of a certain type into the settings so far. -/
abbrev Reader := Settings → Toml → Option Settings

/-- The name of a choice: a string, or a table with nothing but an empty table or array under it. -/
def choiceName? : Toml → Option String
  | .string s => some s
  | .table _ [(name, .table _ [])] => some name
  | .table _ [(name, .array [])] => some name
  | _ => none

def readLevel : Reader := fun s v =>
  match v with
  | .string level => some { s with level }
  | _ => none

def readLogFormat : Reader := fun s v => do
  return { s with logFormat := ← LogFormat.ofName? (← choiceName? v) }

def readFormat : Reader := fun s v => do
  return { s with format := ← OutputFormat.ofName? (← choiceName? v) }

def readDebounce : Reader := fun s v =>
  match v with
  | .integer n => if 0 ≤ n ∧ n.toNat < Nat.pow 2 64 then some { s with debounce := n.toNat } else none
  | _ => none

def readBinary : Reader := fun s v =>
  match v with
  | .string p => some { s with binary := some ⟨p⟩ }
  | _ => none

/-- A setting under its name. -/
structure Entry where
  name : String
  read : Reader
  /-- An array of settings may end before this one. -/
  mayLack : Bool := true

/-- Reads settings from an array, in their order. Items without a setting are ignored. -/
def readItems : List Entry → List Toml → Settings → Option Settings
  | [], _, s => some s
  | e :: es, [], s => if e.mayLack then readItems es [] s else none
  | e :: es, v :: vs, s => do readItems es vs (← e.read s v)

/-- A reader for a group of settings: a table, or an array of their values. A point in time counts
as a table with none of them. -/
def group (entries : List Entry) : Reader := fun s v =>
  match v with
  | .table _ members =>
    if members.all fun (name, v) => entries.any (·.name = name) || v.inRange then
      entries.foldlM (fun s e =>
        match Dict.get? members e.name with
        | some v => e.read s v
        | none => some s) s
    else none
  | .array items | .tables items => readItems entries items s
  | .moment _ => some s
  | _ => none

/-- All settings. -/
def entries : List Entry := [
  { name := "logging", read := group [
    { name := "level", read := readLevel }, { name := "format", read := readLogFormat }] },
  { name := "output", read := group [{ name := "format", read := readFormat }] },
  { name := "watch", read := group [{ name := "debounce_ms", read := readDebounce }] },
  { name := "checker", read := group [
    { name := "binary", read := readBinary, mayLack := false }] }]

/-- The settings of a file's text. -/
def parse? (text : String) : Option Settings := do group entries {} (← Toml.parse? text)

/-! ## Files -/

/-- Why settings cannot be loaded. -/
inductive LoadError where
  | notFound (path : Path)
  | unreadable (cause : FileError)
  | malformed (path : Path)
deriving DecidableEq, Inhabited

def LoadError.message : LoadError → String
  | .notFound p => s!"Settings file not found: {p.text}"
  | .unreadable cause => cause.message
  | .malformed p => s!"Failed to parse {p.text}"

/-- The names of settings files; the first wins. -/
def fileNames : List String := ["tsmith.toml", ".tsmithrc.toml"]

/-- The settings file in a directory or in the nearest of its ancestors. -/
def find? (h : Host) (start : Path) : Option Path :=
  (start.ancestors.flatMap fun dir => fileNames.map dir.child).find? h.isFile

def read (h : Host) (p : Path) : Except LoadError Settings :=
  match h.readText p with
  | .error e => .error (.unreadable e)
  | .ok text =>
    match parse? text with
    | some s => .ok s
    | none => .error (.malformed p)

/-- Loads the given settings file, or the one that is found from the working directory. -/
def load (h : Host) (path : Option Path) : Except LoadError Settings :=
  match path with
  | some p => if h.isFile p then read h p else .error (.notFound p)
  | none =>
    match find? h h.cwd.path with
    | some p => read h p
    | none => .ok {}

end Settings

end ScriptWorks
