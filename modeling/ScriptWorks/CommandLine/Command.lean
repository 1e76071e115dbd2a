import ScriptWorks.CommandLine.Arguments
import ScriptWorks.CommandLine.Assignment
import ScriptWorks.Request.Check
import ScriptWorks.Request.Compile

/-!
# Commands

The commands of the tool and what their arguments mean.
-/

namespace ScriptWorks.CommandLine

/-- A command of the tool. -/
inductive Command where
  | compile (request : CompileRequest) (watch : Bool)
  | check (request : CheckRequest)
  | diagnostics (path : Path) (format : Option OutputFormat)
  | syntaxCheck (file : Path)
  | initConfig (dir : Path) (settings : List (String × Json))
  | updateConfig (path : Path) (settings : List (String × Json))
deriving Inhabited

/-- A command with the options that every command has. -/
structure Invocation where
  command : Command
  verbose : Bool := false
  /-- The settings file. -/
  settingsPath : Option Path := none
  json : Bool := false
deriving Inhabited

/-! ## Rules -/

def isPath (s : String) : Bool := !s.isEmpty

def isFormat (s : String) : Bool := (OutputFormat.ofWord s).isOk

def isAssignment (s : String) : Bool := (Assignment.parse s).isOk

/-- The options that every command has. -/
def commonOptions : List OptionRule := [
  { long := "verbose", short := some 'v' },
  { long := "config", value? := some isPath },
  { long := "json" }]

def setOption : OptionRule := { long := "set", value? := some isAssignment, isRepeatable := true }

/-- The rules for commands with a path. -/
def pathRules (options : List OptionRule) : ArgumentRules :=
  { options := commonOptions ++ options, positionals := [isPath] }

/-- The commands after `config`. -/
def configCommands : List CommandName := [.mk "init" [], .mk "update" []]

def topRules : ArgumentRules :=
  { options := commonOptions, hasVersion := true
    commands := [.mk "compile" [], .mk "check" [], .mk "diagnostics" [], .mk "syntax" [],
      .mk "config" configCommands] }

def compileRules : ArgumentRules := pathRules [
  { long := "project", short := some 'p', value? := some isPath },
  { long := "out-dir", short := some 'o', value? := some isPath },
  { long := "source-map" },
  { long := "watch", short := some 'w' }]

def checkRules : ArgumentRules := pathRules [{ long := "strict" }, { long := "include-declarations" }]

def diagnosticsRules : ArgumentRules :=
  pathRules [{ long := "format", short := some 'f', value? := some isFormat }]

def configRules : ArgumentRules := { options := commonOptions, commands := configCommands }

/-! ## Reading commands -/

/-- The request of a check with the flags for it. -/
def checkRequest (p : Path) (strict includeDeclarations : Bool) : CheckRequest :=
  { path := p
    strict := if strict then some true else none
    includeDeclarations := if includeDeclarations then some true else none }

/-- What `compile` asks for: one file or one project. -/
def compileCommand (a : Arguments) : Except Halt Command :=
  let file := a.positionals.head?
  let project := a.value? "project"
  if file.isSome = project.isSome then .error .refused
  else
    .ok (.compile
      { filePath := file.map Path.mk
        projectPath := project.map Path.mk
        outputDir := (a.value? "out-dir").map Path.mk
        sourceMap := if a.has "source-map" then some true else none }
      (a.has "watch"))

/-- The path that a command cannot do without. -/
def requiredPath (a : Arguments) : Except Halt Path :=
  match a.positionals with
  | p :: _ => .ok ⟨p⟩
  | [] => .error .refused

/-- The assignments given. -/
def settings (a : Arguments) : List (String × Json) :=
  (a.valuesOf "set").filterMap fun s => (Assignment.parse s).toOption

def diagnosticsCommand (a : Arguments) : Except Halt Command := do
  return .diagnostics (← requiredPath a)
    ((a.value? "format").bind fun s => (OutputFormat.ofWord s).toOption)

def checkCommand (a : Arguments) : Except Halt Command := do
  return .check (checkRequest (← requiredPath a) (a.has "strict") (a.has "include-declarations"))

def initCommand (a : Arguments) : Except Halt Command :=
  .ok (.initConfig ⟨a.positionals.head?.getD "."⟩ (settings a))

def updateCommand (a : Arguments) : Except Halt Command := do
  let p ← requiredPath a
  if (settings a).isEmpty then .error .refused else .ok (.updateConfig p (settings a))

/-- The rules of a command that has no further ones, and how it is made. -/
def leaf? : String → Option (ArgumentRules × (Arguments → Except Halt Command))
  | "compile" => some (compileRules, compileCommand)
  | "check" => some (checkRules, checkCommand)
  | "diagnostics" => some (diagnosticsRules, diagnosticsCommand)
  | "syntax" => some (pathRules [], fun a => do return .syntaxCheck (← requiredPath a))
  | "init" => some (pathRules [setOption], initCommand)
  | "update" => some (pathRules [setOption], updateCommand)
  | _ => none

/-- Adds the common options of a command; those of a later command win. -/
def Invocation.withCommon (i : Invocation) (a : Arguments) : Invocation :=
  { i with
    verbose := i.verbose || a.has "verbose"
    settingsPath := ((a.value? "config").map Path.mk).or i.settingsPath
    json := i.json || a.has "json" }

/-- Reads a command and the common options of all commands before it. -/
def readLeaf (before : List (ArgumentRules × Arguments)) (name : String) (args : List String) :
    Except Halt Invocation := do
  match leaf? name with
  | none => throw .refused
  | some (rules, make) =>
    let a ← Arguments.read rules args
    let before ← before.mapM fun (rules, a) => a.settle rules
    return (before ++ [a]).foldl Invocation.withCommon { command := ← make a }

/-- Reads the arguments of the tool. -/
def read (args : List String) : Except Halt Invocation := do
  let top ← Arguments.read topRules args
  match top.command with
  | none => throw .refused
  | some ("config", rest) =>
    let config ← Arguments.read configRules rest
    match config.command with
    | none => throw .refused
    | some (name, rest) => readLeaf [(topRules, top), (configRules, config)] name rest
  | some (name, rest) => readLeaf [(topRules, top)] name rest

end ScriptWorks.CommandLine
