/-!
# Arguments

Reading arguments by the rules of a command: options in long and short form, with values or without,
positional arguments, and the names of further commands.
-/

namespace ScriptWorks.CommandLine

/-- An option of a command. -/
structure OptionRule where
  long : String
  short : Option Char := none
  /-- Which values are allowed, for an option that takes one. -/
  value? : Option (String → Bool) := none
  /-- It may be given more than once. -/
  isRepeatable : Bool := false

/-- The name of a command and the commands that may follow it. -/
inductive CommandName where
  | mk (name : String) (further : List CommandName)

namespace CommandName

def name : CommandName → String
  | .mk name _ => name

def further : CommandName → List CommandName
  | .mk _ further => further

/-- The names lead to a command on which there is help. Where commands are given there is help on
`help` too. -/
def isHelpTopic : List CommandName → List String → Bool
  | _, [] => true
  | commands, name :: rest =>
    match commands.find? (·.name = name) with
    | some c => isHelpTopic c.further rest
    | none => !commands.isEmpty && name = "help" && rest.isEmpty

end CommandName

/-- The arguments that a command takes. -/
structure ArgumentRules where
  options : List OptionRule
  /-- Which positional arguments are allowed, by their place. -/
  positionals : List (String → Bool) := []
  /-- One of these commands has to follow, if there are any. -/
  commands : List CommandName := []
  /-- The version can be asked for. -/
  hasVersion : Bool := false

/-- Why reading ends before anything is done. -/
inductive Halt where
  /-- The arguments are not allowed. -/
  | refused
  | help
  | version
deriving DecidableEq, Inhabited

/-- What an argument means. -/
inductive Item where
  | flag (option : String)
  | value (option : String) (value : String)
  /-- A value that is looked at after the arguments of the command that follows it. -/
  | lateValue (option : String) (value : String)
  | positional (value : String)
  | command (name : String) (rest : List String)
  | halt (reason : Halt)
deriving Inhabited

namespace ArgumentRules

def long? (r : ArgumentRules) (name : String) : Option OptionRule :=
  r.options.find? (·.long = name)

def short? (r : ArgumentRules) (c : Char) : Option OptionRule :=
  r.options.find? (·.short = some c)

/-- Why reading ends at a long option that is not among the rules. None of these takes a value. -/
def haltAtLong (r : ArgumentRules) (name : String) (value : Option String) : Halt :=
  if value.isSome then .refused
  else if name = "help" then .help
  else if name = "version" && r.hasVersion then .version
  else .refused

/-- Why reading ends at a letter that is no short option. -/
def haltAtShort (r : ArgumentRules) (c : Char) : Halt :=
  if c = 'h' then .help
  else if c = 'V' && r.hasVersion then .version
  else .refused

/-- The argument can be the value of an option before it. -/
def isValue (arg : String) : Bool := arg = "-" || arg.toList.head? ≠ some '-'

/-- Name and value of a long option. -/
def splitLong (cs : List Char) : String × Option String :=
  (String.ofList (cs.takeWhile (· ≠ '=')),
    match cs.dropWhile (· ≠ '=') with
    | [] => none
    | _ :: v => some (String.ofList v))

/-- What a group of letters after one hyphen means, and the option that still lacks its value. The
rest of the group is the value of an option that takes one. -/
def letters (r : ArgumentRules) : List Char → List Item × Option String
  | [] => ([], none)
  | c :: cs =>
    match r.short? c with
    | none => ([.halt (r.haltAtShort c)], none)
    | some o =>
      if o.value?.isNone then
        let (items, pending) := r.letters cs
        (.flag o.long :: items, pending)
      else
        match cs with
        | [] => ([], some o.long)
        | '=' :: v => ([.value o.long (String.ofList v)], none)
        | v => ([.value o.long (String.ofList v)], none)

def isCommand (r : ArgumentRules) (arg : String) : Bool := r.commands.any (·.name = arg)

/-- What one argument means, and the option that still lacks its value. -/
def meaning (r : ArgumentRules) (arg : String) (rest : List String) : List Item × Option String :=
  match arg.toList with
  | '-' :: '-' :: cs =>
    let (name, v?) := splitLong cs
    match r.long? name, v? with
    | none, _ => ([.halt (r.haltAtLong name v?)], none)
    | some o, some v =>
      if o.value?.isSome then ([.value o.long v], none) else ([.halt .refused], none)
    | some o, none => if o.value?.isSome then ([], some o.long) else ([.flag o.long], none)
  | '-' :: c :: cs => r.letters (c :: cs)
  | _ =>
    if r.commands.isEmpty then ([.positional arg], none)
    else if r.isCommand arg then ([.command arg rest], none)
    else
      let isHelp := arg = "help" && CommandName.isHelpTopic r.commands rest
      ([.halt (if isHelp then .help else .refused)], none)

/-- What a value that is an argument of its own means before the arguments that follow it. -/
def separateValue (r : ArgumentRules) (option value : String) (rest : List String) : Item :=
  if rest.head?.any fun arg => r.isCommand arg || (arg = "help" && !r.commands.isEmpty) then
    .lateValue option value
  else .value option value

/-- What arguments mean, up to the name of a further command. After two hyphens all arguments are
positional. -/
def items (r : ArgumentRules) : List String → List Item
  | [] => []
  | arg :: rest =>
    if arg = "--" then rest.map .positional
    else
      match r.meaning arg rest with
      | (found, none) =>
        match found.getLast? with
        | some (.command ..) => found
        | _ => found ++ r.items rest
      | (found, some option) =>
        match rest with
        | v :: rest =>
          if isValue v then found ++ r.separateValue option v rest :: r.items rest
          else found ++ [.halt .refused]
        | [] => found ++ [.halt .refused]

end ArgumentRules

/-- The arguments of a command. -/
structure Arguments where
  flags : List String := []
  values : List (String × String) := []
  /-- An option right before the command, with its value. -/
  late : Option (String × String) := none
  positionals : List String := []
  /-- The further command and its arguments. -/
  command : Option (String × List String) := none
deriving Inhabited

namespace Arguments

def has (a : Arguments) (option : String) : Bool := a.flags.contains option

/-- The values of an option, in order. -/
def valuesOf (a : Arguments) (option : String) : List String :=
  (a.values.filter (·.1 = option)).map (·.2)

def value? (a : Arguments) (option : String) : Option String := (a.valuesOf option).head?

/-- An option may be given again. -/
def mayRepeat (r : ArgumentRules) (option : String) : Bool :=
  (r.long? option).any (·.isRepeatable)

/-- Adds what an argument means, if the rules allow it. -/
def add (r : ArgumentRules) (a : Arguments) : Item → Except Halt Arguments
  | .flag o => if a.has o then .error .refused else .ok { a with flags := a.flags ++ [o] }
  | .value o v =>
    let allowed := ((r.long? o).bind (·.value?)).any (· v)
    if !allowed || (!(a.valuesOf o).isEmpty && !mayRepeat r o) then .error .refused
    else .ok { a with values := a.values ++ [(o, v)] }
  | .lateValue o v => .ok { a with late := some (o, v) }
  | .positional v =>
    match r.positionals[a.positionals.length]? with
    | some allows =>
      if allows v then .ok { a with positionals := a.positionals ++ [v] } else .error .refused
    | none => .error .refused
  | .command name rest => .ok { a with command := some (name, rest) }
  | .halt reason => .error reason

/-- The arguments with the option right before the command, if the rules allow it. -/
def settle (r : ArgumentRules) (a : Arguments) : Except Halt Arguments :=
  match a.late with
  | some (o, v) => add r { a with late := none } (.value o v)
  | none => .ok a

/-- Reads arguments by the rules of a command. The first thing that ends reading counts. -/
def read (r : ArgumentRules) (args : List String) : Except Halt Arguments :=
  (r.items args).foldlM (add r) {}

end Arguments

end ScriptWorks.CommandLine
