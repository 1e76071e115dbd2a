import ScriptWorks.Options.Value

/-!
# Option sets

Schema options with values, in schema order, and all other keys as they are.
-/

namespace ScriptWorks

/-- A set of compiler options. -/
structure Options where
  values : List (CompilerOption × OptionValue) := []
  /-- Keys outside the schema. -/
  extra : Dict Json := []
deriving Inhabited

namespace Options

/-- Stores a value at the option's place in schema order. -/
def insertValue (o : CompilerOption) (v : OptionValue) :
    List (CompilerOption × OptionValue) → List (CompilerOption × OptionValue)
  | [] => [(o, v)]
  | (p, w) :: rest =>
    if o = p then (o, v) :: rest
    else if o.index < p.index then (o, v) :: (p, w) :: rest
    else (p, w) :: insertValue o v rest

def set (s : Options) (o : CompilerOption) (v : OptionValue) : Options :=
  { s with values := insertValue o v s.values }

def erase (s : Options) (o : CompilerOption) : Options :=
  { s with values := s.values.filter (·.1 ≠ o) }

def get? (s : Options) (o : CompilerOption) : Option OptionValue :=
  (s.values.find? (·.1 = o)).map (·.2)

def bool? (s : Options) (o : CompilerOption) : Option Bool := (s.get? o).bind OptionValue.asBool?

def text? (s : Options) (o : CompilerOption) : Option String := (s.get? o).bind OptionValue.asText?

/-- The option is set to `true`. -/
def isOn (s : Options) (o : CompilerOption) : Bool := s.bool? o = some true

def setExtra (s : Options) (k : String) (v : Json) : Options :=
  { s with extra := Dict.insert s.extra k v }

def isEmpty (s : Options) : Bool := s.values.isEmpty && s.extra.isEmpty

/-- All keys: those of the schema first. -/
def keys (s : Options) : List String := s.values.map (·.1.name) ++ Dict.keys s.extra

/-- Reads one member of a `compilerOptions` object into a set and the errors so far. -/
def addMember (acc : Options × List OptionError) (member : String × Json) :
    Options × List OptionError :=
  match CompilerOption.ofName? member.1 with
  | some o =>
    match o.readValue member.2 with
    | .ok v => (acc.1.set o v, acc.2)
    | .error e => (acc.1, acc.2 ++ [e])
  | none => (acc.1.setExtra member.1 member.2, acc.2)

/-- Reads a `compilerOptions` object. Refused values are left out and reported. -/
def ofJson (members : Dict Json) : Options × List OptionError := members.foldl addMember ({}, [])

/-- The `compilerOptions` object of a set. -/
def toJson (s : Options) : Dict Json :=
  Dict.overlay (Dict.ofList (s.values.map fun (o, v) => (o.name, v.toJson))) s.extra

/-- The keys of `t` replace those of `s`; all others are kept. -/
def overlay (s t : Options) : Options where
  values := t.values.foldl (fun vs (o, v) => insertValue o v vs) s.values
  extra := Dict.overlay s.extra t.extra

end Options

end ScriptWorks
