import ScriptWorks.Small.Token

/-!
# Statements

The statements of a source, read from its tokens. Some faults are noted and reading goes on; others
end it.
-/

namespace ScriptWorks.Small

open Script

/-- A fault in a source. -/
inductive SourceFault where
  | constWithoutValue
  | returnOutside
  | missingSemicolon
  | missingExpression
  /-- A token stands where a name is declared. -/
  | noName (token : String)
  /-- A token stands where a type is named. -/
  | noType (token : String)
  | unexpected (token : String)
deriving DecidableEq, Inhabited

def SourceFault.message : SourceFault → String
  | .constWithoutValue => "'const' declarations must be initialized"
  | .returnOutside => "Return statement is not allowed here"
  | .missingSemicolon => "Expected a semicolon"
  | .missingExpression => "Expression expected"
  | .noName t => s!"Unexpected token `{t}`. Expected yield, an identifier, [ or \x7b"
  | .noType t =>
    s!"Unexpected token `{t}`. Expected an identifier, void, yield, null, await, break, a string literal, a numeric literal, true, false, `, -, import, this, typeof, \x7b, [, ("
  | .unexpected t => s!"Unexpected token `{t}`"

/-- A fault and the bytes it concerns. -/
structure SourceError where
  span : Span
  fault : SourceFault
deriving DecidableEq, Inhabited

/-- An expression. -/
inductive Expr where
  /-- A name or a literal, as it is written. -/
  | word (text : String)
  | call (callee : Expr) (args : List Expr)
  | signed (sign : String) (operand : Expr)
  | binary (operator : String) (left right : Expr)
  /-- An expression that could not be read. -/
  | invalid (span : Span)
deriving Inhabited

/-- A statement, as far as it matters for the script. -/
inductive Stmt where
  | declarators (exported : Bool) (keyword : String) (names : List (String × Option Expr))
  | function (exported : Bool) (name : String) (params : List String) (body : List Stmt)
  | return (value : Option Expr)
  | expression (e : Expr)
  /-- A declaration of types alone. -/
  | erased
deriving Inhabited

/-- A statement with its bytes. -/
structure Item where
  span : Span
  stmt : Stmt
deriving Inhabited

/-- What is left to read, the end of what was read, and the faults noted. -/
structure Reader where
  tokens : List Token
  lastStop : Nat := 0
  errors : List SourceError := []
deriving Inhabited

/-- A step of reading, which a fault may end. -/
abbrev Read := EStateM SourceError Reader

namespace Read

/-- The next token. -/
def peek : Read Token := return (← get).tokens.headD ⟨.finish, "<eof>", ⟨0, 0⟩, true⟩

/-- Passes the next token. -/
def next : Read Token := do
  let t ← peek
  modify fun r => { r with tokens := r.tokens.tail, lastStop := t.span.stop }
  return t

/-- The next token is this sign or keyword. -/
def at? (text : String) : Read Bool := do
  let t ← peek
  return t.text = text && (t.kind = .sign || t.kind = .word)

/-- Passes the next token if it is this sign or keyword. -/
def take? (text : String) : Read Bool := do
  if ← at? text then
    let _ ← next
    return true
  else return false

/-- Ends reading at the next token. -/
def stopAt {α : Type} (fault : String → SourceFault) : Read α := do
  let t ← peek
  throw ⟨t.span, fault t.text⟩

/-- Passes this sign or keyword. -/
def expect (text : String) : Read Unit := do
  unless ← take? text do stopAt .unexpected

/-- Notes a fault. -/
def note (span : Span) (fault : SourceFault) : Read Unit :=
  modify fun r => { r with errors := r.errors ++ [⟨span, fault⟩] }

/-- Passes a semicolon, which may be missing at the end of a line, a block or the source. -/
def endStatement : Read Unit := do
  unless ← take? ";" do
    let t ← peek
    unless t.afterLineEnd || t.kind = .finish || t.text = "\x7d" do stopAt .unexpected

/-- Passes tokens up to the sign that closes what `depth` signs have opened. Angles are such signs in
types. -/
def skipClosed (angles : Bool) : Nat → Nat → Read Unit
  | 0, _ => return
  | fuel + 1, depth => do
    let t ← next
    if t.kind = .finish then return
    let opens := ["\x7b", "(", "["].contains t.text || (angles && t.text = "<")
    let closes := ["\x7d", ")", "]"].contains t.text || (angles && t.text = ">")
    let depth := if t.kind ≠ .sign then depth else if opens then depth + 1
      else if closes then depth - 1 else depth
    if depth = 0 then return
    skipClosed angles fuel depth

/-- Passes the parameters or the arguments of a type, if there are any. -/
def skipTypeArguments (fuel : Nat) : Read Unit := do
  if ← take? "<" then skipClosed true fuel 1

/-- Words and signs that stand before a type and belong to it. -/
def typePrefixes : List String :=
  ["keyof", "typeof", "unique", "readonly", "infer", "new", "abstract", "asserts", "|", "&", "-"]

/-- Tokens at which a type cannot begin. -/
def endsType (t : Token) : Bool :=
  t.kind = .finish ||
    (t.kind = .sign && ["=", "=>", ",", ";", ":", "?", ")", "\x7d", "]", ">"].contains t.text)

/-- Passes a type without what may join others to it. -/
def skipTypeOperand : Nat → Read Unit
  | 0 => return
  | fuel + 1 => do
    let t ← peek
    if endsType t then stopAt .noType
    let _ ← next
    if t.kind = .sign && ["\x7b", "(", "["].contains t.text then skipClosed false fuel 1
    else if t.kind = .sign && t.text = "<" then
      skipClosed true fuel 1
      skipTypeOperand fuel
    else if t.kind = .word && t.text = "import" then
      if ← take? "(" then skipClosed false fuel 1
    else if t.kind ≠ .string && typePrefixes.contains t.text then
      unless endsType (← peek) do skipTypeOperand fuel

mutual

/-- Passes a type. -/
def skipType : Nat → Read Unit
  | 0 => return
  | fuel + 1 => do
    skipTypeOperand fuel
    skipTypeRest fuel

/-- Passes what continues a type. Arguments, an index and a condition stand on the same line. -/
def skipTypeRest : Nat → Read Unit
  | 0 => return
  | fuel + 1 => do
    let t ← peek
    if t.kind = .sign && ["|", "&", ".", "=>"].contains t.text then
      let _ ← next
      skipType fuel
    else if t.afterLineEnd then return
    else if t.kind = .sign && t.text = "<" then
      skipTypeArguments fuel
      skipTypeRest fuel
    else if t.kind = .sign && t.text = "[" then
      let _ ← next
      skipClosed false fuel 1
      skipTypeRest fuel
    else if t.kind = .word && t.text = "is" then
      let _ ← next
      skipType fuel
    else if t.kind = .word && t.text = "extends" then
      let _ ← next
      skipType fuel
      if ← take? "?" then
        skipType fuel
        if ← take? ":" then skipType fuel

end

/-- Passes a type after a colon, if there is one. -/
def annotation (fuel : Nat) : Read Unit := do
  if ← take? ":" then skipType fuel

/-- Reads the name that is declared. -/
def name : Read String := do
  let t ← peek
  if t.kind = .word then
    let _ ← next
    return t.text
  else stopAt .noName

def binaryOperators : List String := ["+", "-", "*", "/"]

/-- Signs before an expression. -/
def signs : List String := ["!", "-", "+", "~"]

mutual

/-- Reads an expression. -/
def expression : Nat → Read Expr
  | 0 => stopAt .unexpected
  | fuel + 1 => do
    let left ← unary fuel
    let t ← peek
    if t.kind = .sign && binaryOperators.contains t.text then
      let _ ← next
      return .binary t.text left (← expression fuel)
    else return left

/-- Reads an expression without operators between its parts. -/
def unary : Nat → Read Expr
  | 0 => stopAt .unexpected
  | fuel + 1 => do
    let t ← peek
    if t.kind = .sign && signs.contains t.text then
      let _ ← next
      let before := (← peek).span.start - 1
      try
        return .signed t.text (← unary fuel)
      catch e =>
        note e.span e.fault
        return .signed t.text (.invalid ⟨before, before⟩)
    else if t.kind = .sign || t.kind = .finish then stopAt fun _ => .missingExpression
    else
      let _ ← next
      if ← take? "(" then return .call (.word t.text) (← arguments fuel) else return .word t.text

/-- Reads the arguments of a call after its opening bracket. -/
def arguments : Nat → Read (List Expr)
  | 0 => stopAt .unexpected
  | fuel + 1 => do
    if ← take? ")" then return []
    let e ← expression fuel
    if ← take? "," then return e :: (← arguments fuel)
    expect ")"
    return [e]

end

/-- Reads the declared variables. In declarations of types, constants need no value. -/
def declarators (ambient isConst : Bool) : Nat → Read (List (String × Option Expr))
  | 0 => stopAt .unexpected
  | fuel + 1 => do
    let start := (← peek).span.start
    let x ← name
    annotation fuel
    let value ← if ← take? "=" then some <$> expression fuel else pure none
    if value.isNone && isConst && !ambient then
      note ⟨start, (← get).lastStop⟩ .constWithoutValue
    if ← take? "," then return (x, value) :: (← declarators ambient isConst fuel)
    return [(x, value)]

/-- Reads the parameters of a function after the opening bracket. -/
def params : Nat → Read (List String)
  | 0 => stopAt .unexpected
  | fuel + 1 => do
    if ← take? ")" then return []
    let x ← name
    let _ ← take? "?"
    annotation fuel
    if ← take? "," then return x :: (← params fuel)
    expect ")"
    return [x]

/-- Passes a block of anything. -/
def skipBlock (fuel : Nat) : Read Unit := do
  expect "\x7b"
  skipClosed false fuel 1

/-- Passes the types that an interface extends. -/
def skipBases : Nat → Read Unit
  | 0 => return
  | fuel + 1 => do
    skipType fuel
    if ← take? "," then skipBases fuel

/-- Passes what follows `finally`. -/
def skipFinally (fuel : Nat) : Read Unit := do
  if ← take? "finally" then skipBlock fuel

/-- The bytes of what is read from `start` on. -/
def spanFrom (start : Nat) : Read Span := return ⟨start, (← get).lastStop⟩

/-- The keywords that declare variables. -/
def variableKeywords : List String := ["const", "let", "var"]

/-- Reads a statement that may be exported; nothing if it is none. -/
def declaration (exported ambient : Bool) (body : Read (List Stmt)) (fuel : Nat) :
    Read (Option Stmt) := do
  let t ← peek
  if t.kind ≠ .word then return none
  if variableKeywords.contains t.text then
    let _ ← next
    let names ← declarators ambient (t.text = "const") fuel
    endStatement
    return some (.declarators exported t.text names)
  else if t.text = "function" then
    let _ ← next
    let f ← name
    skipTypeArguments fuel
    expect "("
    let ps ← params fuel
    annotation fuel
    if ← take? "\x7b" then return some (.function exported f ps (← body))
    endStatement
    return some .erased
  else if t.text = "interface" then
    let _ ← next
    let _ ← name
    skipTypeArguments fuel
    if ← take? "extends" then skipBases fuel
    skipBlock fuel
    return some .erased
  else if t.text = "type" then
    let _ ← next
    let _ ← name
    skipTypeArguments fuel
    expect "="
    skipType fuel
    endStatement
    return some .erased
  else return none

/-- Reads a `catch` or `finally` without `try`: the keyword is a fault, what follows is passed. -/
def strayHandler (t : Token) (fuel : Nat) : Read Stmt := do
  note t.span .missingSemicolon
  if t.text = "catch" then
    let _ ← next
    if ← take? "(" then skipClosed false fuel 1
    skipBlock fuel
  skipFinally fuel
  return .expression (.invalid t.span)

mutual

/-- Reads a statement. -/
def statement (inFunction ambient : Bool) : Nat → Read Item
  | 0 => stopAt .unexpected
  | fuel + 1 => do
    let t ← peek
    let start := t.span.start
    if t.text = "export" && t.kind = .word then
      let _ ← next
      match ← declaration true ambient (block ambient fuel) fuel with
      | some s => return ⟨← spanFrom start, s⟩
      | none => stopAt .unexpected
    else if t.text = "declare" && t.kind = .word then
      let _ ← next
      match ← declaration false true (block ambient fuel) fuel with
      | some _ => return ⟨← spanFrom start, .erased⟩
      | none => stopAt .unexpected
    else if t.text = "return" && t.kind = .word then
      let _ ← next
      let t ← peek
      let value ←
        if t.afterLineEnd || t.text = ";" || t.text = "\x7d" || t.kind = .finish then pure none
        else some <$> expression fuel
      endStatement
      let span ← spanFrom start
      unless inFunction do note span .returnOutside
      return ⟨span, .return value⟩
    else if (t.text = "catch" || t.text = "finally") && t.kind = .word then
      return ⟨t.span, ← strayHandler t fuel⟩
    else
      match ← declaration false ambient (block ambient fuel) fuel with
      | some s => return ⟨← spanFrom start, s⟩
      | none =>
        let e ← expression fuel
        endStatement
        return ⟨← spanFrom start, .expression e⟩

/-- Reads the statements of a function after its opening bracket. -/
def block (ambient : Bool) : Nat → Read (List Stmt)
  | 0 => stopAt .unexpected
  | fuel + 1 => do
    if ← take? "\x7d" then return []
    if (← peek).kind = .finish then stopAt .unexpected
    let item ← statement true ambient fuel
    return item.stmt :: (← block ambient fuel)

end

/-- Reads all statements of a source. -/
def items (ambient : Bool) : Nat → Read (List Item)
  | 0 => stopAt .unexpected
  | fuel + 1 => do
    if (← peek).kind = .finish then return []
    if ← take? ";" then items ambient fuel
    else
      let item ← statement false ambient fuel
      return item :: (← items ambient fuel)

end Read

def SourceError.toFault (e : SourceError) : Fault := ⟨e.span, e.fault.message⟩

/-- Reads a source; `ambient` says that it declares only. Every call passes a token within a few steps,
which bounds the number of calls. -/
def parse (ambient : Bool) (source : String) : Reading (List Item) :=
  let ts := tokens source
  match (Read.items ambient (4 * ts.length + 4)).run { tokens := ts } with
  | .ok items r => ⟨0, r.errors.map SourceError.toFault, .ok items⟩
  | .error e r => ⟨0, r.errors.map SourceError.toFault, .error e.toFault⟩

end ScriptWorks.Small
