import ScriptWorks.Json.Basic
import ScriptWorks.Number.Shortest
import ScriptWorks.Text.Quoted

/-!
# Writing JSON

The compact form has no white space. The pretty form puts every item on a line of its own, indented
by two spaces a level. Members come in the order of their keys.
-/

namespace ScriptWorks

/-- The digits of a decimal with its point after the first `point` of them, written out. -/
def Decimal.positional (digits : List Char) (point : Int) : List Char :=
  if point ≤ 0 then '0' :: '.' :: List.replicate (-point).toNat '0' ++ digits
  else if digits.length ≤ point.toNat then
    digits ++ List.replicate (point.toNat - digits.length) '0' ++ ['.', '0']
  else digits.take point.toNat ++ '.' :: digits.drop point.toNat

/-- The digits of a decimal with its point after the first of them, and an exponent. -/
def Decimal.scientific (digits : List Char) (point : Int) : List Char :=
  let exponent := point - 1
  let mantissa := match digits with
    | [] | [_] => digits
    | d :: ds => d :: '.' :: ds
  mantissa ++ 'e' :: (if exponent < 0 then '-' else '+') :: (Nat.repr exponent.natAbs).toList

/-- The shortest digits of a magnitude, and the position of the point behind the first. -/
def Magnitude.shortestDigits (x : Magnitude) : List Char × Int :=
  let d := x.shortest
  let digits := (Nat.repr d.digits).toList
  (digits, if x.mantissa = 0 then 1 else digits.length + d.exponent)

namespace Json

/-- Numbers from `10 ^ -5` to below `10 ^ 16` are written out, all others with an exponent. -/
def writeFloat (x : Binary64) : List Char :=
  let (digits, point) := x.magnitude.shortestDigits
  (if x.negative then ['-'] else []) ++
    (if -5 < point ∧ point ≤ 16 then Decimal.positional digits point
     else Decimal.scientific digits point)

def writeNumber : Number → List Char
  | .int n => (toString n).toList
  | .float x => writeFloat x

def hexDigit (n : Nat) : Char := if n < 10 then Char.ofNat (48 + n) else Char.ofNat (87 + n)

/-- A character inside a string. -/
def writeChar (c : Char) : List Char :=
  if c = '"' then ['\\', '"']
  else if c = '\\' then ['\\', '\\']
  else if c = '\x08' then ['\\', 'b']
  else if c = '\x0c' then ['\\', 'f']
  else if c = '\n' then ['\\', 'n']
  else if c = '\r' then ['\\', 'r']
  else if c = '\t' then ['\\', 't']
  else if c.toNat < 0x20 then
    ['\\', 'u', '0', '0', hexDigit (c.toNat / 16), hexDigit (c.toNat % 16)]
  else [c]

def writeString (s : String) : List Char := '"' :: s.toList.flatMap writeChar ++ ['"']

mutual

/-- The compact form. -/
def write : Json → List Char
  | .null => "null".toList
  | .bool b => (toString b).toList
  | .num n => writeNumber n
  | .str s => writeString s
  | .arr items => '[' :: writeItems items ++ [']']
  | .obj members => '{' :: writeMembers members ++ ['}']

/-- Items with commas between them. -/
def writeItems : List Json → List Char
  | [] => []
  | [v] => write v
  | v :: w :: vs => write v ++ ',' :: writeItems (w :: vs)

/-- Members with commas between them. -/
def writeMembers : List (String × Json) → List Char
  | [] => []
  | [(k, v)] => writeString k ++ ':' :: write v
  | (k, v) :: m :: ms => writeString k ++ ':' :: write v ++ ',' :: writeMembers (m :: ms)

end

/-- The start of a line at the given level. -/
def newline (level : Nat) : List Char := '\n' :: List.replicate (2 * level) ' '

mutual

/-- The pretty form at an indentation level. -/
def writePretty (level : Nat) : Json → List Char
  | .arr [] => ['[', ']']
  | .arr (v :: vs) =>
    '[' :: newline (level + 1) ++ writePretty (level + 1) v ++ writePrettyItems (level + 1) vs ++
      newline level ++ [']']
  | .obj [] => ['{', '}']
  | .obj ((k, v) :: ms) =>
    '{' :: newline (level + 1) ++ writeString k ++ ':' :: ' ' :: writePretty (level + 1) v ++
      writePrettyMembers (level + 1) ms ++ newline level ++ ['}']
  | .null => "null".toList
  | .bool b => (toString b).toList
  | .num n => writeNumber n
  | .str s => writeString s

/-- The items after the first one. -/
def writePrettyItems (level : Nat) : List Json → List Char
  | [] => []
  | v :: vs => ',' :: newline level ++ writePretty level v ++ writePrettyItems level vs

/-- The members after the first one. -/
def writePrettyMembers (level : Nat) : List (String × Json) → List Char
  | [] => []
  | (k, v) :: ms =>
    ',' :: newline level ++ writeString k ++ ':' :: ' ' :: writePretty level v ++
      writePrettyMembers level ms

end

/-- The compact text of a value. -/
def compact (v : Json) : String := String.ofList (write v)

/-- The pretty text of a value. -/
def pretty (v : Json) : String := String.ofList (writePretty 0 v)

/-- A value as a mismatch names it. -/
def nature : Json → String
  | .null => "null"
  | .bool b => s!"boolean `{b}`"
  | .num (.int n) => s!"integer `{n}`"
  | .num (.float x) => s!"floating point `{String.ofList (writeFloat x)}`"
  | .str s => s!"string {Text.quote s}"
  | .arr _ => "sequence"
  | .obj _ => "map"

end Json

end ScriptWorks
