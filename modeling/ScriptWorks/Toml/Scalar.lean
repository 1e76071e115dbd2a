import ScriptWorks.Json.Parser
import ScriptWorks.Number.Binary64
import ScriptWorks.Text.Lines
import ScriptWorks.Toml.Basic

/-!
# TOML words

Values written without quotes and brackets: numbers, truth values, points in time.
-/

namespace ScriptWorks.Toml

/-- Digits with single underscores between them, without these. -/
def digits? (isDigit : Char → Bool) (cs : List Char) : Option (List Char) :=
  let groups := Text.cut '_' cs
  if groups.all fun g => !g.isEmpty && g.all isDigit then some groups.flatten else none

def natOfDigits (base : Nat) (cs : List Char) : Nat :=
  cs.foldl (fun n c => n * base + (Json.hexValue? c).getD 0) 0

/-- Decimal digits without a zero at the start. -/
def decimal? (cs : List Char) : Option (List Char) := do
  let ds ← digits? Char.isDigit cs
  if ds.head? = some '0' ∧ 1 < ds.length then none else some ds

/-- A sign and what follows it. -/
def splitSign : List Char → Int × List Char
  | '+' :: cs => (1, cs)
  | '-' :: cs => (-1, cs)
  | cs => (1, cs)

def integer? : List Char → Option Int
  | '0' :: 'x' :: cs => (digits? (fun c => (Json.hexValue? c).isSome) cs).map (natOfDigits 16 ·)
  | '0' :: 'o' :: cs => (digits? (fun c => c.isDigit && c < '8') cs).map (natOfDigits 8 ·)
  | '0' :: 'b' :: cs => (digits? (fun c => c = '0' || c = '1') cs).map (natOfDigits 2 ·)
  | cs =>
    let (sign, cs) := splitSign cs
    (decimal? cs).map fun ds => sign * natOfDigits 10 ds

/-- What stands before the first character that satisfies `p`, and what stands after it. -/
def splitAt? (p : Char → Bool) (cs : List Char) : Option (List Char × List Char) :=
  match cs.dropWhile (!p ·) with
  | [] => none
  | _ :: after => some (cs.takeWhile (!p ·), after)

/-- The digits of a float and the power of ten that they are multiplied with. -/
structure Scientific where
  digits : List Char
  exponent : Int

def exponent? (cs : List Char) : Option Int :=
  let (sign, cs) := splitSign cs
  (digits? Char.isDigit cs).map fun ds => sign * natOfDigits 10 ds

/-- Reads a float without its sign: a fraction, an exponent, or both. -/
def Scientific.ofWord? (cs : List Char) : Option Scientific := do
  let (body, exponent) := match splitAt? (fun c => c = 'e' || c = 'E') cs with
    | some (body, exponent) => (body, some exponent)
    | none => (cs, none)
  let (whole, fraction) := match splitAt? (· = '.') body with
    | some (whole, fraction) => (whole, some fraction)
    | none => (body, none)
  if exponent.isNone && fraction.isNone then none
  let whole ← decimal? whole
  let fraction ← match fraction with
    | some ds => digits? Char.isDigit ds
    | none => some []
  let exponent ← match exponent with
    | some cs => exponent? cs
    | none => some 0
  return ⟨whole ++ fraction, exponent - fraction.length⟩

/-- The number rounds to a finite one of the binary format. With `n` digits it lies between
`10 ^ (n - 1 + exponent)` and `10 ^ (n + exponent)`, so that only near the largest number of the
format it has to be computed. -/
def Scientific.isFinite (x : Scientific) : Bool :=
  let ds := x.digits.dropWhile (· = '0')
  let size : Int := ds.length + x.exponent
  if ds.isEmpty || size ≤ 308 then true
  else if 310 ≤ size then false
  else
    (Magnitude.ofQuotient? (natOfDigits 10 ds * Nat.pow 10 x.exponent.toNat)
      (Nat.pow 10 (-x.exponent).toNat)).isSome

/-- The word as a float. -/
def float? (cs : List Char) : Option Toml :=
  let cs := (splitSign cs).2
  if cs = "inf".toList || cs = "nan".toList then some (.float true)
  else (Scientific.ofWord? cs).map fun x => .float x.isFinite

/-! ## Points in time -/

/-- The number of `n` digits. -/
def fixed? (n : Nat) (cs : List Char) : Option Nat :=
  if cs.length = n && cs.all Char.isDigit then some (natOfDigits 10 cs) else none

def isLeapYear (y : Nat) : Bool := y % 4 = 0 && (y % 100 ≠ 0 || y % 400 = 0)

def daysOf (year month : Nat) : Nat :=
  if month = 2 then (if isLeapYear year then 29 else 28)
  else if month = 4 || month = 6 || month = 9 || month = 11 then 30
  else 31

def isDate (cs : List Char) : Bool :=
  match Text.cut '-' cs with
  | [y, m, d] =>
    match fixed? 4 y, fixed? 2 m, fixed? 2 d with
    | some y, some m, some d => 1 ≤ m && m ≤ 12 && 1 ≤ d && d ≤ daysOf y m
    | _, _, _ => false
  | _ => false

/-- Hour and minute. -/
def isClock (h m : List Char) : Bool :=
  match fixed? 2 h, fixed? 2 m with
  | some h, some m => h ≤ 23 && m ≤ 59
  | _, _ => false

/-- Seconds; the last one may be a leap second. -/
def isSeconds (cs : List Char) : Bool :=
  let whole := match splitAt? (· = '.') cs with
    | some (whole, fraction) => if !fraction.isEmpty && fraction.all Char.isDigit then whole else []
    | none => cs
  match fixed? 2 whole with
  | some s => s ≤ 60
  | none => false

/-- A time of day; its seconds may be left out. -/
def isTime (cs : List Char) : Bool :=
  match Text.cut ':' cs with
  | [h, m] => isClock h m
  | [h, m, s] => isClock h m && isSeconds s
  | _ => false

/-- The text after a time names a distance from universal time. -/
def isOffset (cs : List Char) : Bool :=
  match Text.cut ':' cs with
  | [h, m] => isClock h m
  | _ => false

/-- A time of day, with or without an offset. -/
def isTimeWithOffset (cs : List Char) : Bool :=
  match splitAt? (fun c => c = '+' || c = '-') cs with
  | some (time, offset) => isTime time && isOffset offset
  | none =>
    match cs.getLast? with
    | some 'Z' | some 'z' => isTime cs.dropLast
    | _ => isTime cs

def isMoment (cs : List Char) : Bool :=
  isDate cs || isTime cs ||
    (isDate (cs.take 10) && isTimeWithOffset (cs.drop 11) &&
      (cs[10]? = some 'T' || cs[10]? = some 't' || cs[10]? = some ' '))

/-- The value of a word. -/
def word? (cs : List Char) : Option Toml :=
  if cs = "true".toList then some (.boolean true)
  else if cs = "false".toList then some (.boolean false)
  else
    match integer? cs, float? cs with
    | some n, _ => some (.integer n)
    | none, some x => some x
    | none, none => if isMoment cs then some (.moment (String.ofList cs)) else none

end ScriptWorks.Toml
