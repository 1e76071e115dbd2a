import ScriptWorks.Number.Binary64

/-!
# Shortest decimals

The decimal `digits * 10 ^ exponent` with the fewest digits that reads back as a given number; of
two such decimals the nearer one, and of two equally near ones the even one.
-/

namespace ScriptWorks

/-- The value `digits * 10 ^ exponent`. -/
structure Decimal where
  digits : Nat
  exponent : Int
deriving DecidableEq, Inhabited

namespace Decimal

/-- The exact value as a fraction. -/
def fraction (x : Decimal) : Nat × Nat :=
  if 0 ≤ x.exponent then (x.digits * Nat.pow 10 x.exponent.toNat, 1)
  else (x.digits, Nat.pow 10 (-x.exponent).toNat)

/-- The number of the binary format nearest to the decimal. -/
def toMagnitude? (x : Decimal) : Option Magnitude :=
  Magnitude.ofQuotient? x.fraction.1 x.fraction.2

end Decimal

namespace Magnitude

/-- The number of decimal digits before the point, at most 0 for numbers below 1. -/
def pointPosition (x : Magnitude) : Int :=
  let (num, den) := x.fraction
  let k : Int := ((Nat.repr num).length : Int) - (Nat.repr den).length
  -- `num / den` lies between `10 ^ (k - 1)` and `10 ^ (k + 1)`.
  let (a, b) : Nat × Nat :=
    if 0 ≤ k then (num, den * Nat.pow 10 k.toNat) else (num * Nat.pow 10 (-k).toNat, den)
  if b ≤ a then k + 1 else k

/-- The decimal of at most `n` digits that reads back as `x`, if there is one. -/
def decimalOfWidth? (x : Magnitude) (n : Nat) : Option Decimal :=
  let e : Int := x.pointPosition - n
  let (num, den) := x.fraction
  let (a, b) : Nat × Nat :=
    if 0 ≤ e then (num, den * Nat.pow 10 e.toNat) else (num * Nat.pow 10 (-e).toNat, den)
  let below : Decimal := ⟨a / b, e⟩
  let above : Decimal := ⟨a / b + 1, e⟩
  match decide (below.toMagnitude? = some x), decide (above.toMagnitude? = some x) with
  | true, true =>
    let r := a % b
    if 2 * r < b || (2 * r == b && a / b % 2 == 0) then some below else some above
  | true, false => some below
  | false, true => some above
  | false, false => none

/-- Moves factors of ten from the digits to the exponent. -/
def stripZeros : Nat → Decimal → Decimal
  | 0, x => x
  | n + 1, x =>
    if x.digits % 10 = 0 ∧ x.digits ≠ 0 then stripZeros n ⟨x.digits / 10, x.exponent + 1⟩ else x

/-- The shortest decimal that reads back as `x`. Seventeen digits always suffice. -/
def shortest (x : Magnitude) : Decimal :=
  if x.mantissa = 0 then ⟨0, 0⟩
  else
    match (List.range' 1 17).findSome? x.decimalOfWidth? with
    | some d => stripZeros 17 d
    | none => ⟨x.mantissa, 0⟩

end Magnitude

end ScriptWorks
