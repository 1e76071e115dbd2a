/-!
# Binary floating point

Finite numbers of the 64-bit binary format as exact integers: a sign and `mantissa * 2 ^ exponent`.
Every operation rounds an exact quotient to the nearest representable number, ties to even.
-/

namespace ScriptWorks

/-- The absolute value `mantissa * 2 ^ exponent` of a finite number of the format. -/
structure Magnitude where
  mantissa : Nat
  exponent : Int
deriving DecidableEq, Inhabited

namespace Magnitude

/-- The smallest exponent of the format. -/
def minExponent : Int := -1074

/-- The largest exponent of the format. -/
def maxExponent : Int := 971

def zero : Magnitude := ⟨0, minExponent⟩

/-- The quotient to the nearest integer, halves to the even neighbour. -/
def roundQuotient (num den : Nat) : Nat :=
  let q := num / den
  let r := num % den
  if 2 * r < den || (2 * r == den && q % 2 == 0) then q else q + 1

/-- The quotient `num / den / 2 ^ e` as a fraction of integers. -/
def scaleDown (num den : Nat) (e : Int) : Nat × Nat :=
  if 0 ≤ e then (num, den * Nat.pow 2 e.toNat) else (num * Nat.pow 2 (-e).toNat, den)

/-- The exponent that gives the quotient a mantissa of 53 bits, or the smallest one. -/
def exponentOf (num den : Nat) : Int :=
  let e : Int := (num.log2 : Int) - den.log2 - 53
  let (n, d) := scaleDown num den e
  max minExponent (if n < d * Nat.pow 2 53 then e else e + 1)

/-- The number nearest to `num / den`; nothing where that lies beyond the largest one. -/
def ofQuotient? (num den : Nat) : Option Magnitude :=
  if num = 0 then some zero
  else
    let e := exponentOf num den
    let (n, d) := scaleDown num den e
    let m := roundQuotient n d
    let (m, e) := if m = Nat.pow 2 53 then (Nat.pow 2 52, e + 1) else (m, e)
    if e ≤ maxExponent then some ⟨m, e⟩ else none

/-- The exact value as a fraction. -/
def fraction (x : Magnitude) : Nat × Nat :=
  if 0 ≤ x.exponent then (x.mantissa * Nat.pow 2 x.exponent.toNat, 1)
  else (x.mantissa, Nat.pow 2 (-x.exponent).toNat)

def mul? (x y : Magnitude) : Option Magnitude :=
  let (a, b) := x.fraction
  let (c, d) := y.fraction
  ofQuotient? (a * c) (b * d)

def div? (x y : Magnitude) : Option Magnitude :=
  let (a, b) := x.fraction
  let (c, d) := y.fraction
  ofQuotient? (a * d) (b * c)

/-- The number nearest to a power of ten. -/
def tenPower? (k : Nat) : Option Magnitude := ofQuotient? (Nat.pow 10 k) 1

end Magnitude

/-- A finite number of the 64-bit binary format. -/
structure Binary64 where
  negative : Bool
  magnitude : Magnitude
deriving DecidableEq, Inhabited

end ScriptWorks
