import ScriptWorks.Json.Basic
import ScriptWorks.Json.Fault

/-!
# JSON numerals

Digits are collected in a 64-bit word while they fit; later ones only move the decimal point. The
result is that word times a power of ten, both rounded to the binary format first.
-/

namespace ScriptWorks.Json

/-- What a reader gives: a value and the unread rest, or where it stopped. -/
abbrev Reading (α : Type) := Except Stop (α × List Char)

def stop {α : Type} (fault : Fault) (rest : List Char) (ahead : Nat) : Except Stop α :=
  .error (.before fault rest ahead)

/-- The value of a decimal digit. -/
def digitValue (c : Char) : Nat := c.toNat - 48

namespace Numeral

/-- The largest word. -/
def maxWord : Nat := Nat.pow 2 64 - 1

/-- Appends digits to a word while it stays a word; the digits left over are returned. -/
def collect : Nat → List Char → Nat × List Char
  | w, [] => (w, [])
  | w, c :: cs =>
    let w' := w * 10 + digitValue c
    if w' ≤ maxWord then collect w' cs else (w, c :: cs)

/-- `x * 10 ^ exponent` in steps of the binary format; nothing when it is too large. -/
def scale : Nat → Magnitude → Int → Option Magnitude
  | 0, x, _ => some x
  | fuel + 1, x, exponent =>
    if exponent.natAbs ≤ 308 then do
      let p ← Magnitude.tenPower? exponent.natAbs
      if 0 ≤ exponent then x.mul? p else x.div? p
    else if x.mantissa = 0 then some x
    else if 0 ≤ exponent then none
    else do
      let p ← Magnitude.tenPower? 308
      let x ← x.div? p
      scale fuel x (exponent + 308)

/-- The word times a power of ten. Four steps of `10 ^ 308` take every word to zero. -/
def magnitude? (word : Nat) (exponent : Int) : Option Magnitude := do
  scale 5 (← Magnitude.ofQuotient? word 1) exponent

/-- The largest exponent that a numeral may spell. -/
def maxSpelled : Nat := Nat.pow 2 31 - 1

/-- The value of exponent digits; nothing from the digit on that makes it too large. -/
def exponentDigits : Nat → List Char → Except (List Char) Nat
  | e, [] => .ok e
  | e, c :: cs =>
    let e' := e * 10 + digitValue c
    if e' ≤ maxSpelled then exponentDigits e' cs else .error cs

/-- The floating point number `word * 10 ^ exponent`. -/
def float (negative : Bool) (word : Nat) (exponent : Int) (rest : List Char) : Reading Number :=
  match magnitude? word exponent with
  | some m => .ok (.float ⟨negative, m⟩, rest)
  | none => stop .numberOutOfRange rest 0

/-- Reads the digits of an exponent, which moves the decimal point up or down. -/
def readSpelled (negative : Bool) (word : Nat) (exponent : Int) (down : Bool) (cs : List Char) :
    Reading Number :=
  match cs with
  | [] => stop .endInValue [] 0
  | c :: _ =>
    if c.isDigit then
      let digits := cs.takeWhile Char.isDigit
      let rest := cs.dropWhile Char.isDigit
      match exponentDigits 0 digits with
      | .ok e => float negative word (if down then exponent - e else exponent + e) rest
      | .error unread =>
        if word ≠ 0 ∧ !down then stop .numberOutOfRange (unread ++ rest) 0
        else .ok (.float ⟨negative, .zero⟩, rest)
    else stop .invalidNumber cs 1

/-- Reads what follows the `e` of a numeral. -/
def readExponent (negative : Bool) (word : Nat) (exponent : Int) (cs : List Char) : Reading Number :=
  match cs with
  | '+' :: r => readSpelled negative word exponent false r
  | '-' :: r => readSpelled negative word exponent true r
  | _ => readSpelled negative word exponent false cs

/-- Reads an exponent if one follows. -/
def readTail (negative : Bool) (word : Nat) (exponent : Int) (cs : List Char) : Reading Number :=
  match cs with
  | 'e' :: r => readExponent negative word exponent r
  | 'E' :: r => readExponent negative word exponent r
  | _ => float negative word exponent cs

/-- Reads what follows the point of a numeral. -/
def readFraction (negative : Bool) (word : Nat) (exponent : Int) (cs : List Char) : Reading Number :=
  let digits := cs.takeWhile Char.isDigit
  let rest := cs.dropWhile Char.isDigit
  match digits, rest with
  | [], [] => stop .endInValue [] 0
  | [], _ => stop .invalidNumber rest 1
  | _, _ =>
    let (word', unread) := collect word digits
    readTail negative word' (exponent - ((digits.length - unread.length : Nat) : Int)) rest

/-- An integer of the given sign: a word, a negative number of 64 bits, or else a float. -/
def integer (negative : Bool) (word : Nat) (rest : List Char) : Reading Number :=
  if negative then
    if word = 0 ∨ Nat.pow 2 63 < word then float true word 0 rest
    else .ok (.int (-(word : Int)), rest)
  else .ok (.int word, rest)

/-- Reads what follows the digits before the point of a numeral; so many of them did not fit into the
word. -/
def readAfterDigits (negative : Bool) (word left : Nat) (cs : List Char) : Reading Number :=
  match cs with
  | '.' :: r => readFraction negative word left r
  | 'e' :: r => readExponent negative word left r
  | 'E' :: r => readExponent negative word left r
  | _ => if left = 0 then integer negative word cs else float negative word left cs

/-- Reads a numeral after its sign. -/
def read (negative : Bool) (cs : List Char) : Reading Number :=
  match cs with
  | [] => stop .endInValue [] 0
  | c :: r =>
    if !c.isDigit then stop .invalidNumber cs 1
    else if c = '0' ∧ (r.head?.any Char.isDigit) then stop .invalidNumber r 1
    else
      let (word, unread) := collect 0 (cs.takeWhile Char.isDigit)
      readAfterDigits negative word unread.length (cs.dropWhile Char.isDigit)

end Numeral

end ScriptWorks.Json
