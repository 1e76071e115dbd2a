/-!
# Language levels

The levels of the language that scripts can be written for, in order.
-/

namespace ScriptWorks

/-- A level of the language. -/
inductive LanguageLevel where
  | es3
  | es5
  | es2015
  | es2016
  | es2017
  | es2018
  | es2019
  | es2020
  | es2021
  | es2022
  | esNext
deriving DecidableEq, Inhabited

namespace LanguageLevel

/-- The capital of a letter, as far as it can be an ASCII letter: beside the ASCII letters only the
long s and the dotless i have such a capital. -/
def capital (c : Char) : Char :=
  if c = 'ſ' then 'S' else if c = 'ı' then 'I' else c.toUpper

/-- The level that a word names, in any case. -/
def ofWord? (s : String) : Option LanguageLevel :=
  match String.ofList (s.toList.map capital) with
  | "ES3" => some .es3
  | "ES5" => some .es5
  | "ES6" | "ES2015" => some .es2015
  | "ES2016" => some .es2016
  | "ES2017" => some .es2017
  | "ES2018" => some .es2018
  | "ES2019" => some .es2019
  | "ES2020" => some .es2020
  | "ES2021" => some .es2021
  | "ES2022" => some .es2022
  | "ESNEXT" => some .esNext
  | _ => none

/-- The position in the order of levels. -/
def rank : LanguageLevel → Nat
  | .es3 => 0
  | .es5 => 1
  | .es2015 => 2
  | .es2016 => 3
  | .es2017 => 4
  | .es2018 => 5
  | .es2019 => 6
  | .es2020 => 7
  | .es2021 => 8
  | .es2022 => 9
  | .esNext => 10

def name : LanguageLevel → String
  | .es3 => "Es3"
  | .es5 => "Es5"
  | .es2015 => "Es2015"
  | .es2016 => "Es2016"
  | .es2017 => "Es2017"
  | .es2018 => "Es2018"
  | .es2019 => "Es2019"
  | .es2020 => "Es2020"
  | .es2021 => "Es2021"
  | .es2022 => "Es2022"
  | .esNext => "EsNext"

/-- The levels in order, equal ones kept. -/
def sort (levels : List LanguageLevel) : List LanguageLevel :=
  levels.mergeSort fun a b => a.rank ≤ b.rank

end LanguageLevel

end ScriptWorks
