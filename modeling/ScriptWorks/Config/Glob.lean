/-!
# Path patterns

Patterns over paths with slashes: `?` is a character, `*` any characters, both without slashes; `**`
is any number of directories and must stand between slashes; `[..]` is a class of characters.
-/

namespace ScriptWorks

/-- A part of a character class. -/
inductive Glob.Range where
  | single (c : Char)
  | range (first last : Char)
deriving DecidableEq, Inhabited

/-- A part of a pattern. -/
inductive Glob.Token where
  | char (c : Char)
  | anyChar
  | anySequence
  | anyDirectories
  | within (ranges : List Glob.Range)
  | except (ranges : List Glob.Range)
deriving DecidableEq, Inhabited

/-- A pattern. -/
structure Glob where
  tokens : List Glob.Token
deriving DecidableEq, Inhabited

namespace Glob

def Range.contains (c : Char) : Range → Bool
  | .single d => c = d
  | .range a b => a ≤ c && c ≤ b

/-- The ranges that the text of a class stands for. -/
def classRanges : List Char → List Range
  | a :: '-' :: b :: cs => .range a b :: classRanges cs
  | a :: cs => .single a :: classRanges cs
  | [] => []

/-- Splits the text of a class at its closing bracket, which is never the first character. -/
def splitClass (cs : List Char) : Option (List Char × List Char) :=
  match cs with
  | [] => none
  | first :: cs =>
    if cs.contains ']' then
      some (first :: cs.takeWhile (· ≠ ']'), (cs.dropWhile (· ≠ ']')).tail)
    else none

/-- Adds `**`; two of them in a row are one, but not at the start. -/
def addDirectories (tokens : List Token) : List Token :=
  match tokens with
  | .anyDirectories :: _ :: _ => tokens
  | _ => .anyDirectories :: tokens

/-- Reads the rest of a pattern after the tokens in reverse; `fresh` says that it starts a component. -/
def tokensFrom : Nat → Bool → List Token → List Char → Option (List Token)
  | 0, _, _, _ => none
  | _ + 1, _, done, [] => some done.reverse
  | fuel + 1, fresh, done, c :: cs =>
    if c = '?' then tokensFrom fuel false (.anyChar :: done) cs
    else if c = '*' then
      match cs with
      | '*' :: '*' :: _ => none
      | '*' :: cs =>
        if !fresh then none
        else
          match cs with
          | [] => tokensFrom fuel false (addDirectories done) []
          | d :: cs => if d = '/' then tokensFrom fuel true (addDirectories done) cs else none
      | cs => tokensFrom fuel false (.anySequence :: done) cs
    else if c = '[' then
      match cs with
      | '!' :: cs =>
        match splitClass cs with
        | some (text, rest) => tokensFrom fuel false (.except (classRanges text) :: done) rest
        | none => none
      | cs =>
        match splitClass cs with
        | some (text, rest) => tokensFrom fuel false (.within (classRanges text) :: done) rest
        | none => none
    else tokensFrom fuel (c = '/') (.char c :: done) cs

/-- The pattern that a text stands for; nothing if `**` is not a component or a class is not closed. -/
def ofString? (s : String) : Option Glob :=
  (tokensFrom (s.length + 1) true [] s.toList).map Glob.mk

/-- The result of matching: no match here, or none even with less of the text. -/
inductive Outcome where
  | found
  | notHere
  | textTooShort
deriving DecidableEq, Inhabited

/-- A token for one character accepts it. -/
def Token.accepts (c : Char) : Token → Bool
  | .char d => c = d
  | .anyChar => c ≠ '/'
  | .within ranges => c ≠ '/' && ranges.any (·.contains c)
  | .except ranges => c ≠ '/' && !ranges.any (·.contains c)
  | .anySequence | .anyDirectories => false

/-- Tries the rest of a pattern at every place that a wildcard may end at: a sequence ends anywhere
before the next slash, directories end after a slash. `mayEnd` says that this is such a place. -/
def tryFrom (rest : List Char → Outcome) (sequence : Bool) : Bool → List Char → Outcome
  | _, [] => rest []
  | mayEnd, c :: cs =>
    match if mayEnd then rest (c :: cs) else .notHere with
    | .notHere =>
      if sequence && c = '/' then .notHere else tryFrom rest sequence (sequence || c = '/') cs
    | m => m

/-- Matches the tokens against a text. -/
def run : List Token → List Char → Outcome
  | [], [] => .found
  | [], _ :: _ => .notHere
  | .anySequence :: ts, cs => tryFrom (run ts) true true cs
  | .anyDirectories :: ts, cs => tryFrom (run ts) false true cs
  | _ :: _, [] => .textTooShort
  | t :: ts, c :: cs => if t.accepts c then run ts cs else .notHere

/-- The pattern covers the text. -/
def covers (g : Glob) (s : String) : Bool := run g.tokens s.toList = .found

/-- A way to read patterns: the texts that one covers, or nothing if it is malformed. -/
abbrev Meaning := String → Option (String → Bool)

/-- How the patterns described above are read. -/
def meaning : Meaning := fun s => (ofString? s).map covers

end Glob

end ScriptWorks
