import ScriptWorks.Script.Compiler
import ScriptWorks.Text.Blank

/-!
# Tokens

Words, numbers, strings and signs of a source, with their byte spans. Blanks and comments are left
out; only whether a line ended before a token is kept. A byte order mark at the start of a source is
no part of it: bytes are counted after it.
-/

namespace ScriptWorks.Small

open Script

/-- The kind of a token. -/
inductive TokenKind where
  | word
  | number
  | string
  | sign
  /-- The end of the source. -/
  | finish
deriving DecidableEq, Inhabited

/-- A token of a source. -/
structure Token where
  kind : TokenKind
  text : String
  span : Span
  /-- A line ended between the token before and this one. -/
  afterLineEnd : Bool
deriving DecidableEq, Inhabited

/-- A character between tokens. -/
def isSpace (c : Char) : Bool := (Text.isBlank c && c ≠ '\u0085') || c = '\uFEFF'

/-- A character that a word may start with. -/
def isWordStart (c : Char) : Bool :=
  c.isAlpha || c = '_' || c = '$' || (c.val ≥ 0x80 && !isSpace c)

/-- A character of a word or a number. -/
def isWordPart (c : Char) : Bool := isWordStart c || c.isDigit

/-- The length in characters of a string up to its closing quote. -/
def stringLength (quote : Char) : List Char → Nat
  | [] => 0
  | '\\' :: _ :: cs => 2 + stringLength quote cs
  | c :: cs => if c = quote then 1 else 1 + stringLength quote cs

/-- The length in characters of a block comment up to its end. -/
def commentLength : List Char → Nat
  | [] => 0
  | '*' :: '/' :: _ => 2
  | _ :: cs => 1 + commentLength cs

/-- The length in characters of what belongs to a number after the character `before`. The exponent
of a decimal number may have a sign. -/
def numberLength (isDecimal : Bool) (before : Char) : List Char → Nat
  | [] => 0
  | c :: cs =>
    let isSign := isDecimal && (before = 'e' || before = 'E') && (c = '+' || c = '-')
    if isWordPart c || c = '.' || isSign then 1 + numberLength isDecimal c cs else 0

/-- A number in another base than ten begins like this. -/
def startsRadix : List Char → Bool
  | '0' :: c :: _ => c.isAlpha && c ≠ 'e' && c ≠ 'E'
  | _ => false

/-- The kind of the token that a text begins with, and its length in characters. -/
def tokenAt (c : Char) (cs : List Char) : TokenKind × Nat :=
  if isWordStart c then (.word, 1 + (cs.takeWhile isWordPart).length)
  else if c.isDigit || (c = '.' && cs.head?.any Char.isDigit) then
    (.number, 1 + numberLength (!startsRadix (c :: cs)) c cs)
  else if c = '"' || c = '\'' || c.toNat = 96 then (.string, 1 + stringLength c cs)
  else if c = '=' && cs.head? = some '>' then (.sign, 2)
  else (.sign, 1)

/-- The tokens from a byte offset on. -/
def tokensFrom : Nat → Nat → Bool → List Char → List Token
  | 0, _, _, _ => []
  | _ + 1, offset, fresh, [] => [⟨.finish, "<eof>", ⟨offset, offset⟩, fresh⟩]
  | fuel + 1, offset, fresh, c :: cs =>
    if isSpace c then tokensFrom fuel (offset + c.utf8Size) (fresh || isLineEnd c) cs
    else if c = '/' && cs.head? = some '/' then
      let comment := (c :: cs).takeWhile (!isLineEnd ·)
      tokensFrom fuel (offset + Text.byteLength comment) fresh ((c :: cs).drop comment.length)
    else if c = '/' && cs.head? = some '*' then
      let n := 2 + commentLength cs.tail
      let comment := (c :: cs).take n
      tokensFrom fuel (offset + Text.byteLength comment) (fresh || comment.any isLineEnd)
        ((c :: cs).drop n)
    else
      let (kind, n) := tokenAt c cs
      let text := (c :: cs).take n
      let stop := offset + Text.byteLength text
      ⟨kind, String.ofList text, ⟨offset, stop⟩, fresh⟩ ::
        tokensFrom fuel stop false ((c :: cs).drop n)

/-- The tokens of a source; every one of them takes a character. -/
def tokens (source : String) : List Token :=
  let cs := match source.toList with
    | '\uFEFF' :: cs => cs
    | cs => cs
  tokensFrom (cs.length + 1) 0 false cs

end ScriptWorks.Small
