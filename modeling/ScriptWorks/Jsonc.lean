import ScriptWorks.Json.Parser
import ScriptWorks.Text.Blank

/-!
# JSON with comments

Configuration files may hold comments and a comma before a closing bracket. `strip` takes both away
and keeps every line end, so that line numbers stay those of the text.
-/

namespace ScriptWorks.Jsonc

/-- Where in a text a character stands. -/
inductive Region where
  | code
  | string
  | escape
  | lineComment
  | blockComment
deriving DecidableEq, Inhabited

/-- The text without comments; the line ends inside them are kept. -/
def dropComments : Region → List Char → List Char
  | _, [] => []
  | .escape, c :: cs => c :: dropComments .string cs
  | .string, c :: cs =>
    if c = '\\' then c :: dropComments .escape cs
    else if c = '"' then c :: dropComments .code cs
    else c :: dropComments .string cs
  | .code, c :: cs =>
    if c = '"' then c :: dropComments .string cs
    else if c = '/' then
      match cs with
      | [] => [c]
      | d :: ds =>
        if d = '/' then dropComments .lineComment ds
        else if d = '*' then dropComments .blockComment ds
        else c :: dropComments .code (d :: ds)
    else c :: dropComments .code cs
  | .lineComment, c :: cs =>
    if c = '\n' then c :: dropComments .code cs else dropComments .lineComment cs
  | .blockComment, c :: cs =>
    if c = '\n' then c :: dropComments .blockComment cs
    else if c = '*' then
      match cs with
      | [] => []
      | d :: ds =>
        if d = '/' then dropComments .code ds else dropComments .blockComment (d :: ds)
    else dropComments .blockComment cs

/-- Whether the next character that is not blank closes a list or an object. -/
def closesNext (cs : List Char) : Bool :=
  match Text.trimStart cs with
  | c :: _ => c = ']' || c = '}'
  | [] => false

/-- The text with a space in place of every comma before a closing bracket. -/
def blankCommas : Region → List Char → List Char
  | _, [] => []
  | .escape, c :: cs => c :: blankCommas .string cs
  | .string, c :: cs =>
    if c = '\\' then c :: blankCommas .escape cs
    else if c = '"' then c :: blankCommas .code cs
    else c :: blankCommas .string cs
  | _, c :: cs =>
    if c = '"' then c :: blankCommas .string cs
    else if c = ',' then (if closesNext cs then ' ' else c) :: blankCommas .code cs
    else c :: blankCommas .code cs

/-- The JSON text of a JSON text with comments. -/
def strip (cs : List Char) : List Char := blankCommas .code (dropComments .code cs)

/-- A string without comments and without commas before closing brackets. -/
def stripString (s : String) : String := String.ofList (strip s.toList)

/-- The value of a JSON text with comments. Errors count lines and columns of the stripped text. -/
def parse (text : String) : Except Json.SyntaxError Json := Json.parse (stripString text)

end ScriptWorks.Jsonc
