import ScriptWorks.Diagnostic.Basic
import ScriptWorks.FileSystem.Host
import ScriptWorks.Text.Blank
import ScriptWorks.Text.Digit

/-!
# Output of a type checker

A checker prints a line for each diagnostic, `file(line,column): category TScode: message` or without
the place, and indented lines for its causes. All other lines mean nothing.
-/

namespace ScriptWorks.Checker

/-- A line that begins a diagnostic. -/
structure Head where
  /-- File, line and column. -/
  place : Option (String × Nat × Nat)
  category : Category
  code : Nat
  text : String
deriving DecidableEq, Inhabited

/-- A diagnostic as it is printed: its head, and its causes with their indentation. -/
structure Printed where
  head : Head
  details : List (Nat × String) := []
deriving DecidableEq, Inhabited

/-! ## Lines -/

/-- The words for categories. -/
def categories : List (String × Category) :=
  [("error", .error), ("warning", .warning), ("message", .message), ("suggestion", .suggestion)]

/-- Takes a word off the start. -/
def dropWord (word : String) (cs : List Char) : Option (List Char) :=
  if word.toList.isPrefixOf cs then some (cs.drop word.length) else none

/-- Takes decimal digits off the start; at least one. -/
def takeDigits (cs : List Char) : Option (List Char × List Char) :=
  let digits := cs.takeWhile Text.isDecimalDigit
  if digits.isEmpty then none else some (digits, cs.drop digits.length)

/-- A number of 32 bits in ASCII digits. -/
def word32? (digits : List Char) : Option Nat :=
  if digits.all Char.isDigit then
    let n := digits.foldl (fun n c => n * 10 + (c.toNat - 48)) 0
    if n < Nat.pow 2 32 then some n else none
  else none

/-- What follows the place: category, digits of the code, message. -/
def tail? (cs : List Char) : Option (Category × List Char × String) := do
  let (category, cs) ← categories.findSome? fun (word, c) => (dropWord word cs).map (c, ·)
  let cs ← dropWord " TS" cs
  let (code, cs) ← takeDigits cs
  let cs ← dropWord ": " cs
  return (category, code, String.ofList cs)

/-- What follows the file: digits of line and column, then the rest. -/
def place? (cs : List Char) :
    Option ((List Char × List Char) × Category × List Char × String) := do
  let cs ← dropWord "(" cs
  let (line, cs) ← takeDigits cs
  let cs ← dropWord "," cs
  let (column, cs) ← takeDigits cs
  let cs ← dropWord "): " cs
  let rest ← tail? cs
  return ((line, column), rest)

/-- The last way to cut a line into a file, which is not empty, and what follows it. -/
def cutLast (file : List Char) :
    List Char → Option (List Char × (List Char × List Char) × Category × List Char × String)
  | [] => none
  | c :: cs =>
    match cutLast (file ++ [c]) cs with
    | some found => some found
    | none => if file.isEmpty then none else (place? (c :: cs)).map (file, ·)

/-- What a line that is not indented says. A line with a place whose numbers are too large says
nothing. -/
def head? (line : List Char) : Option Head :=
  match cutLast [] line with
  | some (file, (l, c), category, code, text) => do
    return ⟨some (String.ofList file, ← word32? l, ← word32? c), category, ← word32? code, text⟩
  | none => do
    let (category, code, text) ← tail? line
    return ⟨none, category, ← word32? code, text⟩

/-- Adds a line to the diagnostics so far, the last of which comes first. -/
def addLine (printed : List Printed) (line : List Char) : List Printed :=
  let line := Text.trimEnd line
  match line with
  | [] => printed
  | c :: _ =>
    if Text.isBlank c then
      let text := Text.trimStart line
      let indent := Text.byteLength (line.takeWhile Text.isBlank)
      match printed with
      | last :: before =>
        { last with details := last.details ++ [(indent / 2, String.ofList text)] } :: before
      | [] => []
    else
      match head? line with
      | some h => ⟨h, []⟩ :: printed
      | none => printed

/-- The diagnostics that an output prints, in order. -/
def printed (output : String) : List Printed :=
  ((Text.lines output.toList).foldl addLine []).reverse

/-! ## Messages -/

/-- Adds a cause to a chain, after those it has. -/
def addCause (chain cause : MessageChain) : MessageChain := .mk chain.text (chain.next ++ [cause])

/-- Gives chains at `depth` or deeper to those below them; `top` lies on the others. -/
def settle (depth : Nat) (top : Nat × MessageChain) :
    List (Nat × MessageChain) → (Nat × MessageChain) × List (Nat × MessageChain)
  | [] => (top, [])
  | parent :: rest =>
    if depth ≤ top.1 then settle depth (parent.1, addCause parent.2 top.2) rest
    else (top, parent :: rest)

/-- Lays a cause on the chains that it may belong to. -/
def addDetail (stack : (Nat × MessageChain) × List (Nat × MessageChain)) (detail : Nat × String) :
    (Nat × MessageChain) × List (Nat × MessageChain) :=
  let depth := max detail.1 1
  let (top, rest) := settle depth stack.1 stack.2
  ((depth, .mk detail.2 []), top :: rest)

/-- The message of a head with causes, nested by their depth. -/
def message (head : String) (details : List (Nat × String)) : Message :=
  match details with
  | [] => .text head
  | details =>
    let (top, rest) := details.foldl addDetail ((0, .mk head []), [])
    .chain (settle 1 top rest).1.2

/-! ## Diagnostics -/

/-- The file at a path; one that cannot be read is empty. -/
def readFile (h : Host) (p : Path) : SourceText := ⟨p.text, (h.readText p).toOption.getD ""⟩

/-- The diagnostic of what is printed. Files are seen from `cwd`. -/
def diagnostic (h : Host) (cwd : Path) (p : Printed) : Diagnostic :=
  let base : Diagnostic :=
    { category := p.head.category, code := p.head.code, message := message p.head.text p.details }
  match p.head.place with
  | none => base
  | some (name, line, column) =>
    let file := readFile h (cwd.child name).normalize
    match file.offsetOf? (line - 1) (column - 1) with
    | some start => { base with file := some file, start := some start, length := some 1 }
    | none => { base with file := some file }

/-- The diagnostics of an output. -/
def diagnostics (h : Host) (output : String) (cwd : Path) : List Diagnostic :=
  (printed output).map (diagnostic h cwd)

end ScriptWorks.Checker
