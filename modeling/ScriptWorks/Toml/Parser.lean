import ScriptWorks.Toml.Scalar

/-!
# Reading TOML

A document is a list of lines; each opens a table or adds a value to the one that is open. A reader
gives a value and the unread rest, and there is one reason for a refusal: the text is no document.
-/

namespace ScriptWorks.Toml

def isGap (c : Char) : Bool := c = ' ' || c = '\t'

def skipGaps (cs : List Char) : List Char := cs.dropWhile isGap

/-- A character that may stand in comments and in strings of one line. -/
def isPlain (c : Char) : Bool := c = '\t' || (0x20 ≤ c.val && c.val ≠ 0x7F)

/-- Skips a comment, if one follows, up to the end of its line. -/
def skipComment : List Char → List Char
  | '#' :: cs => cs.dropWhile isPlain
  | cs => cs

/-- Reads what may follow a statement: blanks, a comment, and the line's end. -/
def readLineEnd (cs : List Char) : Option (List Char) :=
  match skipComment (skipGaps cs) with
  | [] => some []
  | '\n' :: cs => some cs
  | '\r' :: '\n' :: cs => some cs
  | _ => none

/-- Skips blanks, lines' ends and comments, as they may stand inside brackets and braces. -/
def skipLayout (inComment : Bool) : List Char → List Char
  | [] => []
  | c :: cs =>
    if c = '\n' then skipLayout false cs
    else if c = '\r' && cs.head? = some '\n' then skipLayout false cs
    else if inComment then (if isPlain c then skipLayout true cs else c :: cs)
    else if isGap c then skipLayout false cs
    else if c = '#' then skipLayout true cs
    else c :: cs

/-! ## Strings -/

/-- The character that an escape letter stands for. -/
def escaped? (c : Char) : Option Char :=
  if c = 'b' then some '\x08'
  else if c = 't' then some '\t'
  else if c = 'n' then some '\n'
  else if c = 'e' then some '\x1b'
  else if c = 'f' then some '\x0c'
  else if c = 'r' then some '\r'
  else if c = '"' || c = '\\' then some c
  else none

/-- The character of a code point in hexadecimal digits. -/
def codePoint? (digits : List Char) : Option Char := do
  if !digits.all (fun c => (Json.hexValue? c).isSome) then none
  let n := natOfDigits 16 digits
  if n.isValidChar then some (Char.ofNat n) else none

/-- A backslash before this rest takes away the end of the line and the blanks that follow. -/
def continues (rest : List Char) : Bool :=
  match skipGaps rest with
  | '\n' :: _ => true
  | '\r' :: '\n' :: _ => true
  | _ => false

/-- Resolves the escapes in the body of a string. `skipping` holds after a backslash at the end of a
line. -/
def unescape (skipping : Bool) : List Char → Option (List Char)
  | [] => some []
  | c :: cs =>
    if skipping && (isGap c || c = '\n' || c = '\r') then unescape true cs
    else if c = '\\' then
      match cs with
      | 'x' :: a :: b :: cs => do
        return (← codePoint? [a, b]) :: (← unescape false cs)
      | 'u' :: a :: b :: c :: d :: cs => do
        return (← codePoint? [a, b, c, d]) :: (← unescape false cs)
      | 'U' :: a :: b :: c :: d :: e :: f :: g :: h :: cs => do
        return (← codePoint? [a, b, c, d, e, f, g, h]) :: (← unescape false cs)
      | e :: cs' =>
        match escaped? e with
        | some x => (unescape false cs').map (x :: ·)
        | none => if continues (e :: cs') then unescape true (e :: cs') else none
      | [] => none
    else (unescape false cs).map (c :: ·)

/-- Reads up to an unescaped quote on the same line. -/
def readBody (quote : Char) (escapes : Bool) : List Char → Option (List Char × List Char)
  | [] => none
  | c :: cs =>
    if c = quote then some ([], cs)
    else if c = '\\' && escapes then
      match cs with
      | e :: cs =>
        if isPlain e then (readBody quote escapes cs).map fun (b, r) => (c :: e :: b, r) else none
      | [] => none
    else if isPlain c then (readBody quote escapes cs).map fun (b, r) => (c :: b, r)
    else none

/-- Reads up to three quotes; up to two more belong to the string. Lines' ends are kept as they are. -/
def readLongBody (quote : Char) (escapes : Bool) : List Char → Option (List Char × List Char)
  | [] => none
  | c :: cs =>
    if c = quote && cs.take 2 = [quote, quote] then
      let more := (cs.drop 2).takeWhile (· = quote)
      if 2 < more.length then none else some (more, (cs.drop 2).drop more.length)
    else if c = '\\' && escapes then
      match cs with
      | e :: cs => (readLongBody quote escapes cs).map fun (b, r) => (c :: e :: b, r)
      | [] => none
    else if c = '\r' then
      if cs.head? = some '\n' then (readLongBody quote escapes cs).map fun (b, r) => (c :: b, r)
      else none
    else if isPlain c || c = '\n' then
      (readLongBody quote escapes cs).map fun (b, r) => (c :: b, r)
    else none

/-- The line's end right after the opening quotes is no part of a string. -/
def dropFirstLineEnd : List Char → List Char
  | '\n' :: cs => cs
  | '\r' :: '\n' :: cs => cs
  | cs => cs

/-- Reads a string in single or double quotes on one line. -/
def readShortString : List Char → Option (String × List Char)
  | '"' :: cs => do
    let (body, r) ← readBody '"' true cs
    return (String.ofList (← unescape false body), r)
  | '\'' :: cs => (readBody '\'' false cs).map fun (body, r) => (String.ofList body, r)
  | _ => none

def readString : List Char → Option (String × List Char)
  | '"' :: '"' :: '"' :: cs => do
    let (body, r) ← readLongBody '"' true (dropFirstLineEnd cs)
    return (String.ofList (← unescape false body), r)
  | '\'' :: '\'' :: '\'' :: cs =>
    (readLongBody '\'' false (dropFirstLineEnd cs)).map fun (body, r) => (String.ofList body, r)
  | cs => readShortString cs

/-! ## Keys -/

def isBareKey (c : Char) : Bool := c.isAlphanum || c = '_' || c = '-'

/-- Reads one part of a key. -/
def readKeyPart (cs : List Char) : Option (String × List Char) :=
  match cs with
  | '"' :: _ | '\'' :: _ => readShortString cs
  | _ =>
    let name := cs.takeWhile isBareKey
    if name.isEmpty then none else some (String.ofList name, cs.dropWhile isBareKey)

/-- The number of parts that a key may have, and of brackets and braces that may be open at once. -/
def maxDepth : Nat := 80

/-- Reads a key of at most so many parts, and the blanks around it. -/
def readKeyParts : Nat → List Char → Option (List String × List Char)
  | 0, _ => none
  | most + 1, cs => do
    let (k, r) ← readKeyPart (skipGaps cs)
    match skipGaps r with
    | '.' :: r =>
      let (ks, r) ← readKeyParts most r
      return (k :: ks, r)
    | r => return ([k], r)

/-- Reads a key with dots or without, and the blanks around it. -/
def readKey (cs : List Char) : Option (List String × List Char) := readKeyParts maxDepth cs

/-! ## Values -/

/-- A character of a word. -/
def isWordChar (c : Char) : Bool :=
  c.isAlphanum || c = '_' || c = '+' || c = '-' || c = '.' || c = ':'

/-- Reads a word. A date may be followed by a blank and a time. -/
def readWord (cs : List Char) : Option (Toml × List Char) := do
  let first := cs.takeWhile isWordChar
  let rest := cs.dropWhile isWordChar
  match rest with
  | ' ' :: c :: r =>
    if isDate first && c.isDigit then
      let time := (c :: r).takeWhile isWordChar
      return (← word? (first ++ ' ' :: time), (c :: r).dropWhile isWordChar)
    else return (← word? first, rest)
  | _ => return (← word? first, rest)

mutual

/-- Reads a value in which at most `depth` brackets and braces are open at once. -/
def readValue : Nat → Nat → List Char → Option (Toml × List Char)
  | 0, _, _ => none
  | fuel + 1, depth, cs =>
    match cs, depth with
    | '"' :: _, _ | '\'' :: _, _ => (readString cs).map fun (s, r) => (.string s, r)
    | '[' :: cs, depth + 1 =>
      match skipLayout false cs with
      | ']' :: r => some (.array [], r)
      | cs => (readItems fuel depth cs).map fun (items, r) => (.array items, r)
    | '\x7b' :: cs, depth + 1 =>
      match skipLayout false cs with
      | '\x7d' :: r => some (.table .inline [], r)
      | cs => readEntries fuel depth (.table .inline []) cs
    | cs, _ => readWord cs

/-- Reads the items of an array up to its closing bracket. -/
def readItems : Nat → Nat → List Char → Option (List Toml × List Char)
  | 0, _, _ => none
  | fuel + 1, depth, cs => do
    let (v, r) ← readValue fuel depth cs
    match skipLayout false r with
    | ']' :: r => return ([v], r)
    | ',' :: r =>
      match skipLayout false r with
      | ']' :: r => return ([v], r)
      | r =>
        let (vs, r) ← readItems fuel depth r
        return (v :: vs, r)
    | _ => none

/-- Reads the entries of a table in braces up to the closing one. -/
def readEntries : Nat → Nat → Toml → List Char → Option (Toml × List Char)
  | 0, _, _, _ => none
  | fuel + 1, depth, t, cs => do
    let (path, r) ← readKey cs
    match skipLayout false r with
    | '=' :: r =>
      let (v, r) ← readValue fuel depth (skipLayout false r)
      let t ← insertAt path v t
      match skipLayout false r with
      | '\x7d' :: r => return (t, r)
      | ',' :: r =>
        match skipLayout false r with
        | '\x7d' :: r => return (t, r)
        | r => readEntries fuel depth t r
      | _ => none
    | _ => none

end

/-! ## Documents -/

/-- A line with something on it. -/
inductive Statement where
  | header (path : List String)
  | arrayHeader (path : List String)
  | entry (path : List String) (value : Toml)
deriving Inhabited

/-- Reads the statement of a line, if there is one, and the line's end. -/
def readStatement (cs : List Char) : Option (Option Statement × List Char) := do
  match skipGaps cs with
  | '[' :: '[' :: r =>
    let (path, r) ← readKey r
    match r with
    | ']' :: ']' :: r => return (some (.arrayHeader path), ← readLineEnd r)
    | _ => none
  | '[' :: r =>
    let (path, r) ← readKey r
    match r with
    | ']' :: r => return (some (.header path), ← readLineEnd r)
    | _ => none
  | r =>
    match readLineEnd r with
    | some r => return (none, r)
    | none =>
      let (path, r) ← readKey r
      match r with
      | '=' :: r =>
        let r := skipGaps r
        let (v, r) ← readValue (2 * r.length + 2) maxDepth r
        return (some (.entry path v), ← readLineEnd r)
      | _ => none

/-- Reads all lines; `fuel` bounds their number. -/
def readStatements : Nat → List Char → Option (List Statement)
  | 0, _ => none
  | _, [] => some []
  | fuel + 1, cs => do
    let (s, r) ← readStatement cs
    return s.toList ++ (← readStatements fuel r)

/-- A document in the making, and the path of the table that is open. -/
structure Draft where
  document : Toml := .table .inline []
  current : List String := []

def Draft.add (d : Draft) : Statement → Option Draft
  | .header path => do
    return { document := ← changeLast .implied openTable path d.document, current := path }
  | .arrayHeader path => do
    return { document := ← changeLast .implied appendTable path d.document, current := path }
  | .entry path v => do
    return { d with document := ← change .implied (insertAt path v) d.current d.document }

/-- The document of a text. A byte order mark at its start is skipped. -/
def parse? (text : String) : Option Toml := do
  let cs := match text.toList with
    | '\uFEFF' :: cs => cs
    | cs => cs
  let statements ← readStatements (cs.length + 1) cs
  return (← statements.foldlM Draft.add {}).document

end ScriptWorks.Toml
