import ScriptWorks.Json.Numeral
import ScriptWorks.Json.Printer

/-!
# Reading JSON

The reader keeps the unread rest of the text. Nesting is limited to 127 containers. Of two members
with one key the later counts. An object may stand for a value whose JSON text it holds: it has one
member, a string under a key of its own.
-/

namespace ScriptWorks.Json

/-- The white space of JSON. -/
def isSpace (c : Char) : Bool := c = ' ' || c = '\n' || c = '\t' || c = '\r'

def skipSpace (cs : List Char) : List Char := cs.dropWhile isSpace

/-- Reads the letters of a keyword. -/
def readKeyword (v : Json) : List Char → List Char → Reading Json
  | [], cs => .ok (v, cs)
  | _ :: _, [] => stop .endInValue [] 0
  | k :: ks, c :: cs => if c = k then readKeyword v ks cs else stop .expectedIdent (c :: cs) 1

/-! ## Strings -/

def hexValue? (c : Char) : Option Nat :=
  if c.isDigit then some (c.toNat - 48)
  else if 'a' ≤ c ∧ c ≤ 'f' then some (c.toNat - 87)
  else if 'A' ≤ c ∧ c ≤ 'F' then some (c.toNat - 55)
  else none

/-- The 16-bit unit of four hexadecimal digits. -/
def hexUnit? (a b c d : Char) : Option Nat := do
  let a ← hexValue? a
  let b ← hexValue? b
  let c ← hexValue? c
  let d ← hexValue? d
  return ((a * 16 + b) * 16 + c) * 16 + d

/-- The stop where four hexadecimal digits were expected: after four bytes, or at the end. -/
def hexStop {α : Type} (cs : List Char) : Except Stop α :=
  if 4 ≤ Text.byteLength cs then stop .invalidEscape cs 4 else stop .endInString [] 0

def isHighSurrogate (n : Nat) : Bool := 0xD800 ≤ n && n ≤ 0xDBFF

def isLowSurrogate (n : Nat) : Bool := 0xDC00 ≤ n && n ≤ 0xDFFF

/-- The character that an escape letter stands for. -/
def escaped? (c : Char) : Option Char :=
  if c = '"' then some '"'
  else if c = '\\' then some '\\'
  else if c = '/' then some '/'
  else if c = 'b' then some '\x08'
  else if c = 'f' then some '\x0c'
  else if c = 'n' then some '\n'
  else if c = 'r' then some '\r'
  else if c = 't' then some '\t'
  else none

/-- Adds a character to a string that is read after it. -/
def prepend (c : Char) : Reading (List Char) → Reading (List Char)
  | .ok (s, r) => .ok (c :: s, r)
  | .error e => .error e

/-- Reads the characters of a string up to its closing quote. -/
def readChars : List Char → Reading (List Char)
  | [] => stop .endInString [] 0
  | c :: r =>
    if c = '"' then .ok ([], r)
    else if c = '\\' then
      match r with
      | [] => stop .endInString [] 0
      | e :: r =>
        if e = 'u' then
          match r with
          | a :: b :: c :: d :: r' =>
            match hexUnit? a b c d with
            | none => hexStop (a :: b :: c :: d :: r')
            | some n =>
              if isLowSurrogate n then stop .loneSurrogate r' 0
              else if isHighSurrogate n then
                match r' with
                | [] => stop .endInString [] 0
                | x :: r =>
                  if x ≠ '\\' then stop .endOfHexEscape (x :: r) 1
                  else
                    match r with
                    | [] => stop .endInString [] 0
                    | y :: r =>
                      if y ≠ 'u' then stop .endOfHexEscape (y :: r) 1
                      else
                        match r with
                        | a :: b :: c :: d :: r' =>
                          match hexUnit? a b c d with
                          | none => hexStop (a :: b :: c :: d :: r')
                          | some m =>
                            if isLowSurrogate m then
                              prepend (Char.ofNat (0x10000 + (n - 0xD800) * 0x400 + (m - 0xDC00)))
                                (readChars r')
                            else stop .loneSurrogate r' 0
                        | short => hexStop short
              else prepend (Char.ofNat n) (readChars r')
          | short => hexStop short
        else
          match escaped? e with
          | some x => prepend x (readChars r)
          | none => stop .invalidEscape (e :: r) 1
    else if c.val < 0x20 then stop .controlCharacter (c :: r) 1
    else prepend c (readChars r)

/-- Reads a string after its opening quote. -/
def readString (cs : List Char) : Reading String :=
  match readChars cs with
  | .ok (s, r) => .ok (String.ofList s, r)
  | .error e => .error e

/-! ## Values -/

/-- Containers may be nested less deep than this. -/
def nestingLimit : Nat := 128

/-- The key under which an object holds the text of the value that it stands for. -/
def embeddedKey : String := "$serde_json::private::RawValue"

mutual

/-- Reads a value; `depth` bounds the containers that may still be opened. -/
def readValue : Nat → Nat → List Char → Reading Json
  | 0, _, cs => stop .endInValue cs 0
  | fuel + 1, depth, cs =>
    match skipSpace cs with
    | [] => stop .endInValue [] 0
    | c :: r =>
      if c = 'n' then readKeyword .null "ull".toList r
      else if c = 't' then readKeyword (.bool true) "rue".toList r
      else if c = 'f' then readKeyword (.bool false) "alse".toList r
      else if c = '-' then (Numeral.read true r).map fun (n, r) => (.num n, r)
      else if c.isDigit then (Numeral.read false (c :: r)).map fun (n, r) => (.num n, r)
      else if c = '"' then (readString r).map fun (s, r) => (.str s, r)
      else if c = '[' then
        if depth ≤ 1 then stop .tooDeep (c :: r) 1
        else
          match skipSpace r with
          | [] => stop .endInList [] 0
          | ']' :: r => .ok (.arr [], r)
          | r => (readItems fuel (depth - 1) r).map fun (vs, r) => (.arr vs, r)
      else if c = '{' then
        if depth ≤ 1 then stop .tooDeep (c :: r) 1
        else
          match skipSpace r with
          | [] => stop .endInObject [] 0
          | '}' :: r => .ok (.obj [], r)
          | '"' :: r =>
            match readString r with
            | .error e => .error e
            | .ok (k, r) =>
              if k = embeddedKey then readEmbedded fuel (depth - 1) r
              else (readMembers fuel (depth - 1) [] k r).map fun (ms, r) => (.obj ms, r)
          | r => stop .keyNotString r 1
      else stop .expectedValue (c :: r) 1
termination_by structural fuel => fuel

/-- Reads the items of a list up to its closing bracket. -/
def readItems : Nat → Nat → List Char → Except Stop (List Json × List Char)
  | 0, _, cs => stop .endInValue cs 0
  | fuel + 1, depth, cs => do
    let (v, r) ← readValue fuel depth cs
    match skipSpace r with
    | [] => stop .endInList [] 0
    | ']' :: r => .ok ([v], r)
    | ',' :: r =>
      match skipSpace r with
      | [] => stop .endInValue [] 0
      | ']' :: r => stop .trailingComma (']' :: r) 1
      | r =>
        let (vs, r) ← readItems fuel depth r
        .ok (v :: vs, r)
    | r => stop .expectedListEnd r 1
termination_by structural fuel => fuel

/-- Reads the members of an object after the first key. -/
def readMembers : Nat → Nat → Dict Json → String → List Char →
    Except Stop (Dict Json × List Char)
  | 0, _, _, _, cs => stop .endInValue cs 0
  | fuel + 1, depth, members, k, cs =>
    match skipSpace cs with
    | [] => stop .endInObject [] 0
    | ':' :: r => do
      let (v, r) ← readValue fuel depth r
      let members := Dict.insert members k v
      match skipSpace r with
      | [] => stop .endInObject [] 0
      | '}' :: r => .ok (members, r)
      | ',' :: r =>
        match skipSpace r with
        | [] => stop .endInValue [] 0
        | '"' :: r =>
          let (k, r) ← readString r
          readMembers fuel depth members k r
        | '}' :: r => stop .trailingComma ('}' :: r) 1
        | r => stop .keyNotString r 1
      | r => stop .expectedObjectEnd r 1
    | r => stop .expectedColon r 1
termination_by structural fuel => fuel

/-- Reads an object that stands for a value, after its key. -/
def readEmbedded : Nat → Nat → List Char → Except Stop (Json × List Char)
  | 0, _, cs => stop .endInValue cs 0
  | fuel + 1, depth, cs =>
    match skipSpace cs with
    | [] => stop .endInObject [] 0
    | ':' :: r =>
      match skipSpace r with
      | '"' :: r => do
        let (text, r) ← readString r
        match readWhole fuel text.toList with
        | .error e => .error (.within (e.toError text.toList))
        | .ok v =>
          match skipSpace r with
          | [] => stop .endInObject [] 0
          | '}' :: r => .ok (v, r)
          | ',' :: r => stop .trailingComma (',' :: r) 1
          | r => stop .trailingCharacters r 1
      | '[' :: r => stop (.noEmbeddedText (nature (.arr []))) ('[' :: r) 0
      | '{' :: r => stop (.noEmbeddedText (nature (.obj []))) ('{' :: r) 0
      | r => do
        let (v, r) ← readValue fuel depth r
        stop (.noEmbeddedText v.nature) r 0
    | r => stop .expectedColon r 1
termination_by structural fuel => fuel

/-- Reads a whole text. -/
def readWhole : Nat → List Char → Except Stop Json
  | 0, cs => stop .endInValue cs 0
  | fuel + 1, cs => do
    let (v, r) ← readValue fuel nestingLimit cs
    match skipSpace r with
    | [] => return v
    | r => stop .trailingCharacters r 1
termination_by structural fuel => fuel

end

/-- Reads a whole text. Every two steps of the reader take a character, which bounds them. -/
def readText (cs : List Char) : Except Stop Json := readWhole (2 * cs.length + 3) cs

/-- The value of a JSON text. -/
def parse (text : String) : Except SyntaxError Json :=
  (readText text.toList).mapError (·.toError text.toList)

end ScriptWorks.Json
