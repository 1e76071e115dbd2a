/-!
# UTF-8

Offsets count the bytes of a text's UTF-8 form. Here: the length of a text in bytes, the line and
column of a byte offset where columns count bytes too, and reading bytes as a text.
-/

namespace ScriptWorks.Text

/-- The number of bytes that the characters take. -/
def byteLength (cs : List Char) : Nat := cs.foldr (fun c n => c.utf8Size + n) 0

@[simp] theorem byteLength_nil : byteLength [] = 0 := rfl

@[simp] theorem byteLength_cons (c : Char) (cs : List Char) :
    byteLength (c :: cs) = c.utf8Size + byteLength cs := rfl

@[simp] theorem byteLength_append (cs ds : List Char) :
    byteLength (cs ++ ds) = byteLength cs + byteLength ds := by
  induction cs with
  | nil => simp
  | cons c cs ih => simp [ih, Nat.add_assoc]

/-- The bytes of the characters. -/
def bytes (cs : List Char) : List UInt8 := cs.flatMap String.utf8EncodeChar

/-- Line (from 1) and byte column (from 0) after the given bytes. -/
def lineColumnAfter (before : List UInt8) : Nat × Nat :=
  before.foldl (fun (p : Nat × Nat) b => if b = 10 then (p.1 + 1, 0) else (p.1, p.2 + 1)) (1, 0)

/-! ## Decoding -/

/-- A byte that continues a character. -/
def isTail (b : UInt8) : Bool := 0x80 ≤ b && b ≤ 0xBF

/-- The second bytes that may follow a first byte. -/
def isSecond (first b : UInt8) : Bool :=
  if first = 0xE0 then 0xA0 ≤ b && b ≤ 0xBF
  else if first = 0xED then 0x80 ≤ b && b ≤ 0x9F
  else if first = 0xF0 then 0x90 ≤ b && b ≤ 0xBF
  else if first = 0xF4 then 0x80 ≤ b && b ≤ 0x8F
  else isTail b

/-- The character of a first byte's bits and the six bits of each further byte. -/
def assemble (lead : Nat) (tail : List UInt8) : Char :=
  Char.ofNat (tail.foldl (fun n b => n * 64 + (b.toNat - 0x80)) lead)

/-- The characters of bytes. Where a character breaks off there is none, for as many bytes as were
right. -/
def decode : List UInt8 → List (Option Char)
  | [] => []
  | a :: rest =>
    if a < 0x80 then some (Char.ofNat a.toNat) :: decode rest
    else if a < 0xC2 || 0xF4 < a then none :: decode rest
    else
      match rest with
      | [] => [none]
      | b :: rest =>
        if !isSecond a b then none :: decode (b :: rest)
        else if a < 0xE0 then some (assemble (a.toNat - 0xC0) [b]) :: decode rest
        else
          match rest with
          | [] => [none]
          | c :: rest =>
            if !isTail c then none :: decode (c :: rest)
            else if a < 0xF0 then some (assemble (a.toNat - 0xE0) [b, c]) :: decode rest
            else
              match rest with
              | [] => [none]
              | d :: rest =>
                if !isTail d then none :: decode (d :: rest)
                else some (assemble (a.toNat - 0xF0) [b, c, d]) :: decode rest

/-- The text of bytes, if they are one. -/
def ofBytes? (bs : List UInt8) : Option String := ((decode bs).mapM id).map String.ofList

/-- The text of bytes, with a replacement character where a character breaks off. -/
def ofBytesLossy (bs : List UInt8) : String :=
  String.ofList ((decode bs).map fun c => c.getD '\uFFFD')

/-- How many bytes are at fault where a character breaks off; nothing if it breaks off at the end. -/
def faultLength : List UInt8 → Option Nat
  | [] => none
  | a :: rest =>
    if a < 0xC2 || 0xF4 < a then some 1
    else
      match rest with
      | [] => none
      | b :: rest =>
        if !isSecond a b then some 1
        else
          match rest with
          | [] => none
          | c :: rest => if !isTail c then some 2 else rest.head?.map fun _ => 3

/-- What is wrong with bytes that are no text. -/
def faultText (bs : List UInt8) : String :=
  let right := byteLength (((decode bs).takeWhile Option.isSome).filterMap id)
  match faultLength (bs.drop right) with
  | some n => s!"invalid utf-8 sequence of {n} bytes from index {right}"
  | none => s!"incomplete utf-8 byte sequence from index {right}"

end ScriptWorks.Text

namespace ScriptWorks

/-- Bytes: a text, or bytes that are none. -/
inductive Content where
  | text (s : String)
  | binary (bs : List UInt8)
deriving DecidableEq, Inhabited

namespace Content

/-- The content of a file with these bytes. -/
def ofBytes (bs : List UInt8) : Content :=
  match Text.ofBytes? bs with
  | some s => .text s
  | none => .binary bs

/-- The content as a text, whatever it is. -/
def lossy : Content → String
  | .text s => s
  | .binary bs => Text.ofBytesLossy bs

/-- The text, or why there is none. -/
def toText : Content → Except String String
  | .text s => .ok s
  | .binary bs => .error (Text.faultText bs)

end Content

end ScriptWorks
