import ScriptWorks.Text.Utf8

/-!
# Positions in source texts

A position is a line and a number of characters on it, both from 0; an offset counts bytes.
-/

namespace ScriptWorks

/-- A file's name and text. -/
structure SourceText where
  name : String
  text : String
deriving DecidableEq, Inhabited

namespace SourceText

/-- Line and character of the byte offset in the text. Past the end it is the end; inside a character
the bytes of the line are counted instead of its characters. `(line, bytes, characters)` is the
position reached. -/
def positionFrom (line bytes characters : Nat) : List Char → Nat → Nat × Nat
  | [], _ => (line, characters)
  | c :: cs, offset =>
    if offset = 0 then (line, characters)
    else if offset < c.utf8Size then (line, bytes + offset)
    else if c = '\n' then positionFrom (line + 1) 0 0 cs (offset - 1)
    else positionFrom line (bytes + c.utf8Size) (characters + 1) cs (offset - c.utf8Size)

/-- Line and character of a byte offset. -/
def positionOf (s : SourceText) (offset : Nat) : Nat × Nat := positionFrom 0 0 0 s.text.toList offset

/-- The byte offset of the `n`-th character of a line, its line end being the last; the text goes on
after the line, so that the character after it is the start of the next line. -/
def offsetInLine (offset : Nat) : List Char → Nat → Option Nat
  | _, 0 => some offset
  | [], _ + 1 => none
  | c :: cs, n + 1 =>
    if c = '\n' then (if n = 0 then some (offset + 1) else none)
    else offsetInLine (offset + c.utf8Size) cs n

/-- The byte offset of a position, with `offset` bytes passed before the text. -/
def offsetFrom (offset : Nat) : List Char → Nat → Nat → Option Nat
  | cs, 0, character => offsetInLine offset cs character
  | [], _ + 1, _ => none
  | c :: cs, line + 1, character =>
    offsetFrom (offset + c.utf8Size) cs (if c = '\n' then line else line + 1) character

/-- The byte offset of a position, if the text has it. -/
def offsetOf? (s : SourceText) (line character : Nat) : Option Nat :=
  offsetFrom 0 s.text.toList line character

/-- The number of bytes of the text. -/
def size (s : SourceText) : Nat := Text.byteLength s.text.toList

end SourceText

end ScriptWorks
