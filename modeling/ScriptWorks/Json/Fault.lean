import ScriptWorks.Text.Utf8

/-!
# Faults in JSON texts

Why a text is not JSON, and where reading stopped.
-/

namespace ScriptWorks.Json

/-- Why reading a JSON text stopped. -/
inductive Fault where
  | endInValue
  | endInList
  | endInObject
  | endInString
  | expectedValue
  | expectedIdent
  | expectedListEnd
  | expectedObjectEnd
  | expectedColon
  | keyNotString
  | trailingComma
  | trailingCharacters
  | invalidNumber
  | numberOutOfRange
  | invalidEscape
  | endOfHexEscape
  | loneSurrogate
  | controlCharacter
  | tooDeep
  /-- Something else than a text where one was expected. -/
  | noEmbeddedText (found : String)
  /-- A text within the text is faulty. -/
  | embedded (fault : Fault)
deriving DecidableEq, Inhabited

def Fault.text : Fault → String
  | .endInValue => "EOF while parsing a value"
  | .endInList => "EOF while parsing a list"
  | .endInObject => "EOF while parsing an object"
  | .endInString => "EOF while parsing a string"
  | .expectedValue => "expected value"
  | .expectedIdent => "expected ident"
  | .expectedListEnd => "expected `,` or `]`"
  | .expectedObjectEnd => "expected `,` or `\x7d`"
  | .expectedColon => "expected `:`"
  | .keyNotString => "key must be a string"
  | .trailingComma => "trailing comma"
  | .trailingCharacters => "trailing characters"
  | .invalidNumber => "invalid number"
  | .numberOutOfRange => "number out of range"
  | .invalidEscape => "invalid escape"
  | .endOfHexEscape => "unexpected end of hex escape"
  | .loneSurrogate => "lone leading surrogate in hex escape"
  | .controlCharacter => "control character (\\u0000-\\u001F) found while parsing a string"
  | .tooDeep => "recursion limit exceeded"
  | .noEmbeddedText found => s!"invalid type: {found}, expected raw value"
  | .embedded fault => fault.text

/-- Whether the text ended too early, is wrong where reading stopped, or holds a value that does not
fit. -/
inductive Category where
  | eof
  | malformed
  | unfit
deriving DecidableEq, Inhabited

def Fault.category : Fault → Category
  | .endInValue | .endInList | .endInObject | .endInString => .eof
  | .noEmbeddedText _ | .embedded _ => .unfit
  | _ => .malformed

/-- A fault with its line (from 1) and the number of bytes read of that line. -/
structure SyntaxError where
  fault : Fault
  line : Nat
  column : Nat
deriving DecidableEq, Inhabited

/-- Where reading stopped. -/
inductive Stop where
  /-- So many bytes after the start of `rest`, or at the end of the text. -/
  | before (fault : Fault) (rest : List Char) (ahead : Nat)
  /-- In a text within the text. -/
  | within (e : SyntaxError)
deriving Inhabited

/-- The byte offset in `text` of a place `ahead` bytes after the start of its end `rest`. -/
def offsetOf (text rest : List Char) (ahead : Nat) : Nat :=
  min (Text.byteLength text - Text.byteLength rest + ahead) (Text.byteLength text)

/-- The error of reading `text`. An error of a text within it keeps its own place. -/
def Stop.toError (text : List Char) : Stop → SyntaxError
  | .before fault rest ahead =>
    let (line, column) := Text.lineColumnAfter ((Text.bytes text).take (offsetOf text rest ahead))
    ⟨fault, line, column⟩
  | .within e => { e with fault := .embedded e.fault }

def SyntaxError.message (e : SyntaxError) : String :=
  s!"{e.fault.text} at line {e.line} column {e.column}"

end ScriptWorks.Json
