import IncludeMoves.Text.Utf8

/-!
# Where a text is no JSON

A reader reports a *cause* and the number of bytes that are left behind the offending one. The
place is counted in lines and in bytes of the line, the offending byte included.
-/

namespace IncludeMoves

namespace Json

/-- Why a text is no JSON document. -/
inductive Cause where
  | endInValue
  | endInObject
  | endInList
  | endInString
  | expectedValue
  | expectedColon
  | expectedCommaOrBrace
  | expectedCommaOrBracket
  | trailingComma
  | trailingCharacters
  | keyNotString
  | expectedIdent
  | invalidNumber
  | numberOutOfRange
  | controlCharacter
  | invalidEscape
  | loneSurrogate
  | brokenSurrogatePair
  | tooDeep
  deriving DecidableEq, Repr

/-- The text of a cause. -/
def Cause.message : Cause → String
  | endInValue => "EOF while parsing a value"
  | endInObject => "EOF while parsing an object"
  | endInList => "EOF while parsing a list"
  | endInString => "EOF while parsing a string"
  | expectedValue => "expected value"
  | expectedColon => "expected `:`"
  | expectedCommaOrBrace => "expected `,` or `\x7d`"
  | expectedCommaOrBracket => "expected `,` or `]`"
  | trailingComma => "trailing comma"
  | trailingCharacters => "trailing characters"
  | keyNotString => "key must be a string"
  | expectedIdent => "expected ident"
  | invalidNumber => "invalid number"
  | numberOutOfRange => "number out of range"
  | controlCharacter => "control character (\\u0000-\\u001F) found while parsing a string"
  | invalidEscape => "invalid escape"
  | loneSurrogate => "lone leading surrogate in hex escape"
  | brokenSurrogatePair => "unexpected end of hex escape"
  | tooDeep => "recursion limit exceeded"

/-- A cause, and the number of bytes left behind the offending byte. -/
structure Fault where
  cause : Cause
  left : Nat
  deriving DecidableEq, Repr

/-- The number of bytes of a text. -/
def byteSize (text : List Char) : Nat :=
  (Utf8.encode text).length

/-- A fault at the first byte of a text. -/
def Fault.atStart (cause : Cause) (text : List Char) : Fault :=
  ⟨cause, byteSize text - 1⟩

/-- A fault at the byte in front of a text. -/
def Fault.before (cause : Cause) (text : List Char) : Fault :=
  ⟨cause, byteSize text⟩

/-- A fault at the end of the whole text. -/
def Fault.atEnd (cause : Cause) : Fault :=
  ⟨cause, 0⟩

/-- A cause with the line and the column of the offending byte. -/
structure Failure where
  cause : Cause
  line : Nat
  column : Nat
  deriving DecidableEq, Repr

/-- The place of a fault in a text. -/
def Fault.locate (f : Fault) (text : List Char) : Failure :=
  let bytes := Utf8.encode text
  let read := bytes.take (bytes.length - f.left)
  ⟨f.cause, 1 + read.count 10, (read.reverse.takeWhile (· != 10)).length⟩

/-- The text of a failure. -/
def Failure.message (f : Failure) : String :=
  f.cause.message ++ " at line " ++ toString f.line ++ " column " ++ toString f.column

end Json

end IncludeMoves
