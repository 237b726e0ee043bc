import PathLedger.Bytes.Ascii
import PathLedger.Json.Basic

/-!
# Readers of documents

A document is read from its bytes, from the front.

* `Json.ParseError` — what was wrong, and where the reader stood.
* `ParseError.position` — its line and column, both counted in bytes of the whole input.
* `Json.refuseAt`, `Json.refuseBehind` — refuse a byte that was only looked at, or the last one read.
-/

namespace PathLedger.Json

/-- What was wrong with a document. -/
inductive Cause where
  | endInList
  | endInObject
  | endInString
  | endInValue
  | expectedColon
  | expectedListEnd
  | expectedObjectEnd
  | expectedIdent
  | expectedValue
  | invalidEscape
  | invalidNumber
  | numberOutOfRange
  | strayByte
  | controlCharacter
  | keyMustBeString
  | loneSurrogate
  | trailingComma
  | trailingCharacters
  | endOfHexEscape
  | recursionLimit
deriving DecidableEq, Repr

def Cause.text : Cause → String
  | .endInList => "EOF while parsing a list"
  | .endInObject => "EOF while parsing an object"
  | .endInString => "EOF while parsing a string"
  | .endInValue => "EOF while parsing a value"
  | .expectedColon => "expected `:`"
  | .expectedListEnd => "expected `,` or `]`"
  | .expectedObjectEnd => "expected `,` or `\x7d`"
  | .expectedIdent => "expected ident"
  | .expectedValue => "expected value"
  | .invalidEscape => "invalid escape"
  | .invalidNumber => "invalid number"
  | .numberOutOfRange => "number out of range"
  | .strayByte => "invalid unicode code point"
  | .controlCharacter => "control character (\\u0000-\\u001F) found while parsing a string"
  | .keyMustBeString => "key must be a string"
  | .loneSurrogate => "lone leading surrogate in hex escape"
  | .trailingComma => "trailing comma"
  | .trailingCharacters => "trailing characters"
  | .endOfHexEscape => "unexpected end of hex escape"
  | .recursionLimit => "recursion limit exceeded"

/-- A refused document: the cause, what had not been read, and whether its first byte had already been
looked at. -/
structure ParseError where
  cause : Cause
  unread : Bytes
  looking : Bool
deriving Repr

/-- Line and column of the last byte that was read or looked at: lines from one, and the bytes of its line
up to it. -/
def ParseError.position (e : ParseError) (input : Bytes) : Nat × Nat :=
  let consumed := input.length - e.unread.length
  let seen := input.take (if e.looking then consumed + 1 else consumed)
  (seen.count Ascii.newline + 1, (seen.reverse.takeWhile (· != Ascii.newline)).length)

/-- The cause with its position. -/
def ParseError.message (e : ParseError) (input : Bytes) : String :=
  let (line, column) := e.position input
  e.cause.text ++ " at line " ++ toString line ++ " column " ++ toString column

/-- A reader of the front of a document. -/
abbrev Reader (α : Type) := Bytes → Except ParseError (α × Bytes)

def refuseAt (cause : Cause) (s : Bytes) : Except ParseError α := .error ⟨cause, s, true⟩

/-- Refuse behind the last byte read. -/
def refuseBehind (cause : Cause) (s : Bytes) : Except ParseError α := .error ⟨cause, s, false⟩

/-- What follows blanks. -/
def skipBlanks (s : Bytes) : Bytes :=
  s.dropWhile fun b =>
    b = Ascii.space || b = Ascii.newline || b = Ascii.tab ||
      b = Ascii.carriageReturn

/-- The rest of a fixed word. -/
def word (result : Json) : Bytes → Reader Json
  | [], s => .ok (result, s)
  | _ :: _, [] => refuseBehind .endInValue []
  | p :: ps, b :: s => if p = b then word result ps s else refuseBehind .expectedIdent s

end PathLedger.Json
