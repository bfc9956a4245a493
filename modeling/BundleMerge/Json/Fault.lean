/-! What can be wrong with a JSON text, and where. -/
namespace BundleMerge.Json

inductive Flaw where
  | endInValue
  | endInObject
  | endInList
  | endInString
  | expectedValue
  | expectedIdent
  | expectedColon
  | expectedFieldEnd
  | expectedItemEnd
  | keyNotString
  | trailingComma
  | trailingCharacters
  | invalidNumber
  | numberOutOfRange
  | invalidEscape
  | controlCharacter
  | hexEscapeEnd
  | loneSurrogate
  | tooDeep
  /-- The text is JSON, but not of what is read from it. -/
  | unfit (what : String)
  deriving Repr, DecidableEq

def Flaw.message : Flaw → String
  | .endInValue => "EOF while parsing a value"
  | .endInObject => "EOF while parsing an object"
  | .endInList => "EOF while parsing a list"
  | .endInString => "EOF while parsing a string"
  | .expectedValue => "expected value"
  | .expectedIdent => "expected ident"
  | .expectedColon => "expected `:`"
  | .expectedFieldEnd => "expected `,` or `\x7d`"
  | .expectedItemEnd => "expected `,` or `]`"
  | .keyNotString => "key must be a string"
  | .trailingComma => "trailing comma"
  | .trailingCharacters => "trailing characters"
  | .invalidNumber => "invalid number"
  | .numberOutOfRange => "number out of range"
  | .invalidEscape => "invalid escape"
  | .controlCharacter => "control character (\\u0000-\\u001F) found while parsing a string"
  | .hexEscapeEnd => "unexpected end of hex escape"
  | .loneSurrogate => "lone leading surrogate in hex escape"
  | .tooDeep => "recursion limit exceeded"
  | .unfit what => what

/-- A flaw, the text that was still to be read when it showed, and how many bytes of that text
are counted as read. -/
structure Fault where
  flaw : Flaw
  rest : List Char
  bytes : Nat
  deriving Repr, DecidableEq

/-- The flaw shows in the text read so far. -/
def fault (flaw : Flaw) (rest : List Char) : Fault := ⟨flaw, rest, 0⟩

/-- The flaw shows in the next byte. -/
def faultAhead (flaw : Flaw) (rest : List Char) : Fault := ⟨flaw, rest, 1⟩

/-- A flaw with its line, counted from one, and the number of bytes before it on that line. -/
structure Error where
  flaw : Flaw
  line : Nat
  column : Nat
  deriving Repr, DecidableEq

def Error.message (e : Error) : String :=
  e.flaw.message ++ " at line " ++ toString e.line ++ " column " ++ toString e.column

def utf8Bytes (cs : List Char) : List UInt8 :=
  cs.flatMap String.utf8EncodeChar

def Fault.locate (f : Fault) (text : List Char) : Error :=
  let all := utf8Bytes text
  let read := all.take (all.length - (utf8Bytes f.rest).length + f.bytes)
  { flaw := f.flaw
    line := read.count 10 + 1
    column := (read.reverse.takeWhile (· ≠ 10)).length }

end BundleMerge.Json
