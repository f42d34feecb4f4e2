/-!
# Errors in JSON text

What can be wrong with a JSON text and where.  Lines count from one; a column is the number of
bytes of the line before the place.
-/

namespace JsonFilter.Json

/-- A place in a JSON text: the line, and the bytes of that line before the place. -/
structure Place where
  line : Nat
  column : Nat
deriving DecidableEq, Repr, Inhabited

namespace Place

/-- Before the first character. -/
def start : Place := ⟨1, 0⟩

/-- The place one character further. -/
def advance (p : Place) (c : Char) : Place :=
  if c = '\n' then ⟨p.line + 1, 0⟩ else ⟨p.line, p.column + c.utf8Size⟩

/-- The place behind a stretch of text. -/
def advanceAll (p : Place) (cs : List Char) : Place := cs.foldl advance p

/-- The place one byte further; at the end of the text, the place itself. -/
def nextByte (p : Place) : List Char → Place
  | [] => p
  | c :: _ => if c = '\n' then ⟨p.line + 1, 0⟩ else ⟨p.line, p.column + 1⟩

end Place

/-- What is wrong. -/
inductive ReadFault where
  | endInList
  | endInObject
  | endInString
  | endInValue
  | colonExpected
  | listCommaOrEndExpected
  | objectCommaOrEndExpected
  | wordExpected
  | valueExpected
  | invalidEscape
  | invalidNumber
  | numberOutOfRange
  | controlCharacter
  | keyNotString
  | loneSurrogate
  | trailingComma
  | trailingCharacters
  | unfinishedSurrogatePair
  | tooDeep
  /-- A well-formed text that does not say what is wanted. -/
  | unsuitable (complaint : String)
deriving DecidableEq, Repr

/-- The wording. -/
def ReadFault.text : ReadFault → String
  | .endInList => "EOF while parsing a list"
  | .endInObject => "EOF while parsing an object"
  | .endInString => "EOF while parsing a string"
  | .endInValue => "EOF while parsing a value"
  | .colonExpected => "expected `:`"
  | .listCommaOrEndExpected => "expected `,` or `]`"
  | .objectCommaOrEndExpected => "expected `,` or `\x7d`"
  | .wordExpected => "expected ident"
  | .valueExpected => "expected value"
  | .invalidEscape => "invalid escape"
  | .invalidNumber => "invalid number"
  | .numberOutOfRange => "number out of range"
  | .controlCharacter =>
    "control character (\\u0000-\\u001F) found while parsing a string"
  | .keyNotString => "key must be a string"
  | .loneSurrogate => "lone leading surrogate in hex escape"
  | .trailingComma => "trailing comma"
  | .trailingCharacters => "trailing characters"
  | .unfinishedSurrogatePair => "unexpected end of hex escape"
  | .tooDeep => "recursion limit exceeded"
  | .unsuitable complaint => complaint

/-- A fault and its place. -/
structure ReadError where
  fault : ReadFault
  place : Place
deriving DecidableEq, Repr

/-- The wording with the place. -/
def ReadError.message (e : ReadError) : String :=
  s!"{e.fault.text} at line {e.place.line} column {e.place.column}"

end JsonFilter.Json
