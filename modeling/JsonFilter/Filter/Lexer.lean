import JsonFilter.Filter.LexError
import JsonFilter.Filter.Token
import JsonFilter.Text.Blank
import JsonFilter.Text.Hex

/-!
# From characters to tokens

`lexemeAt` reads the lexeme at the head of a text: a blank stretch, a token or a fault, with the
number of characters it takes.  `scan` walks over the characters, reading a lexeme wherever the one
before has ended; it goes on after a fault, so one pass reports all of them.

## Nesting

Brackets and conditionals open a level; a run of `try` and minus signs opens one level each
until another token ends the run.  The first token beyond `maxNesting` levels is reported once.
-/

namespace JsonFilter.Filter

/-- A name starts with a letter or an underscore. -/
def isNameStart (c : Char) : Bool := c.isAlpha || c == '_'

/-- A name goes on with letters, digits and underscores. -/
def isNamePart (c : Char) : Bool := c.isAlphanum || c == '_'

/-! ### Strings -/

/-- The code unit at the head of a text: four characters, digits alone or a plus sign and three
digits. -/
def codeUnit? : List Char → Option Nat
  | '+' :: b :: c :: d :: _ => Text.hexRun? [b, c, d]
  | a :: b :: c :: d :: _ => Text.hexRun? [a, b, c, d]
  | _ => none

/-- The character with a code point, unless the code point is a surrogate. -/
def charOfCode? (code : Nat) : Option Char :=
  if code.isValidChar then some (.ofNat code) else none

/-- The character that a code unit escape stands for, with the characters used after the mark `u`:
one unit, or two that form a surrogate pair. -/
def unitEscape? (text : List Char) : Option (Char × Nat) := do
  let high ← codeUnit? text
  if 0xD800 ≤ high && high < 0xDC00 then
    match text.drop 4 with
    | '\\' :: 'u' :: more =>
      let low ← codeUnit? more
      if 0xDC00 ≤ low && low < 0xE000 then
        let c ← charOfCode? (0x10000 + (high - 0xD800) * 0x400 + (low - 0xDC00))
        return (c, 10)
      else none
    | _ => none
  else
    let c ← charOfCode? high
    return (c, 4)

/-- The character that an escape stands for, with the characters used after the backslash. -/
def escape? : List Char → Option (Char × Nat)
  | '"' :: _ => some ('"', 1)
  | '\\' :: _ => some ('\\', 1)
  | '/' :: _ => some ('/', 1)
  | 'n' :: _ => some ('\n', 1)
  | 't' :: _ => some ('\t', 1)
  | 'r' :: _ => some ('\r', 1)
  | 'b' :: _ => some ('\x08', 1)
  | 'f' :: _ => some ('\x0c', 1)
  | 'u' :: text => (unitEscape? text).map fun (c, used) => (c, used + 1)
  | _ => none

/-- What follows an opening quote. -/
inductive StringBody where
  /-- The decoded text and the number of characters, the closing quote included. -/
  | closed (value : List Char) (length : Nat)
  /-- No closing quote. -/
  | unclosed
  /-- The characters before the bad backslash, and those after it. -/
  | badEscape (before : Nat) (rest : List Char)
deriving Repr

namespace StringBody

/-- The body with one more character in front, `width` characters wide in the source. -/
def cons (c : Char) (width : Nat) : StringBody → StringBody
  | closed value length => closed (c :: value) (length + width)
  | unclosed => unclosed
  | badEscape before rest => badEscape (before + width) rest

end StringBody

/-- Reads a string after its opening quote; `skip` characters belong to an escape already read. -/
def stringBody : List Char → Nat → StringBody
  | [], _ => .unclosed
  | _ :: rest, skip + 1 => stringBody rest skip
  | c :: rest, 0 =>
    if c = '"' then .closed [] 1
    else if c = '\\' then
      match escape? rest with
      | some (decoded, used) => (stringBody rest used).cons decoded (used + 1)
      | none => .badEscape 0 rest
    else (stringBody rest 0).cons c 1

/-! ### Lexemes -/

/-- What stands at the head of a text. -/
inductive Lexeme where
  | blank
  | token (kind : TokenKind)
  /-- A fault; the text it covers starts `offset` characters after the head. -/
  | fault (fault : LexFault) (offset : Nat)
deriving Repr

/-- The lexeme at an opening quote, given what follows it.  A bad escape takes the text up to the
next quote with it. -/
def stringLexeme (rest : List Char) : Lexeme × Nat :=
  match stringBody rest 0 with
  | .closed value length => (.token (.string (.ofList value)), length + 1)
  | .unclosed => (.fault .unterminatedString 0, rest.length + 1)
  | .badEscape before after =>
    let covered := after.takeWhile (· != '"')
    let quote := if covered.length < after.length then 1 else 0
    (.fault (.invalidEscape (.ofList (covered.take 5))) (before + 1),
      before + 2 + covered.length + quote)

/-- The digits at the head of a text. -/
def leadingDigits (text : List Char) : List Char := text.takeWhile Char.isDigit

/-- The fraction at the head of a text: a point followed by digits, or nothing. -/
def fractionPart : List Char → List Char
  | '.' :: rest =>
    let digits := leadingDigits rest
    if digits.isEmpty then [] else '.' :: digits
  | _ => []

/-- The exponent mark with its sign at the head of a text, or nothing. -/
def exponentMark : List Char → List Char
  | e :: rest =>
    if e = 'e' || e = 'E' then
      match rest with
      | sign :: _ => if sign = '+' || sign = '-' then [e, sign] else [e]
      | [] => [e]
    else []
  | [] => []

/-- The lexeme at a digit: digits, an optional fraction and an optional exponent.  An exponent
without digits is a fault, and so is a name that follows without a gap. -/
def numberLexeme (text : List Char) : Lexeme × Nat :=
  let whole := leadingDigits text
  let fraction := fractionPart (text.drop whole.length)
  let mantissa := whole ++ fraction
  let mark := exponentMark (text.drop mantissa.length)
  let marked := mantissa ++ mark
  let digits := if mark.isEmpty then [] else leadingDigits (text.drop marked.length)
  if !mark.isEmpty && digits.isEmpty then
    (.fault (.malformedNumber (.ofList marked)) 0, marked.length)
  else
    let written := marked ++ digits
    match text.drop written.length with
    | c :: more =>
      if isNameStart c then
        let whole := written ++ (c :: more).takeWhile isNamePart
        (.fault (.malformedNumber (.ofList whole)) 0, whole.length)
      else (.token (.number (.ofList written)), written.length)
    | [] => (.token (.number (.ofList written)), written.length)

/-- The name at the head of a text. -/
def leadingName : List Char → List Char
  | [] => []
  | c :: rest => if isNameStart c then c :: rest.takeWhile isNamePart else []

/-- A token that is a mark of the given width. -/
def markLexeme (mark : Mark) (width : Nat) : Lexeme × Nat := (.token (.mark mark), width)

/-- The mark that a character alone makes, and the longer one if `second` follows. -/
def pairLexeme (second : Char) (joined alone : Mark) : List Char → Lexeme × Nat
  | c :: _ => if c = second then markLexeme joined 2 else markLexeme alone 1
  | [] => markLexeme alone 1

/-- A character that starts no token. -/
def strayLexeme (c : Char) : Lexeme × Nat := (.fault (.unexpectedCharacter c) 0, 1)

/-- The mark that a character is on its own, whatever follows. -/
def singleMark? : Char → Option Mark
  | '[' => some .leftBracket
  | ']' => some .rightBracket
  | '\x7b' => some .leftBrace
  | '\x7d' => some .rightBrace
  | '(' => some .leftParen
  | ')' => some .rightParen
  | '|' => some .pipe
  | ',' => some .comma
  | ':' => some .colon
  | ';' => some .semicolon
  | '?' => some .question
  | '+' => some .plus
  | '-' => some .minus
  | '*' => some .star
  | '%' => some .percent
  | _ => none

/-- The lexeme at a dot. -/
def dotLexeme (rest : List Char) : Lexeme × Nat :=
  match rest with
  | '.' :: _ => markLexeme .doubleDot 2
  | _ =>
    let name := leadingName rest
    if name.isEmpty then markLexeme .dot 1
    else (.token (.field (.ofList name)), name.length + 1)

/-- The lexeme at a dollar sign. -/
def dollarLexeme (rest : List Char) : Lexeme × Nat :=
  let name := leadingName rest
  if name.isEmpty then strayLexeme '$'
  else (.token (.variable (.ofList name)), name.length + 1)

/-- The lexeme at the head of a text, with the number of characters it takes. -/
def lexemeAt (c : Char) (rest : List Char) : Lexeme × Nat :=
  if Text.isBlank c then (.blank, 1)
  else if c = '#' then (.blank, 1 + (rest.takeWhile (· != '\n')).length)
  else if c = '.' then dotLexeme rest
  else if c = '$' then dollarLexeme rest
  else if c = '"' then stringLexeme rest
  else if c = '/' then pairLexeme '/' .alternative .slash rest
  else if c = '<' then pairLexeme '=' .lessEqual .less rest
  else if c = '>' then pairLexeme '=' .greaterEqual .greater rest
  else if c = '=' && rest.head? == some '=' then markLexeme .equal 2
  else if c = '!' && rest.head? == some '=' then markLexeme .notEqual 2
  else if c.isDigit then numberLexeme (c :: rest)
  else if isNameStart c then
    let name := leadingName (c :: rest)
    (.token (.ofWord (.ofList name)), name.length)
  else
    match singleMark? c with
    | some mark => markLexeme mark 1
    | none => strayLexeme c

/-! ### Nesting -/

/-- The open levels, the run of leading operators, and whether the limit was reported. -/
structure Nesting where
  depth : Nat
  leading : Nat
  reported : Bool
deriving DecidableEq, Repr

namespace Nesting

/-- Nothing is open. -/
def start : Nesting := ⟨0, 0, false⟩

/-- The levels after one more token. -/
def after (n : Nesting) : TokenKind → Nesting
  | .mark .leftParen | .mark .leftBracket | .mark .leftBrace | .keyword .ifWord =>
    { n with depth := n.depth + 1, leading := 0 }
  | .mark .rightParen | .mark .rightBracket | .mark .rightBrace | .keyword .endWord =>
    { n with depth := n.depth - 1, leading := 0 }
  | .keyword .tryWord | .mark .minus => { n with leading := n.leading + 1 }
  | _ => { n with leading := 0 }

/-- The limit is passed and was not reported before. -/
def exceeded (n : Nesting) : Bool := maxNesting < n.depth + n.leading && !n.reported

end Nesting

/-! ### The scan -/

/-- A fault and the bytes it covers. -/
structure Finding where
  fault : LexFault
  span : Span
deriving DecidableEq, Repr

/-- Reads lexemes from a text on.  `skip` characters belong to the lexeme already read, `offset` is
the byte where the text starts. -/
def scan : List Char → Nat → Nat → Nesting → List (Finding ⊕ Token)
  | [], _, _, _ => []
  | c :: rest, skip + 1, offset, nesting => scan rest skip (offset + c.utf8Size) nesting
  | c :: rest, 0, offset, nesting =>
    let (lexeme, length) := lexemeAt c rest
    let stop := offset + Text.byteLength ((c :: rest).take length)
    let onward (nesting : Nesting) := scan rest (length - 1) (offset + c.utf8Size) nesting
    match lexeme with
    | .blank => onward nesting
    | .token kind =>
      let nesting := nesting.after kind
      let found := .inr ⟨kind, ⟨offset, stop⟩⟩
      if nesting.exceeded then
        .inl ⟨.nestingTooDeep, ⟨offset, stop⟩⟩ :: found :: onward { nesting with reported := true }
      else found :: onward nesting
    | .fault fault ahead =>
      let start := offset + Text.byteLength ((c :: rest).take ahead)
      .inl ⟨fault, ⟨start, stop⟩⟩ :: onward nesting

/-- The tokens of a filter, the last one its end; or all its lexical errors, in order. -/
def tokenize (source : String) : Except (List LexError) (List Token) :=
  let chars := source.toList
  let found := scan chars 0 0 .start
  let errors := found.filterMap fun
    | .inl f => some ⟨f.fault, f.span, .after (Text.takeBytes f.span.start chars)⟩
    | .inr _ => none
  if errors.isEmpty then
    let tokens := found.filterMap fun
      | .inl _ => none
      | .inr t => some t
    .ok (tokens ++ [⟨.eof, .point (Text.byteLength chars)⟩])
  else .error errors

end JsonFilter.Filter
