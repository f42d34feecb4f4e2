import JsonFilter.Json.NumberReader
import JsonFilter.Text.Hex
import JsonFilter.Text.Position

/-!
# Reading JSON text

`Value.ofText` reads one value and nothing else.  The reading follows the text from left to right
and reports the first fault with its place.  Containers nest at most 127 deep.

The readers of strings, lists and objects below take the reader of the parts as an argument, so that
the nesting is the only recursion of `readValue`.
-/

namespace JsonFilter.Json

/-- The text not yet read and its place. -/
structure Input where
  rest : List Char
  place : Place
deriving Repr

namespace Input

/-- A whole text. -/
def ofText (text : String) : Input := ⟨text.toList, .start⟩

/-- The input without its first characters. -/
def drop (i : Input) (count : Nat) : Input :=
  ⟨i.rest.drop count, i.place.advanceAll (i.rest.take count)⟩

/-- JSON's own blanks. -/
def isSpace (c : Char) : Bool := c == ' ' || c == '\n' || c == '\t' || c == '\r'

/-- The input without its leading blanks. -/
def skipSpace (i : Input) : Input := i.drop (i.rest.takeWhile isSpace).length

/-- A fault at the place itself. -/
def fail {α : Type} (i : Input) (fault : ReadFault) : Except ReadError α := .error ⟨fault, i.place⟩

/-- A fault one byte further. -/
def failBeyond {α : Type} (i : Input) (fault : ReadFault) : Except ReadError α :=
  .error ⟨fault, i.place.nextByte i.rest⟩

end Input

/-- A reading of a part of the text. -/
abbrev Reader (α : Type) := Input → Except ReadError (α × Input)

/-! ### Words and numbers -/

/-- Reads the letters of a word one by one. -/
def readWord : List Char → Reader Unit
  | [], i => .ok ((), i)
  | letter :: letters, i =>
    match i.rest with
    | [] => i.fail .endInValue
    | c :: _ => if c = letter then readWord letters (i.drop 1) else i.failBeyond .wordExpected

/-- Reads a number. -/
def readNumberValue : Reader Number := fun i =>
  match readNumber i.rest with
  | .ok (n, length) => .ok (n, i.drop length)
  | .error f =>
    let i := i.drop f.offset
    if f.beyond then i.failBeyond f.fault else i.fail f.fault

/-! ### Strings -/

/-- The place some bytes further, which may lie inside a character. -/
def placeAfterBytes : Nat → List Char → Place → Place
  | 0, _, p => p
  | _, [], p => p
  | bytes, c :: rest, p =>
    if c.utf8Size ≤ bytes then placeAfterBytes (bytes - c.utf8Size) rest (p.advance c)
    else ⟨p.line, p.column + bytes⟩

/-- Reads the four digits of a code unit. -/
def readCodeUnit : Reader Nat := fun i =>
  match i.rest with
  | a :: b :: c :: d :: _ =>
    match Text.hexRun? [a, b, c, d] with
    | some unit => .ok (unit, i.drop 4)
    | none => .error ⟨.invalidEscape, placeAfterBytes 4 i.rest i.place⟩
  | rest =>
    if 4 ≤ Text.byteLength rest then
      .error ⟨.invalidEscape, placeAfterBytes 4 rest i.place⟩
    else .error ⟨.endInString, i.place.advanceAll rest⟩

/-- Reads one character that must follow a leading surrogate. -/
def readPairMark (mark : Char) : Reader Unit := fun i =>
  match i.rest with
  | [] => i.fail .endInString
  | c :: _ => if c = mark then .ok ((), i.drop 1) else i.failBeyond .unfinishedSurrogatePair

/-- Reads what follows the mark of a code unit escape. -/
def readUnitEscape : Reader Char := fun i => do
  let (unit, i) ← readCodeUnit i
  if 0xDC00 ≤ unit && unit ≤ 0xDFFF then i.fail .loneSurrogate
  else if 0xD800 ≤ unit && unit ≤ 0xDBFF then
    let (_, i) ← readPairMark '\\' i
    let (_, i) ← readPairMark 'u' i
    let (low, i) ← readCodeUnit i
    if low < 0xDC00 || 0xDFFF < low then i.fail .loneSurrogate
    else return (.ofNat (0x10000 + (unit - 0xD800) * 0x400 + (low - 0xDC00)), i)
  else return (.ofNat unit, i)

/-- Reads what follows a backslash. -/
def readEscape : Reader Char := fun i =>
  match i.rest with
  | [] => i.fail .endInString
  | c :: _ =>
    let plain (decoded : Char) : Except ReadError (Char × Input) := .ok (decoded, i.drop 1)
    match c with
    | '"' => plain '"'
    | '\\' => plain '\\'
    | '/' => plain '/'
    | 'b' => plain '\x08'
    | 'f' => plain '\x0c'
    | 'n' => plain '\n'
    | 'r' => plain '\r'
    | 't' => plain '\t'
    | 'u' => readUnitEscape (i.drop 1)
    | _ => i.failBeyond .invalidEscape

/-- Reads a string behind its opening quote.  `skip` characters belong to an escape already read;
`decoded` holds what came before, the last character first. -/
def readStringFrom : List Char → Nat → Place → List Char → Except ReadError (String × Input)
  | [], _, place, _ => .error ⟨.endInString, place⟩
  | c :: rest, skip + 1, place, decoded => readStringFrom rest skip (place.advance c) decoded
  | c :: rest, 0, place, decoded =>
    let next := place.advance c
    if c = '"' then .ok (.ofList decoded.reverse, ⟨rest, next⟩)
    else if c = '\\' then
      match readEscape ⟨rest, next⟩ with
      | .ok (ch, after) =>
        readStringFrom rest (rest.length - after.rest.length) next (ch :: decoded)
      | .error e => .error e
    else if c.toNat < 32 then .error ⟨.controlCharacter, next⟩
    else readStringFrom rest 0 next (c :: decoded)

/-- Reads a string behind its opening quote. -/
def readString : Reader String := fun i => readStringFrom i.rest 0 i.place []

/-! ### Lists and objects -/

/-- Reads the items behind the first one and the closing bracket; `budget` bounds their number. -/
def readItemsFrom {α : Type} (item : Reader α) : Nat → List α → Reader (List α)
  | 0, items, i => .ok (items.reverse, i)
  | budget + 1, items, i =>
    let i := i.skipSpace
    match i.rest with
    | [] => i.failBeyond .endInList
    | ']' :: _ => .ok (items.reverse, i.drop 1)
    | ',' :: _ =>
      let i := (i.drop 1).skipSpace
      match i.rest with
      | [] => i.failBeyond .endInValue
      | ']' :: _ => i.failBeyond .trailingComma
      | _ => do
        let (v, i) ← item i
        readItemsFrom item budget (v :: items) i
    | _ => i.failBeyond .listCommaOrEndExpected

/-- Reads a list behind its opening bracket. -/
def readItems {α : Type} (item : Reader α) : Reader (List α) := fun i =>
  let i := i.skipSpace
  match i.rest with
  | [] => i.failBeyond .endInList
  | ']' :: _ => .ok ([], i.drop 1)
  | _ => do
    let (v, i) ← item i
    readItemsFrom item (i.rest.length + 1) [v] i

/-- Reads the colon between a key and its value. -/
def readColon : Reader Unit := fun i =>
  let i := i.skipSpace
  match i.rest with
  | [] => i.failBeyond .endInObject
  | ':' :: _ => .ok ((), i.drop 1)
  | _ => i.failBeyond .colonExpected

/-- Reads the members behind the first one and the closing brace.  `member` reads a value given its
key and what was read before. -/
def readMembersFrom {σ : Type} (member : σ → String → Reader σ) : Nat → σ → Reader σ
  | 0, state, i => .ok (state, i)
  | budget + 1, state, i =>
    let i := i.skipSpace
    match i.rest with
    | [] => i.failBeyond .endInObject
    | '\x7d' :: _ => .ok (state, i.drop 1)
    | ',' :: _ =>
      let i := (i.drop 1).skipSpace
      match i.rest with
      | [] => i.failBeyond .endInValue
      | '\x7d' :: _ => i.failBeyond .trailingComma
      | '"' :: _ => do
        let (key, i) ← readString (i.drop 1)
        let (state, i) ← member state key i
        readMembersFrom member budget state i
      | _ => i.failBeyond .keyNotString
    | _ => i.failBeyond .objectCommaOrEndExpected

/-- Reads an object behind its opening brace, member by member. -/
def readMembers {σ : Type} (member : σ → String → Reader σ) (start : σ) : Reader σ := fun i =>
  let i := i.skipSpace
  match i.rest with
  | [] => i.failBeyond .endInObject
  | '\x7d' :: _ => .ok (start, i.drop 1)
  | '"' :: _ => do
    let (key, i) ← readString (i.drop 1)
    let (state, i) ← member start key i
    readMembersFrom member (i.rest.length + 1) state i
  | _ => i.failBeyond .keyNotString

/-! ### Values -/

/-- The deepest nesting of containers. -/
def maxDepth : Nat := 127

/-- Reads a value; containers may nest `depth` deep. -/
def readValue : Nat → Reader Value
  | depth, i =>
    let i := i.skipSpace
    match i.rest with
    | [] => i.failBeyond .endInValue
    | 'n' :: _ => (readWord ['u', 'l', 'l'] (i.drop 1)).map fun (_, i) => (.null, i)
    | 't' :: _ => (readWord ['r', 'u', 'e'] (i.drop 1)).map fun (_, i) => (.bool true, i)
    | 'f' :: _ => (readWord ['a', 'l', 's', 'e'] (i.drop 1)).map fun (_, i) => (.bool false, i)
    | '"' :: _ => (readString (i.drop 1)).map fun (s, i) => (.string s, i)
    | '[' :: _ =>
      match depth with
      | 0 => i.failBeyond .tooDeep
      | depth + 1 => (readItems (readValue depth) (i.drop 1)).map fun (vs, i) => (.array vs, i)
    | '\x7b' :: _ =>
      match depth with
      | 0 => i.failBeyond .tooDeep
      | depth + 1 =>
        let member (ms : Members Value) (key : String) : Reader (Members Value) := fun i => do
          let (_, i) ← readColon i
          let (v, i) ← readValue depth i
          return (ms.insert key v, i)
        (readMembers member [] (i.drop 1)).map fun (ms, i) => (.object ms, i)
    | c :: _ =>
      if c = '-' || c.isDigit then
        (readNumberValue i).map fun (n, i) => (.number n, i)
      else i.failBeyond .valueExpected

/-- What follows the value may only be blanks. -/
def readEnd (i : Input) : Except ReadError Unit :=
  let i := i.skipSpace
  if i.rest.isEmpty then .ok () else i.failBeyond .trailingCharacters

/-- The value that a text holds. -/
def Value.ofText (text : String) : Except ReadError Value := do
  let (v, rest) ← readValue maxDepth (.ofText text)
  readEnd rest
  return v

end JsonFilter.Json
