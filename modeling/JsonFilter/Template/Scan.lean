import JsonFilter.Span

/-!
# Templates

A template is a text with filters between double braces.  `scan` divides it into the literal text
and the filters; put together again with their braces, the parts are the text.

## The rule

Two opening braces in a row open a filter and two closing ones end it.  A third brace in a row is
left to what follows: to the filter behind opening braces, to the literal text behind closing ones.
Inside a filter a backslash hides the next character from the reading, and braces between quotes do
not count.
-/

namespace JsonFilter.Template

/-- What is wrong with the braces of a template; the places are byte offsets. -/
inductive BraceFault where
  /-- Braces open inside the filter that others opened. -/
  | nestedOpening (place : Nat) (outer : Nat)
  /-- Braces close where none are open. -/
  | unmatchedClosing (place : Nat)
  /-- Nothing closes the braces. -/
  | unterminatedOpening (place : Nat)
deriving DecidableEq, Repr

/-- A filter in a template, with the literal text before its braces. -/
structure Slot where
  before : List Char
  filter : List Char
  /-- The bytes of the filter. -/
  span : Span
deriving DecidableEq, Repr

/-- The parts of a template: the filters, and the literal text behind the last one. -/
structure Parts where
  slots : List Slot
  rest : List Char
deriving DecidableEq, Repr

/-- What a reading of a template is inside of.  The text read since the last change is kept with its
last character first. -/
inductive Segment where
  | literal (text : List Char)
  /-- A filter from the byte `start` on, behind a literal; the open quote, if there is one. -/
  | filter (before : List Char) (start : Nat) (quote : Option Char) (text : List Char)

/-- Whether a character opens or closes a string inside a filter. -/
def isQuote (c : Char) : Bool := c = '"' || c = '\x27'

/-- The quote that is open behind a quote character. -/
def nextQuote (quote : Option Char) (c : Char) : Option Char :=
  match quote with
  | none => some c
  | some opening => if opening = c then none else some opening

/-- The segment one character further, that character hidden. -/
def Segment.push (c : Char) : Segment → Segment
  | .literal text => .literal (c :: text)
  | .filter before start quote text => .filter before start quote (c :: text)

/-- Reads the parts of a text from the byte `place` on.  `previous` is the character before; `hidden`
tells that the next character has no meaning of its own. -/
def scanFrom : List Char → Nat → Option Char → Bool → Segment → Except BraceFault Parts
  | [], _, _, _, .literal text => .ok ⟨[], text.reverse⟩
  | [], _, _, _, .filter _ start _ _ => .error (.unterminatedOpening (start - 2))
  | c :: rest, place, _, true, segment =>
    scanFrom rest (place + c.utf8Size) (some c) false (segment.push c)
  | c :: rest, place, previous, false, .literal text =>
    if c = '\x7b' && previous == some '\x7b' then
      scanFrom rest (place + 1) (some c) (rest.head? == some '\x7b')
        (.filter (text.drop 1).reverse (place + 1) none [])
    else if c = '\x7d' && previous == some '\x7d' then .error (.unmatchedClosing (place - 1))
    else scanFrom rest (place + c.utf8Size) (some c) false (.literal (c :: text))
  | c :: rest, place, previous, false, .filter before start quote text =>
    if c = '\\' then
      scanFrom rest (place + 1) (some c) true (.filter before start quote (c :: text))
    else if isQuote c then
      scanFrom rest (place + 1) (some c) false (.filter before start (nextQuote quote c) (c :: text))
    else if quote.isNone && c = '\x7b' && previous == some '\x7b' then
      .error (.nestedOpening (place - 1) (start - 2))
    else if quote.isNone && c = '\x7d' && previous == some '\x7d' then do
      let parts ← scanFrom rest (place + 1) (some c) (rest.head? == some '\x7d') (.literal [])
      return { parts with slots := ⟨before, (text.drop 1).reverse, ⟨start, place - 1⟩⟩ :: parts.slots }
    else scanFrom rest (place + c.utf8Size) (some c) false (.filter before start quote (c :: text))

/-- The parts of a template. -/
def scan (template : String) : Except BraceFault Parts :=
  scanFrom template.toList 0 none false (.literal [])

end JsonFilter.Template
