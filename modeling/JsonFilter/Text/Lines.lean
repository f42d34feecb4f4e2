import JsonFilter.Text.Blank

/-!
# Lines of a text

A line ends with a line feed, a carriage return, both in this order, a vertical tab, a form feed, or
one of the three Unicode line separators.  The end belongs to the line; a text that ends with one has
no further, empty line.
-/

namespace JsonFilter.Text

/-- Whether a character ends a line. -/
def endsLine (c : Char) : Bool :=
  let code := c.toNat
  (0x0A ≤ code && code ≤ 0x0D) || code == 0x85 || code == 0x2028 || code == 0x2029

/-- A line: the number of characters before it, its own number, and its text without the blanks at
its end. -/
structure SourceLine where
  offset : Nat
  length : Nat
  shown : List Char
deriving Repr, DecidableEq

namespace SourceLine

/-- The line of the given characters. -/
def ofChars (offset : Nat) (chars : List Char) : SourceLine :=
  ⟨offset, chars.length, trimEnd chars⟩

/-- Whether a character of the text lies on the line. -/
def holds (l : SourceLine) (place : Nat) : Bool := l.offset ≤ place && place < l.offset + l.length

end SourceLine

/-- Cuts a text after every line end; `line` holds the line read so far, its last character first.
A line feed behind a carriage return belongs to the same end. -/
def cutLines : List Char → List Char → List (List Char)
  | [], line => if line.isEmpty then [] else [line.reverse]
  | c :: rest, line =>
    if endsLine c && !(c == '\r' && rest.head? == some '\n') then
      (c :: line).reverse :: cutLines rest []
    else cutLines rest (c :: line)

/-- Numbers the lines with the characters before them. -/
def placeLines : Nat → List (List Char) → List SourceLine
  | _, [] => []
  | offset, l :: ls => .ofChars offset l :: placeLines (offset + l.length) ls

/-- The lines of a text. -/
def sourceLines (text : List Char) : List SourceLine := placeLines 0 (cutLines text [])

/-- The line on which the `offset`-th character lies, with its index; the place just behind the text
lies on its last line. -/
def lineOf? (lines : List SourceLine) (length offset : Nat) : Option (SourceLine × Nat) :=
  if length < offset then none
  else (lines.zipIdx.filter fun (l, _) => l.offset ≤ offset).getLast?

end JsonFilter.Text
