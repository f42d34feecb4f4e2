/-!
# Places in a text

A text is a list of characters; a place in it is counted either in characters or in bytes of its
UTF-8 form.  `LineColumn` is the human reading: lines and columns from one, lines ended by a line
feed, columns counted in characters.
-/

namespace JsonFilter.Text

/-- The number of bytes of the UTF-8 form. -/
def byteLength (cs : List Char) : Nat := cs.foldl (fun n c => n + c.utf8Size) 0

/-- The characters that start before the given byte. -/
def takeBytes : Nat → List Char → List Char
  | _, [] => []
  | 0, _ => []
  | bytes, c :: cs => c :: takeBytes (bytes - c.utf8Size) cs

/-- The characters that start at the given byte or later. -/
def dropBytes : Nat → List Char → List Char
  | _, [] => []
  | 0, cs => cs
  | bytes, c :: cs => dropBytes (bytes - c.utf8Size) cs

/-- The characters between two byte offsets. -/
def sliceBytes (start stop : Nat) (cs : List Char) : List Char :=
  takeBytes (stop - start) (dropBytes start cs)

/-- A line and a column, both counted from one. -/
structure LineColumn where
  line : Nat
  column : Nat
deriving DecidableEq, Repr, Inhabited

namespace LineColumn

/-- The place one character further. -/
def advance (place : LineColumn) (c : Char) : LineColumn :=
  if c = '\n' then ⟨place.line + 1, 1⟩ else ⟨place.line, place.column + 1⟩

/-- The place just after the given characters. -/
def after (before : List Char) : LineColumn := before.foldl advance ⟨1, 1⟩

end LineColumn

end JsonFilter.Text
