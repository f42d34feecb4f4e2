/-!
# Searching and splitting text

Texts are lists of characters here.  `splitOn` cuts a text at the occurrences of a separator, counted
from the left and never overlapping; `join` puts the separator back between the parts.
-/

namespace JsonFilter.Text

/-- Whether a text occurs somewhere in another. -/
def occursIn (part : List Char) : List Char → Bool
  | [] => part.isEmpty
  | c :: rest => part.isPrefixOf (c :: rest) || occursIn part rest

/-- The parts of a text from a place on.  `skip` characters belong to a separator just found;
`part` holds the part read so far, its last character first. -/
def splitFrom (separator : List Char) : List Char → Nat → List Char → List (List Char)
  | [], _, part => [part.reverse]
  | _ :: rest, skip + 1, part => splitFrom separator rest skip part
  | c :: rest, 0, part =>
    if separator.isPrefixOf (c :: rest) then
      part.reverse :: splitFrom separator rest (separator.length - 1) []
    else splitFrom separator rest 0 (c :: part)

/-- The parts of a text between the occurrences of a separator.  An empty text has no parts, and an
empty separator cuts between all characters. -/
def splitOn (text separator : List Char) : List (List Char) :=
  if text.isEmpty then []
  else if separator.isEmpty then text.map ([·])
  else splitFrom separator text 0 []

/-- The parts with the separator between them. -/
def join (separator : List Char) (parts : List (List Char)) : List Char :=
  (parts.intersperse separator).flatten

/-- The text without a part at its start, if it is there. -/
def dropStart? (part text : List Char) : Option (List Char) :=
  if part.isPrefixOf text then some (text.drop part.length) else none

/-- The text without a part at its end, if it is there. -/
def dropEnd? (part text : List Char) : Option (List Char) :=
  if part.isSuffixOf text then some (text.take (text.length - part.length)) else none

end JsonFilter.Text
