import JsonFilter.Text.Blank

/-!
# Filters with single quotes

A filter written inside a template or on a command line often has its strings in single quotes.
`doubleQuoted` turns a single quote that opens or closes a string into a double one and leaves the
apostrophes inside words alone.

## The rule

A quote opens a string at the start of the filter or behind a blank, unless a blank or a double quote
follows it.  It closes one before a blank or at the end of the filter, unless a blank or a double
quote stands before it.  The text is read from left to right, and a blank next to a converted quote
is used up: in `a' 'b` it goes with the first quote, so the second one stays.
-/

namespace JsonFilter.Filter

open Text (isBlank)

/-- The single quote. -/
def singleQuote : Char := '\x27'

/-- Whether a text starts with a quote that can open a string. -/
def opensString : List Char → Bool
  | [] => false
  | [c] => c = singleQuote
  | c :: next :: _ => c = singleQuote && !(isBlank next || next = '"')

/-- Whether a character may stand before a quote that closes a string. -/
def mayPrecedeClosing (before : Option Char) : Bool :=
  match before with
  | none => true
  | some c => !(isBlank c || c = '"')

/-- Converts the quotes of a text that follows the character `before`, or that starts the filter. -/
def convertQuotes : Option Char → List Char → List Char
  | _, [] => []
  | before, [c] =>
    if c = singleQuote && mayPrecedeClosing before then ['"'] else [c]
  | before, c :: next :: rest =>
    if before.isNone && opensString (c :: next :: rest) then
      '"' :: convertQuotes (some c) (next :: rest)
    else if isBlank c && opensString (next :: rest) then
      c :: '"' :: convertQuotes (some next) rest
    else if c = singleQuote && mayPrecedeClosing before && isBlank next then
      '"' :: next :: convertQuotes (some next) rest
    else c :: convertQuotes (some c) (next :: rest)

/-- The filter with its strings in double quotes. -/
def doubleQuoted (filter : String) : String := .ofList (convertQuotes none filter.toList)

/-- Converting changes no more than single characters. -/
theorem length_convertQuotes (before : Option Char) (cs : List Char) :
    (convertQuotes before cs).length = cs.length := by
  fun_induction convertQuotes before cs <;> simp_all

end JsonFilter.Filter
