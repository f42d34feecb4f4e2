import JsonFilter.Diagnostic
import JsonFilter.Text.Position

/-!
# Lexical errors

What can be wrong with the characters of a filter, the wording, and the diagnostic that points at
the place.
-/

namespace JsonFilter.Filter

/-- Deepest nesting of brackets, conditionals and leading operators that a filter may use. -/
def maxNesting : Nat := 64

/-- What is wrong. -/
inductive LexFault where
  | unterminatedString
  | invalidEscape (sequence : String)
  | malformedNumber (text : String)
  | unexpectedCharacter (c : Char)
  | nestingTooDeep
deriving DecidableEq, Repr

/-- A fault, the bytes it covers and the place where they start. -/
structure LexError where
  fault : LexFault
  span : Span
  place : Text.LineColumn
deriving DecidableEq, Repr

namespace LexFault

/-- The wording without the place. -/
def description : LexFault → String
  | .unterminatedString => "unterminated string literal"
  | .invalidEscape sequence => "invalid escape sequence `\\" ++ sequence ++ "`"
  | .malformedNumber text => "malformed number `" ++ text ++ "`"
  | .unexpectedCharacter c => "unexpected character `" ++ String.singleton c ++ "`"
  | .nestingTooDeep => s!"expression nests deeper than {maxNesting} levels"

end LexFault

namespace LexError

/-- The wording with the place. -/
def message (e : LexError) : String :=
  s!"{e.fault.description} (line {e.place.line}, column {e.place.column})"

/-- The diagnostic: a lone equals sign and a single quote come with advice. -/
def toDiagnostic (e : LexError) (sourceId : String) : Diagnostic :=
  let plain := Diagnostic.error sourceId e.span e.message
  match e.fault with
  | .unexpectedCharacter '=' =>
    (plain.withLabel "assignment is not supported").withHelp "use `==` to compare values"
  | .unexpectedCharacter '\'' =>
    (plain.withLabel "single-quoted strings are not supported").withHelp
      "wrap string literals in double quotes"
  | .unterminatedString => plain.withLabel "string starts here"
  | _ => plain

end LexError
end JsonFilter.Filter
