import JsonFilter.Diagnostic
import JsonFilter.Filter.Token

/-!
# Syntax errors

A filter that does not parse has one syntax error: the failure furthest to the right, with all the
tokens that could have stood there.
-/

namespace JsonFilter.Filter

/-- Why a reading failed. -/
inductive FailureReason where
  | unexpected
  | custom (message : String)
deriving DecidableEq, Repr

/-- A failed reading: the index of the token it failed at, that token with its span (none at the end
of the tokens), and the tokens that could have stood there. -/
structure ReadFailure where
  index : Nat
  span : Span
  found : Option TokenKind
  reason : FailureReason
  expected : List TokenKind
deriving DecidableEq, Repr

namespace ReadFailure

/-- The one further to the right; at the same token the first, expecting what either expects. -/
def further (a b : ReadFailure) : ReadFailure :=
  if b.index < a.index then a
  else if a.index < b.index then b
  else { a with expected := b.expected.foldl (fun known t => known.insert t) a.expected }

/-- `further` with a failure that may be missing. -/
def furtherThan? (a : ReadFailure) : Option ReadFailure → ReadFailure
  | some b => a.further b
  | none => a

/-- Of two failures on the way to a success, the later one counts first. -/
def latest? : Option ReadFailure → Option ReadFailure → Option ReadFailure
  | some a, some b => some (b.further a)
  | some a, none => some a
  | none, b => b

end ReadFailure

/-- A syntax error as it is reported. -/
structure ParseError where
  message : String
  span : Span
  expected : List String
deriving DecidableEq, Repr

namespace ParseError

/-- Removes repetitions that stand next to each other. -/
def dropRepeats : List String → List String
  | a :: b :: rest => if a = b then dropRepeats (b :: rest) else a :: dropRepeats (b :: rest)
  | texts => texts

/-- The report of a failed reading. -/
def ofFailure (f : ReadFailure) : ParseError :=
  { message :=
      match f.reason, f.found with
      | .custom message, _ => message
      | .unexpected, some kind => "unexpected " ++ kind.display
      | .unexpected, none => "unexpected end of filter"
    span := f.span
    expected := dropRepeats ((f.expected.map TokenKind.display).mergeSort fun a b => a ≤ b) }

/-- The diagnostic, with what was expected as its help. -/
def toDiagnostic (e : ParseError) (sourceId : String) : Diagnostic :=
  let plain := Diagnostic.error sourceId e.span e.message
  if e.expected.isEmpty then plain
  else plain.withHelp ("expected " ++ ", ".intercalate e.expected)

end ParseError
end JsonFilter.Filter
