import JsonFilter.Span

/-!
# Diagnostics

A diagnostic is a message about a span of a source text, with an optional label under the span and
an optional line of help.
-/

namespace JsonFilter

/-- How grave a diagnostic is. -/
inductive Severity where
  | error
  | warning
deriving DecidableEq, Repr

/-- A message about a span of the text called `sourceId`. -/
structure Diagnostic where
  severity : Severity
  sourceId : String
  span : Span
  message : String
  label : Option String
  help : Option String
deriving DecidableEq, Repr

namespace Diagnostic

/-- An error without label and help. -/
def error (sourceId : String) (span : Span) (message : String) : Diagnostic :=
  ⟨.error, sourceId, span, message, none, none⟩

/-- The same with a label under the span. -/
def withLabel (d : Diagnostic) (text : String) : Diagnostic := { d with label := some text }

/-- The same with a line of help. -/
def withHelp (d : Diagnostic) (text : String) : Diagnostic := { d with help := some text }

end Diagnostic
end JsonFilter
