import JsonFilter.Cache.ProgramCache
import JsonFilter.Compile
import JsonFilter.Json.ReadError

/-!
# Errors of evaluations

Why an evaluation has no result.
-/

namespace JsonFilter

/-- Why an evaluation has no result. -/
inductive ExecError where
  /-- The filter does not compile; nothing was put in the cache. -/
  | compile (e : CompileError)
  | invalidInput (e : Json.ReadError)
  /-- The filter failed; it stays in the cache. -/
  | runtime (message : String)
  /-- The time was over; the filter stays in the cache. -/
  | timeout (budget : Duration)
  | capacity (e : Cache.CapacityError)
  /-- The workers were stopped before the evaluation began. -/
  | cancelled
deriving Repr

namespace ExecError

/-- The error of a run that had a time budget. -/
def ofRun (budget : Option Duration) : Eval.RunError → ExecError
  | .runtime text => .runtime text
  | .timeout => .timeout (budget.getD .zero)

/-- The wording. -/
def message : ExecError → String
  | .compile e => "failed to compile filter: " ++ e.message
  | .invalidInput e => "invalid JSON input: " ++ e.message
  | .runtime text => text
  | .timeout budget => "evaluation timed out after " ++ budget.text
  | .capacity e => e.message
  | .cancelled => "evaluation was cancelled before it produced a result"

/-- The error behind the error, if there is one. -/
def cause? : ExecError → Option String
  | .invalidInput e => some e.message
  | _ => none

/-- The report of a filter that does not compile. -/
def diagnostic? : ExecError → Option String
  | .compile e => some e.diagnostic
  | _ => none

end ExecError
end JsonFilter
