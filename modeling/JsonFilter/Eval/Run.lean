import JsonFilter.Eval.Eval

/-!
# Runs

A run unfolds the stream of a filter against a clock.  The first failure ends it, and a value is
given out only if the deadline has not passed once it is there.
-/

namespace JsonFilter.Eval

open Json (Value)

/-- The looks at a clock before the deadline passes; without a deadline it never does. -/
structure Clock where
  remaining : Option Nat
deriving DecidableEq, Repr

namespace Clock

/-- No deadline. -/
def unlimited : Clock := ⟨none⟩

/-- The deadline passes after some looks. -/
def after (looks : Nat) : Clock := ⟨some looks⟩

/-- Whether the deadline has passed, and the clock after the look. -/
def look (c : Clock) : Bool × Clock :=
  match c.remaining with
  | none => (false, c)
  | some 0 => (true, c)
  | some (n + 1) => (false, ⟨some n⟩)

end Clock

/-- What a run reports instead of a value. -/
inductive RunError where
  | runtime (message : String)
  | timeout
deriving DecidableEq, Repr

namespace RunError

/-- The report of a failure; a raised string is its own message. -/
def ofFailure : Failure → RunError
  | .raised (.string message) => .runtime message
  | .raised v => .runtime s!"{v.compact} (not a string)"
  | .timeout => .timeout

/-- The wording. -/
def message : RunError → String
  | .runtime text => text
  | .timeout => "evaluation timed out"

end RunError

namespace Outputs

/-- The stream up to its first failure, with a look at the clock before every value. -/
def untilFailure : Outputs → Outputs
  | .done => .done
  | .emit (.ok v) rest => guarded fun _ => .emit (.ok v) fun _ => (rest ()).untilFailure
  | .emit (.error f) _ => fail f
  | .check next => .check fun expired => (next expired).untilFailure
  | .pause next => .pause fun _ => (next ()).untilFailure
  | .exhausted => .exhausted

end Outputs

/-- What the consumer of a stream gets when it asks for a result. -/
inductive Pulled where
  | ended
  | result (r : Result) (rest : Unit → Outputs) (clock : Clock)
  | exhausted

/-- Unfolds a stream up to its next result. -/
def Outputs.pull : Outputs → Clock → Pulled
  | .done, _ => .ended
  | .emit r rest, clock => .result r rest clock
  | .check next, clock => (next clock.look.1).pull clock.look.2
  | .pause next, clock => (next ()).pull clock
  | .exhausted, _ => .exhausted

/-- How the consumption of a run ended. -/
inductive Ending where
  /-- The consumer has as many values as it wanted. -/
  | enough
  | done
  | failed (e : RunError)
  | exhausted
deriving DecidableEq, Repr

/-- Pulls values one at a time until there are `wanted` of them or the run ends. -/
def Outputs.pullValues : Nat → Outputs → Clock → List Value × Ending
  | 0, _, _ => ([], .enough)
  | wanted + 1, outputs, clock =>
    match outputs.pull clock with
    | .ended => ([], .done)
    | .exhausted => ([], .exhausted)
    | .result (.error f) _ _ => ([], .failed (.ofFailure f))
    | .result (.ok v) rest clock =>
      let (values, ending) := (rest ()).pullValues wanted clock
      (v :: values, ending)

/-- The first value of a run, if there is one, or the failure before it. -/
def Outputs.firstValue (outputs : Outputs) (clock : Clock) : Except RunError (Option Value) :=
  match outputs.pullValues 1 clock with
  | (v :: _, _) => .ok (some v)
  | ([], .failed e) => .error e
  | ([], _) => .ok none

end JsonFilter.Eval
