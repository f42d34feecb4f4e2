import JsonFilter.Compile

/-!
# Transcripts of runs

A transcript says what a consumer sees who pulls a stream to its end against a clock.

## Loops

Streams are cut off where a loop would need more turns than it is given, so a transcript also says
whether that happened.  `CompiledFilter.runWithin` is a run with a given number of turns for each loop.
What such runs agree on for all large numbers is what a run does whose loops are not bounded at all.

* **`transcript_eq_pull`** — a transcript is what pulling one result after another gives.
* `unlimited_append`, `unlimited_bind_of_single` — combined streams without a deadline.
-/

namespace JsonFilter

open Json (Value)

namespace Eval

/-- What the consumer of a stream sees who pulls it to its end. -/
structure Transcript where
  results : List Result
  /-- Looks at the clock, results and work put off; every evaluation of a filter starts with a look. -/
  steps : Nat
  /-- Whether all loops had turns enough. -/
  complete : Bool

namespace Transcript

/-- A step without a result comes first. -/
def later (t : Transcript) : Transcript := { t with steps := t.steps + 1 }

/-- A result comes first. -/
def behind (r : Result) (t : Transcript) : Transcript := ⟨r :: t.results, t.steps + 1, t.complete⟩

end Transcript

namespace Clock

@[simp] theorem look_after_zero : (after 0).look = (true, after 0) := rfl

@[simp] theorem look_after_succ (looks : Nat) : (after (looks + 1)).look = (false, after looks) := rfl

end Clock

namespace Outputs

/-- What a consumer sees who pulls a stream to its end against a clock. -/
def transcript : Outputs → Clock → Transcript
  | .done, _ => ⟨[], 0, true⟩
  | .emit r rest, clock => ((rest ()).transcript clock).behind r
  | .check next, clock => ((next clock.look.1).transcript clock.look.2).later
  | .pause next, clock => ((next ()).transcript clock).later
  | .exhausted, _ => ⟨[], 0, false⟩

/-- **A transcript is what pulling gives,** one result after another. -/
theorem transcript_eq_pull (o : Outputs) (clock : Clock) :
    match o.pull clock with
    | .ended => (o.transcript clock).results = [] ∧ (o.transcript clock).complete = true
    | .exhausted => (o.transcript clock).results = [] ∧ (o.transcript clock).complete = false
    | .result r rest clock' =>
      (o.transcript clock).results = r :: ((rest ()).transcript clock').results ∧
        (o.transcript clock).complete = ((rest ()).transcript clock').complete := by
  induction o generalizing clock with
  | done => exact ⟨rfl, rfl⟩
  | emit r rest _ => exact ⟨rfl, rfl⟩
  | check next ih => exact ih clock.look.1 clock.look.2
  | pause next ih => exact ih () clock
  | exhausted => exact ⟨rfl, rfl⟩

/-! ### Combination

Without a deadline a consumer sees of combined streams what it sees of each. -/

/-- One stream behind another is reached if the first one ends. -/
theorem unlimited_append (o : Outputs) (more : Unit → Outputs) :
    ((o.append more).transcript .unlimited).results = (o.transcript .unlimited).results ++
        (if (o.transcript .unlimited).complete then ((more ()).transcript .unlimited).results else []) ∧
      ((o.append more).transcript .unlimited).complete =
        ((o.transcript .unlimited).complete && ((more ()).transcript .unlimited).complete) := by
  induction o with
  | done => exact ⟨rfl, rfl⟩
  | emit r rest ih => exact ⟨congrArg (r :: ·) (ih ()).1, (ih ()).2⟩
  | check next ih => exact ih false
  | pause next ih => exact ih ()
  | exhausted => exact ⟨rfl, rfl⟩

/-- Without results there is nothing to go on from. -/
theorem unlimited_bind_of_nil {o : Outputs} (hresults : (o.transcript .unlimited).results = [])
    (hends : (o.transcript .unlimited).complete = true) (f : Value → Outputs) :
    ((o.bind f).transcript .unlimited).results = [] ∧
      ((o.bind f).transcript .unlimited).complete = true := by
  induction o with
  | done => exact ⟨rfl, rfl⟩
  | emit r rest _ => cases hresults
  | check next ih => exact ih false hresults hends
  | pause next ih => exact ih () hresults hends
  | exhausted => cases hends

/-- A single value is replaced by what follows from it. -/
theorem unlimited_bind_of_single {o : Outputs} {v : Value}
    (hresults : (o.transcript .unlimited).results = [.ok v])
    (hends : (o.transcript .unlimited).complete = true) (f : Value → Outputs) :
    ((o.bind f).transcript .unlimited).results = ((f v).transcript .unlimited).results ∧
      ((o.bind f).transcript .unlimited).complete = ((f v).transcript .unlimited).complete := by
  induction o with
  | done => cases hresults
  | emit r rest _ =>
    obtain ⟨rfl, hrest⟩ := List.cons.inj hresults
    obtain ⟨hnone, hended⟩ := unlimited_bind_of_nil hrest hends f
    obtain ⟨hfirst, hall⟩ := unlimited_append (f v) fun _ => (rest ()).bind f
    rw [hnone, ite_self, List.append_nil] at hfirst
    rw [hended, Bool.and_true] at hall
    exact ⟨hfirst, hall⟩
  | check next ih => exact ih false hresults hends
  | pause next ih => exact ih () hresults hends
  | exhausted => cases hends

end Outputs

end Eval

namespace CompiledFilter

/-- The stream of results of a compiled filter on an input, each loop given some turns. -/
def runWithin (f : CompiledFilter) (turns : Nat) (input : Value) : Eval.Outputs :=
  (Eval.eval f.body (.empty f.env turns) input).untilFailure

theorem run_eq_runWithin (f : CompiledFilter) (input : Value) :
    f.run input = f.runWithin loopBudget input := rfl

end CompiledFilter

end JsonFilter
