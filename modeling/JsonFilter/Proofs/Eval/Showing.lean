import JsonFilter.Proofs.Eval.Sorting
import JsonFilter.Proofs.Eval.Transcripts

/-!
# What streams show

A consumer without a deadline sees nothing of looks at the clock and of work that is put off.  What it sees
of a stream is its `Showing`: results, up to the end or up to the place where a loop was cut off.

## Combination

The showing of combined streams is the combination of their showings, with operations that obey the laws
of lists.  The trees themselves do not obey them: a tree remembers where its evaluation would have paused.

* `Outputs.alike_iff` — the showing is what a transcript without a deadline has of results.
* `Outputs.shown_append`, `shown_bind`, `shown_collect`, `shown_fold`, `shown_limit` — what the combinators
  make of showings.
* `Showing.append_assoc`, `append_bind`, `bind_assoc`, `bind_single`, `collect_append` — the laws.
* `Interchangeable` — filters that show the same in every context that leaves some names to the builtins.
-/

namespace JsonFilter.Eval

open JsonFilter.Filter
open Json (Value Outcome)

/-- What a stream shows to a consumer without a deadline. -/
inductive Showing where
  | ended
  /-- Here a loop had too few turns. -/
  | cut
  | result (r : Result) (rest : Showing)

namespace Showing

/-! ### Operations -/

/-- The results in order. -/
def results : Showing → List Result
  | .ended => []
  | .cut => []
  | .result r rest => r :: rest.results

/-- Whether no loop was cut off. -/
def complete : Showing → Bool
  | .ended => true
  | .cut => false
  | .result _ rest => rest.complete

/-- One result. -/
def one (r : Result) : Showing := .result r .ended

/-- Values in order. -/
def ofValues : List Value → Showing
  | [] => .ended
  | v :: values => .result (.ok v) (ofValues values)

/-- One showing behind another. -/
def append : Showing → Showing → Showing
  | .ended, more => more
  | .cut, _ => .cut
  | .result r rest, more => .result r (rest.append more)

/-- Every value replaced; failures stay. -/
def bind : Showing → (Value → Showing) → Showing
  | .ended, _ => .ended
  | .cut, _ => .cut
  | .result (.ok v) rest, f => (f v).append (rest.bind f)
  | .result (.error e) rest, f => .result (.error e) (rest.bind f)

/-- The first results. -/
def take : Nat → Showing → Showing
  | 0, _ => .ended
  | _ + 1, .ended => .ended
  | _ + 1, .cut => .cut
  | n + 1, .result r rest => .result r (rest.take n)

/-- The values up to the first raised error, which goes to a handler; a timeout ends them. -/
def catchWith (handler : Value → Showing) : Showing → Showing
  | .ended => .ended
  | .cut => .cut
  | .result (.ok v) rest => .result (.ok v) (rest.catchWith handler)
  | .result (.error (.raised v)) _ => handler v
  | .result (.error .timeout) _ => one (.error .timeout)

/-- Goes on with all values; the first failure takes their place. -/
def collect : Showing → (List Value → Showing) → Showing
  | .ended, next => next []
  | .cut, _ => .cut
  | .result (.ok v) rest, next => rest.collect fun values => next (v :: values)
  | .result (.error e) _, _ => one (.error e)

/-- Goes on with the last value, if there is one; the first failure takes its place. -/
def withLast : Showing → Option Value → (Option Value → Showing) → Showing
  | .ended, last, next => next last
  | .cut, _, _ => .cut
  | .result (.ok v) rest, _, next => rest.withLast (some v) next
  | .result (.error e) _, _, _ => one (.error e)

/-- Folds the values; the last value of an update is the next accumulator. -/
def fold (update : Value → Value → Showing) (next : Value → Showing) : Showing → Value → Showing
  | .ended, acc => next acc
  | .cut, _ => .cut
  | .result (.ok v) rest, acc =>
    (update acc v).withLast none fun last => rest.fold update next (last.getD .null)
  | .result (.error e) _, _ => one (.error e)

/-! ### Laws -/

/-- A showing is its results and whether it ends. -/
theorem eq_iff {s s' : Showing} : s = s' ↔ s.results = s'.results ∧ s.complete = s'.complete := by
  refine ⟨fun h => h ▸ ⟨rfl, rfl⟩, fun h => ?_⟩
  induction s generalizing s' with
  | ended =>
    cases s' with
    | ended => rfl
    | cut => cases h.2
    | result r rest => cases h.1
  | cut =>
    cases s' with
    | ended => cases h.2
    | cut => rfl
    | result r rest => cases h.1
  | result r rest ih =>
    cases s' with
    | ended | cut => cases h.1
    | result r' rest' =>
      obtain ⟨hresults, hcomplete⟩ := h
      obtain ⟨rfl, hrest⟩ := List.cons.inj hresults
      rw [ih ⟨hrest, hcomplete⟩]

@[simp] theorem results_ofValues (values : List Value) : (ofValues values).results = values.map .ok := by
  induction values with
  | nil => rfl
  | cons v values ih => exact congrArg (.ok v :: ·) ih

@[simp] theorem complete_ofValues (values : List Value) : (ofValues values).complete = true := by
  induction values with
  | nil => rfl
  | cons v values ih => exact ih

@[simp] theorem append_ended (s : Showing) : s.append .ended = s := by
  induction s with
  | ended | cut => rfl
  | result r rest ih => exact congrArg (Showing.result r) ih

theorem append_assoc (s t u : Showing) : (s.append t).append u = s.append (t.append u) := by
  induction s with
  | ended | cut => rfl
  | result r rest ih => exact congrArg (Showing.result r) ih

theorem append_bind (s t : Showing) (f : Value → Showing) :
    (s.append t).bind f = (s.bind f).append (t.bind f) := by
  induction s with
  | ended | cut => rfl
  | result r rest ih =>
    cases r with
    | ok v =>
      show (f v).append ((rest.append t).bind f) = ((f v).append (rest.bind f)).append (t.bind f)
      rw [ih, append_assoc]
    | error e => exact congrArg (Showing.result (.error e)) ih

theorem bind_assoc (s : Showing) (f g : Value → Showing) :
    (s.bind f).bind g = s.bind fun v => (f v).bind g := by
  induction s with
  | ended | cut => rfl
  | result r rest ih =>
    cases r with
    | ok v =>
      show ((f v).append (rest.bind f)).bind g = ((f v).bind g).append (rest.bind fun v => (f v).bind g)
      rw [append_bind, ih]
    | error e => exact congrArg (Showing.result (.error e)) ih

@[simp] theorem one_bind (v : Value) (f : Value → Showing) : (one (.ok v)).bind f = f v :=
  append_ended (f v)

@[simp] theorem bind_single (s : Showing) : (s.bind fun v => one (.ok v)) = s := by
  induction s with
  | ended | cut => rfl
  | result r rest ih =>
    cases r with
    | ok v => exact congrArg (Showing.result (.ok v)) ih
    | error e => exact congrArg (Showing.result (.error e)) ih

/-- What is collected from a showing behind another stands behind what is collected from that. -/
theorem collect_append (s t : Showing) (next : List Value → Showing) :
    (s.append t).collect next = s.collect fun values => t.collect fun more => next (values ++ more) := by
  induction s generalizing next with
  | ended | cut => rfl
  | result r rest ih =>
    cases r with
    | ok v => exact ih fun values => next (v :: values)
    | error e => rfl

/-- Failures take the place of what is collected, so nothing goes on from them. -/
theorem collect_bind (s : Showing) (next : List Value → Showing) (f : Value → Showing) :
    (s.collect next).bind f = s.collect fun values => (next values).bind f := by
  induction s generalizing next with
  | ended | cut => rfl
  | result r rest ih =>
    cases r with
    | ok v => exact ih fun values => next (v :: values)
    | error e => rfl

@[simp] theorem collect_ofValues (values : List Value) (next : List Value → Showing) :
    (ofValues values).collect next = next values := by
  induction values generalizing next with
  | nil => rfl
  | cons v values ih => exact ih fun values => next (v :: values)

/-- Where nothing is raised there is nothing to catch. -/
theorem catchWith_ofValues (handler : Value → Showing) (values : List Value) :
    (ofValues values).catchWith handler = ofValues values := by
  induction values with
  | nil => rfl
  | cons v values ih => exact congrArg (Showing.result (.ok v)) ih

end Showing

namespace Outputs

/-- What a consumer without a deadline sees of a stream. -/
def shown : Outputs → Showing
  | .done => .ended
  | .emit r rest => .result r (rest ()).shown
  | .check next => (next false).shown
  | .pause next => (next ()).shown
  | .exhausted => .cut

theorem transcript_results (o : Outputs) : (o.transcript .unlimited).results = o.shown.results := by
  induction o with
  | done | exhausted => rfl
  | emit r rest ih => exact congrArg (r :: ·) (ih ())
  | check next ih => exact ih false
  | pause next ih => exact ih ()

theorem transcript_complete (o : Outputs) : (o.transcript .unlimited).complete = o.shown.complete := by
  induction o with
  | done | exhausted => rfl
  | emit r rest ih => exact ih ()
  | check next ih => exact ih false
  | pause next ih => exact ih ()

/-- **Without a deadline the streams give the same results,** values and raised errors in order, and both
end or neither does. -/
def Alike (o o' : Outputs) : Prop :=
  (o.transcript .unlimited).results = (o'.transcript .unlimited).results ∧
    (o.transcript .unlimited).complete = (o'.transcript .unlimited).complete

theorem alike_iff {o o' : Outputs} : o.Alike o' ↔ o.shown = o'.shown := by
  rw [Alike, Showing.eq_iff, transcript_results, transcript_results, transcript_complete,
    transcript_complete]

theorem Gives.shown {o : Outputs} {values : List Value} (h : o.Gives values) :
    o.shown = .ofValues values := by
  rw [Showing.eq_iff, ← transcript_results, ← transcript_complete, h.results, h.complete]
  simp

theorem Gives.of_shown {o : Outputs} {values : List Value} (h : o.shown = .ofValues values) :
    o.Gives values where
  results := by rw [transcript_results, h, Showing.results_ofValues]
  complete := by rw [transcript_complete, h, Showing.complete_ofValues]

/-! ### Combinators -/

@[simp] theorem shown_guarded (next : Unit → Outputs) : (guarded next).shown = (next ()).shown := rfl

@[simp] theorem shown_single (v : Value) : (Outputs.single v).shown = .one (.ok v) := rfl

@[simp] theorem shown_lift (o : Outcome Value) : (Outputs.lift o).shown = .one (resultOf o) := rfl

@[simp] theorem shown_ofList (values : List Value) : (Outputs.ofList values).shown = .ofValues values := by
  induction values with
  | nil => rfl
  | cons v values ih => exact congrArg (Showing.result (.ok v)) ih

@[simp] theorem shown_append (o : Outputs) (more : Unit → Outputs) :
    (o.append more).shown = o.shown.append (more ()).shown := by
  induction o with
  | done | exhausted => rfl
  | emit r rest ih => exact congrArg (Showing.result r) (ih ())
  | check next ih => exact ih false
  | pause next ih => exact ih ()

@[simp] theorem shown_bind (o : Outputs) (f : Value → Outputs) :
    (o.bind f).shown = o.shown.bind fun v => (f v).shown := by
  induction o with
  | done | exhausted => rfl
  | emit r rest ih =>
    cases r with
    | ok v =>
      show ((f v).append fun _ => (rest ()).bind f).shown = _
      rw [shown_append, ih]
      rfl
    | error e => exact congrArg (Showing.result (.error e)) (ih ())
  | check next ih => exact ih false
  | pause next ih => exact ih ()

/-- An operation on every value gives one result for it. -/
@[simp] theorem shown_mapOutcome (f : Value → Outcome Value) (o : Outputs) :
    (o.mapOutcome f).shown = o.shown.bind fun v => .one (resultOf (f v)) := by
  induction o with
  | done | exhausted => rfl
  | emit r rest ih =>
    cases r with
    | ok v => exact congrArg (Showing.result (resultOf (f v))) (ih ())
    | error e => exact congrArg (Showing.result (.error e)) (ih ())
  | check next ih => exact ih false
  | pause next ih => exact ih ()

@[simp] theorem shown_take (n : Nat) (o : Outputs) : (o.take n).shown = o.shown.take n := by
  induction o generalizing n with
  | done | exhausted => cases n <;> rfl
  | emit r rest ih =>
    cases n with
    | zero => rfl
    | succ n => exact congrArg (Showing.result r) (ih () n)
  | check next ih =>
    cases n with
    | zero => simp [shown, Showing.take]
    | succ n => exact ih false (n + 1)
  | pause next ih =>
    cases n with
    | zero => simp [shown, Showing.take]
    | succ n => exact ih () (n + 1)

@[simp] theorem shown_catchWith (handler : Value → Outputs) (o : Outputs) :
    (o.catchWith handler).shown = o.shown.catchWith fun v => (handler v).shown := by
  induction o with
  | done | exhausted => rfl
  | emit r rest ih =>
    cases r with
    | ok v => exact congrArg (Showing.result (.ok v)) (ih ())
    | error e => cases e <;> rfl
  | check next ih => exact ih false
  | pause next ih => exact ih ()

@[simp] theorem shown_checkEach (o : Outputs) : o.checkEach.shown = o.shown := by
  induction o with
  | done | exhausted => rfl
  | emit r rest ih => exact congrArg (Showing.result r) (ih ())
  | check next ih => exact ih false
  | pause next ih => exact ih ()

/-- A limit takes the first results, and a look at the clock before each of them does not show.  Its work
ahead is done even if it takes none. -/
theorem shown_limit (n : Nat) (o : Outputs) :
    (o.settle fun out => (out.take (n + 1)).checkEach).shown = o.shown.take (n + 1) := by
  induction o with
  | done | exhausted => rfl
  | emit | pause => exact (shown_checkEach _).trans (shown_take (n + 1) _)
  | check next ih => exact ih false

/-! ### Consumption -/

/-- Values collected so far stand before those to come. -/
@[simp] theorem shown_collect (o : Outputs) (next : List Value → Outputs) :
    (o.collect next).shown = o.shown.collect fun values => (next values).shown := by
  have hfrom (step : List Value → Result → List Value ⊕ Outputs)
      (hok : ∀ seen v, step seen (.ok v) = .inl (v :: seen))
      (herror : ∀ seen e, step seen (.error e) = .inr (fail e)) (seen : List Value) :
      (drain step (fun values => next values.reverse) seen o).shown =
        o.shown.collect fun values => (next (seen.reverse ++ values)).shown := by
    induction o generalizing seen with
    | done => simp [drain, shown, Showing.collect]
    | exhausted => rfl
    | emit r rest ih =>
      cases r with
      | ok v =>
        have hrest := ih () (v :: seen)
        simp only [List.reverse_cons, List.append_assoc, List.singleton_append] at hrest
        rw [drain, hok]
        exact hrest
      | error e =>
        rw [drain, herror]
        rfl
    | check next' ih => exact ih false seen
    | pause next' ih => exact ih () seen
  exact hfrom _ (fun _ _ => rfl) (fun _ _ => rfl) []

theorem shown_withLast (o : Outputs) (next : Option Value → Outputs) :
    (o.withLast next).shown = o.shown.withLast none fun last => (next last).shown := by
  have hfrom (step : Option Value → Result → Option Value ⊕ Outputs)
      (hok : ∀ last v, step last (.ok v) = .inl (some v))
      (herror : ∀ last e, step last (.error e) = .inr (fail e)) (last : Option Value) :
      (drain step next last o).shown = o.shown.withLast last fun last => (next last).shown := by
    induction o generalizing last with
    | done | exhausted => rfl
    | emit r rest ih =>
      cases r with
      | ok v =>
        rw [drain, hok]
        exact ih () (some v)
      | error e =>
        rw [drain, herror]
        rfl
    | check next' ih => exact ih false last
    | pause next' ih => exact ih () last
  exact hfrom _ (fun _ _ => rfl) (fun _ _ => rfl) none

@[simp] theorem shown_fold (update : Value → Value → Outputs) (next : Value → Outputs) (o : Outputs)
    (acc : Value) :
    (fold update next o acc).shown =
      o.shown.fold (fun acc v => (update acc v).shown) (fun acc => (next acc).shown) acc := by
  induction o generalizing acc with
  | done | exhausted => rfl
  | emit r rest ih =>
    cases r with
    | ok v =>
      show (withLast (update acc v) fun last => fold update next (rest ()) (last.getD .null)).shown = _
      rw [shown_withLast]
      simp only [ih]
      rfl
    | error e => rfl
  | check next' ih => exact ih false acc
  | pause next' ih => exact ih () acc

/-- What a filter gives for each of some values, all in one list. -/
theorem shown_mapped (f : Value → Outputs) (values : List Value) (next : List Value → Outputs) :
    (mapped f values next).shown =
      ((Showing.ofValues values).bind fun v => (f v).shown).collect fun found => (next found).shown := by
  have hfrom : ∀ seen : List (List Value),
      (collectEach f (fun lists => next lists.flatten) values seen).shown =
        ((Showing.ofValues values).bind fun v => (f v).shown).collect fun found =>
          (next (seen.reverse.flatten ++ found)).shown := by
    induction values with
    | nil =>
      intro seen
      simp [collectEach, Showing.ofValues, Showing.bind, Showing.collect]
    | cons v values ih =>
      intro seen
      show ((f v).collect fun list =>
        collectEach f (fun lists => next lists.flatten) values (list :: seen)).shown = _
      rw [shown_collect]
      simp only [ih, Showing.ofValues, Showing.bind, Showing.collect_append, List.reverse_cons,
        List.flatten_append, List.flatten_singleton, List.append_assoc]
  exact hfrom []

end Outputs

/-! ### Filters -/

theorem shown_identity (c : Context) (input : Value) :
    (eval .identity c input).shown = .one (.ok input) := rfl

theorem shown_pipe (a b : Expr) (c : Context) (input : Value) :
    (eval (.pipe a b) c input).shown = (eval a c input).shown.bind fun v => (eval b c v).shown := by
  simp only [eval, Outputs.shown_guarded, Outputs.shown_bind]

theorem shown_comma (a b : Expr) (c : Context) (input : Value) :
    (eval (.comma a b) c input).shown = (eval a c input).shown.append (eval b c input).shown := by
  simp only [eval, Outputs.shown_guarded, Outputs.shown_append]

/-- A sum takes each value of its right side with each of the left. -/
theorem shown_plus (a b : Expr) (c : Context) (input : Value) :
    (eval (.binary .add a b) c input).shown =
      (eval b c input).shown.bind fun r => (eval a c input).shown.bind fun l =>
        .one (resultOf (l.add r)) := by
  simp only [eval, Outputs.shown_guarded, Outputs.shown_bind, Outputs.shown_mapOutcome]
  rfl

/-- **Filters that can stand for each other**, wherever no definition takes one of these names from the
builtins: in every such context they show the same for every input, with any number of turns for the
loops. -/
def Interchangeable (builtins : List String) (e e' : Expr) : Prop :=
  ∀ c : Context, (∀ name ∈ builtins, c.definition? name = none) → ∀ input,
    (eval e c input).Alike (eval e' c input)

theorem Interchangeable.of_shown {builtins : List String} {e e' : Expr}
    (h : ∀ c : Context, (∀ name ∈ builtins, c.definition? name = none) → ∀ input,
      (eval e c input).shown = (eval e' c input).shown) : Interchangeable builtins e e' :=
  fun c hc input => Outputs.alike_iff.2 (h c hc input)

end JsonFilter.Eval
