import JsonFilter.Json.ValueError

/-!
# Streams of results

A filter answers an input with a stream of results, each a value or a failure.  `Outputs` is such a
stream as a tree that its consumer unfolds: nothing behind a result is computed before the consumer
asks for it.

## The deadline

A stream does not know the time.  Where an evaluation would look at the clock, the tree has a `check`
node, and the consumer answers whether the deadline has passed.  What the evaluation does with the
answer is part of the tree.

## What is done ahead

Some filters do work before their first result is asked for: an array collects its items at once.  A
`pause` marks the place where such work ends, so that a loop which prepares the results of its next
turn knows how far to go.  To a consumer a pause means nothing.

## Loops

Endless filters have endless streams.  Each loop unfolds a given number of times and then ends in
`exhausted`, so that every tree is well-founded; a stream is the limit of its trees for growing
numbers, and `exhausted` is no result of a filter.
-/

namespace JsonFilter.Eval

open Json (Value ValueError Outcome)

/-- Why a result is not a value. -/
inductive Failure where
  /-- An error with the value that describes it; it can be caught. -/
  | raised (value : Value)
  /-- The deadline has passed; this is never caught. -/
  | timeout
deriving Repr

namespace Failure

/-- The failure of an operation on values. -/
def ofError (e : ValueError) : Failure := .raised (.string e.message)

end Failure

/-- A value or a failure. -/
abbrev Result := Except Failure Value

/-- The result of an operation on values. -/
def resultOf : Outcome Value → Result
  | .ok v => .ok v
  | .error e => .error (.ofError e)

/-- A stream of results. -/
inductive Outputs where
  /-- No more results. -/
  | done
  /-- A result and what follows it. -/
  | emit (result : Result) (rest : Unit → Outputs)
  /-- A look at the clock: what follows if the deadline has passed, and if not. -/
  | check (next : Bool → Outputs)
  /-- What follows is left until the consumer asks for a result. -/
  | pause (next : Unit → Outputs)
  /-- A loop that was not unfolded far enough. -/
  | exhausted

namespace Outputs

/-- One result. -/
def one (r : Result) : Outputs := .emit r fun _ => .done

/-- One value. -/
def single (v : Value) : Outputs := one (.ok v)

/-- One failure. -/
def fail (f : Failure) : Outputs := one (.error f)

/-- One failure of an operation on values. -/
def failWith (e : ValueError) : Outputs := fail (.ofError e)

/-- The result of an operation on values. -/
def lift (o : Outcome Value) : Outputs := one (resultOf o)

/-- Values in order. -/
def ofList : List Value → Outputs
  | [] => .done
  | v :: vs => .emit (.ok v) fun _ => ofList vs

/-- Goes on unless the deadline has passed. -/
def guarded (next : Unit → Outputs) : Outputs :=
  .check fun expired => if expired then fail .timeout else next ()

/-! ### Combination -/

/-- One stream behind another. -/
def append : Outputs → (Unit → Outputs) → Outputs
  | .done, more => .pause more
  | .emit r rest, more => .emit r fun _ => (rest ()).append more
  | .check next, more => .check fun expired => (next expired).append more
  | .pause next, more => .pause fun _ => (next ()).append more
  | .exhausted, _ => .exhausted

/-- Every value replaced by a stream; failures stay. -/
def bind : Outputs → (Value → Outputs) → Outputs
  | .done, _ => .done
  | .emit (.ok v) rest, f => .pause fun _ => (f v).append fun _ => (rest ()).bind f
  | .emit (.error e) rest, f => .emit (.error e) fun _ => (rest ()).bind f
  | .check next, f => .check fun expired => (next expired).bind f
  | .pause next, f => .pause fun _ => (next ()).bind f
  | .exhausted, _ => .exhausted

/-- Every value replaced by the result of an operation; failures stay. -/
def mapOutcome (f : Value → Outcome Value) : Outputs → Outputs
  | .done => .done
  | .emit (.ok v) rest => .emit (resultOf (f v)) fun _ => (rest ()).mapOutcome f
  | .emit (.error e) rest => .emit (.error e) fun _ => (rest ()).mapOutcome f
  | .check next => .check fun expired => (next expired).mapOutcome f
  | .pause next => .pause fun _ => (next ()).mapOutcome f
  | .exhausted => .exhausted

/-- The first results. -/
def take : Nat → Outputs → Outputs
  | 0, _ => .done
  | _ + 1, .done => .done
  | n + 1, .emit r rest => .emit r fun _ => (rest ()).take n
  | n + 1, .check next => .check fun expired => (next expired).take (n + 1)
  | n + 1, .pause next => .pause fun _ => (next ()).take (n + 1)
  | _ + 1, .exhausted => .exhausted

@[simp] theorem take_zero (o : Outputs) : o.take 0 = .done := by rw [take]

/-- A look at the clock before every result is passed on. -/
def checkEach : Outputs → Outputs
  | .done => .done
  | .emit r rest =>
    .check fun expired =>
      .emit (if expired then .error .timeout else r) fun _ => (rest ()).checkEach
  | .check next => .check fun expired => (next expired).checkEach
  | .pause next => .pause fun _ => (next ()).checkEach
  | .exhausted => .exhausted

/-- The values up to the first raised error, which goes to a handler; a timeout ends the stream. -/
def catchWith (handler : Value → Outputs) : Outputs → Outputs
  | .done => .done
  | .emit (.ok v) rest => .emit (.ok v) fun _ => (rest ()).catchWith handler
  | .emit (.error (.raised v)) _ => .pause fun _ => handler v
  | .emit (.error .timeout) _ => fail .timeout
  | .check next => .check fun expired => (next expired).catchWith handler
  | .pause next => .pause fun _ => (next ()).catchWith handler
  | .exhausted => .exhausted

/-- Does the work that a stream does ahead, and goes on with what is left of the stream, unless a loop
in that work was not unfolded far enough. -/
def settle (next : Outputs → Outputs) : Outputs → Outputs
  | .check k => .check fun expired => (k expired).settle next
  | .exhausted => .exhausted
  | rest => next rest

/-! ### Consumption -/

/-- Feeds the results one by one to `step`, which goes on with a new state or leaves for another
stream; `finish` gives the stream that follows the last result. -/
def drain {σ : Type} (step : σ → Result → σ ⊕ Outputs) (finish : σ → Outputs) :
    σ → Outputs → Outputs
  | s, .done => finish s
  | s, .emit r rest =>
    match step s r with
    | .inl s => drain step finish s (rest ())
    | .inr out => out
  | s, .check next => .check fun expired => drain step finish s (next expired)
  | s, .pause next => drain step finish s (next ())
  | _, .exhausted => .exhausted

/-- Goes on with all values; the first failure takes their place. -/
def collect (outputs : Outputs) (next : List Value → Outputs) : Outputs :=
  drain (fun values r =>
    match r with
    | .ok v => .inl (v :: values)
    | .error f => .inr (fail f)) (fun values => next values.reverse) [] outputs

/-- Goes on with the last value, if there is one; the first failure takes its place. -/
def withLast (outputs : Outputs) (next : Option Value → Outputs) : Outputs :=
  drain (fun _ r =>
    match r with
    | .ok v => .inl (some v)
    | .error f => .inr (fail f)) next none outputs

/-- Goes on with the first value, if there is one; a failure before it takes its place. -/
def withFirst (outputs : Outputs) (next : Option Value → Outputs) : Outputs :=
  drain (fun (_ : Unit) r =>
    match r with
    | .ok v => .inr (next (some v))
    | .error f => .inr (fail f)) (fun _ => next none) () outputs

/-- Goes on with all true values, raised errors and false values left out. -/
def withTruthy (outputs : Outputs) (next : List Value → Outputs) : Outputs :=
  drain (fun found r =>
    match r with
    | .ok v => .inl (if v.truthy then v :: found else found)
    | .error (.raised _) => .inl found
    | .error .timeout => .inr (fail .timeout)) (fun found => next found.reverse) [] outputs

/-- Folds the values into an accumulator: after a look at the clock, the last value that `update`
gives is the next accumulator, null if it gives none.  The first failure takes the place of the
result. -/
def fold (update : Value → Value → Outputs) (next : Value → Outputs) : Outputs → Value → Outputs
  | .done, acc => next acc
  | .emit (.ok v) rest, acc =>
    guarded fun _ => withLast (update acc v) fun last =>
      fold update next (rest ()) (last.getD .null)
  | .emit (.error f) _, _ => fail f
  | .check k, acc => .check fun expired => fold update next (k expired) acc
  | .pause k, acc => fold update next (k ()) acc
  | .exhausted, _ => .exhausted

/-- Collects what `f` gives for each of some values, one value after the other. -/
def collectEach (f : Value → Outputs) (next : List (List Value) → Outputs) :
    List Value → List (List Value) → Outputs
  | [], found => next found.reverse
  | v :: vs, found => collect (f v) fun values => collectEach f next vs (values :: found)

/-! ### Loops -/

/-- Goes through a stack of streams, the last one first: every value is passed on after a look at
the clock, and the stream that `step` gives for it goes on top, its work ahead already done.  A passed
deadline clears the stack; failures are passed on. -/
def traverse (step : Value → Outputs) : Nat → List Outputs → Outputs
  | 0, _ => .exhausted
  | _ + 1, [] => .done
  | n + 1, .done :: stack => traverse step n stack
  | n + 1, .emit (.ok v) rest :: stack =>
    guarded fun _ => (step v).settle fun inner =>
      .emit (.ok v) fun _ => traverse step n (inner :: rest () :: stack)
  | n + 1, .emit (.error f) rest :: stack =>
    .emit (.error f) fun _ => traverse step n (rest () :: stack)
  | n + 1, .check next :: stack => .check fun expired => traverse step n (next expired :: stack)
  | n + 1, .pause next :: stack => traverse step n (next () :: stack)
  | _ + 1, .exhausted :: _ => .exhausted

/-- A value and, depth first, everything that `step` gives from the values passed on. -/
def recurseWith (budget : Nat) (step : Value → Outputs) (v : Value) : Outputs :=
  .pause fun _ => traverse step budget [single v]

/-- The numbers from `current` in steps of one, below a bound. -/
def countUp (bound : Binary64) : Nat → Binary64 → Outputs
  | 0, _ => .exhausted
  | n + 1, current =>
    if Binary64.le bound current then .done
    else
      guarded fun _ =>
        .emit (.ok (.ofBinary64 current)) fun _ => countUp bound n (current.add .one)

/-- Updates a state until a condition holds of it, and gives that state. -/
def untilTrue (condition update : Value → Outputs) : Nat → Value → Outputs
  | 0, _ => .exhausted
  | n + 1, state =>
    guarded fun _ => withFirst (condition state) fun
      | none => .done
      | some holds =>
        if holds.truthy then single state
        else withFirst (update state) fun
          | none => .done
          | some next => untilTrue condition update n next

/-- Updates a state while a condition holds of it, and gives all states on the way. -/
def whileTrue (condition update : Value → Outputs) : Nat → Value → Outputs
  | 0, _ => .exhausted
  | n + 1, state =>
    guarded fun _ => withFirst (condition state) fun
      | none => .done
      | some holds =>
        if holds.truthy then
          .emit (.ok state) fun _ => withFirst (update state) fun
            | none => .done
            | some next => whileTrue condition update n next
        else .done

end Outputs
end JsonFilter.Eval
