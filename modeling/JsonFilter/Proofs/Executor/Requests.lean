import JsonFilter.Executor.Evaluate
import Mathlib.Logic.Function.Iterate

/-!
# Requests, step by step

Many clients evaluate filters with one executor at the same time.  Each evaluation is a sequence of
steps, each of which changes the executor at once, and between two steps of one evaluation there may be
any steps of others.  This file cuts an evaluation into its steps and lets any number of them run
together.

## Stages

A `Stage` says how far an evaluation has come and what it has got so far: a lease, the program while it
has the lock, the input, and at the end its answer.  `Request.advance` is the next step from a stage.
Where the entry is locked, the request waits, and it tries again whenever it is its turn.

## Services

A `Service` is an executor with all requests that it works on.  A `Move` lets one of them take its next
step, or sweeps, clears or resizes the cache.  An interleaving is a list of moves.

* **`evaluate_eq_iterate`** — an evaluation that nobody disturbs is nothing but its steps in a row.
-/

namespace JsonFilter

open Cache (Lease)
open Json (Value)

variable {P : Type}

/-- What a client asks of an executor. -/
structure Request where
  json : String
  filter : String
  terms : Terms
deriving DecidableEq, Repr

/-- What an evaluation ends with. -/
abbrev Answer := Except Interruption Evaluation

/-- The answer at the end of a run within a time budget. -/
def RunEnd.answer (budget : Option Duration) : RunEnd → Answer
  | .crashed message => .error (.crashed message)
  | .result first => .ok (first.mapError (.ofRun budget))

/-- How far the evaluation of a request has come. -/
inductive Stage (P : Type) where
  | acquiring
  /-- The key was not in the cache. -/
  | compiling
  | inserting (program : P)
  /-- The lock was not tried yet. -/
  | leased (lease : Lease FilterKey)
  /-- The entry was found locked. -/
  | waiting (lease : Lease FilterKey)
  | locked (lease : Lease FilterKey) (program : P)
  | driving (lease : Lease FilterKey) (program : P) (input : Value)
  | unlocking (lease : Lease FilterKey) (program : P) (answer : Answer)
  | releasing (lease : Lease FilterKey) (answer : Answer)
  | finished (answer : Answer)

/-- The answer, once it is there for good. -/
def Stage.answer? : Stage P → Option Answer
  | .finished answer => some answer
  | _ => none

theorem Stage.answer?_eq_some_iff {stage : Stage P} {answer : Answer} :
    stage.answer? = some answer ↔ stage = .finished answer := by
  cases stage <;> simp [answer?]

/-! ### What a session does -/

/-- A step after a step, unless the first one fails. -/
theorem run_bind {ε σ α β : Type} (m : ExceptT ε (StateM σ) α) (f : α → ExceptT ε (StateM σ) β) (s : σ) :
    (m >>= f).run.run s =
      match m.run.run s with
      | (.ok a, s') => (f a).run.run s'
      | (.error e, s') => (.error e, s') := by
  show (match m.run.run s with | (result, s') => (ExceptT.bindCont f result) s') = _
  cases m.run.run s with
  | mk result s' => cases result <;> rfl

namespace Executor

theorem run_obtain (key : FilterKey) (x : Executor P) :
    (obtain key).run.run x =
      match x.cache.acquire key with
      | (some lease, cache) => (.ok (.ok lease), { x with cache })
      | (none, cache) =>
        match x.engine.compile key with
        | .error e => (.ok (.error e), { x with cache })
        | .ok program =>
          let (lease, cache) := cache.insert key program .zero
          (.ok (.ok lease), { x with cache }) := by
  have hacquire : (acquire key).run.run x =
      (.ok (x.cache.acquire key).1, { x with cache := (x.cache.acquire key).2 }) := rfl
  unfold obtain
  rw [run_bind, hacquire]
  cases x.cache.acquire key with
  | mk lease? cache =>
    cases lease? with
    | some lease => rfl
    | none =>
      dsimp only
      rw [run_bind]
      show (match x.engine.compile key with
        | .error e => _
        | .ok program => _ : Session P _).run.run _ = _
      cases x.engine.compile key <;> rfl

theorem run_lock (lease : Lease FilterKey) (x : Executor P) :
    (lock lease).run.run x =
      match x.cache.tryLock lease with
      | some (program, cache) => (.ok program, { x with cache, locks := x.locks.taken })
      | none => (.error .stuck, { x with locks := x.locks.waited }) := by
  unfold lock
  rw [run_bind]
  show (match x.cache.tryLock lease with
    | some (program, cache) => _
    | none => _ : Session P P).run.run x = _
  cases x.cache.tryLock lease <;> rfl

theorem budget_congr {x y : Executor P} (h : y.config = x.config) (terms : Terms) :
    y.budget terms = x.budget terms := by
  unfold budget
  rw [h]

/-- A change of the capacity is refused, or it changes the cache and nothing else. -/
theorem setCapacity_cases (requested : Nat) (x : Executor P) :
    ((setCapacity requested).run.run x).2 = x ∨
      ∃ capacity resized, x.cache.resize capacity = .ok resized ∧
        ((setCapacity requested).run.run x).2 = { x with cache := resized.2 } := by
  unfold setCapacity
  split
  · exact .inl rfl
  · have hget : (get : Session P (Executor P)).run.run x = (.ok x, x) := rfl
    rw [run_bind, hget]
    dsimp only
    cases hresize : x.cache.resize (x.config.effectiveCapacity requested) with
    | error e => exact .inl rfl
    | ok resized => exact .inr ⟨_, resized, hresize, rfl⟩

end Executor

namespace Request

/-- The key of the filter. -/
def key (r : Request) : FilterKey := Executor.keyOf r.filter r.terms

/-- The next step of the evaluation of a request. -/
def advance (r : Request) (x : Executor P) : Stage P → Executor P × Stage P
  | .acquiring =>
    match x.cache.acquire r.key with
    | (some lease, cache) => ({ x with cache }, .leased lease)
    | (none, cache) => ({ x with cache }, .compiling)
  | .compiling =>
    match x.engine.compile r.key with
    | .error e => (x, .finished (.ok (.error (.compile e))))
    | .ok program => (x, .inserting program)
  | .inserting program =>
    let (lease, cache) := x.cache.insert r.key program .zero
    ({ x with cache }, .leased lease)
  | .leased lease =>
    match x.cache.tryLock lease with
    | some (program, cache) => ({ x with cache, locks := x.locks.taken }, .locked lease program)
    | none => ({ x with locks := x.locks.waited }, .waiting lease)
  | .waiting lease =>
    match x.cache.tryLock lease with
    | some (program, cache) => ({ x with cache, locks := x.locks.taken }, .locked lease program)
    | none => (x, .waiting lease)
  | .locked lease program =>
    match Value.ofText r.json with
    | .error e => (x, .unlocking lease program (.ok (.error (.invalidInput e))))
    | .ok input => (x, .driving lease program input)
  | .driving lease program input =>
    let (program, ending) := Executor.drive x.engine program input (x.budget r.terms)
    (x, .unlocking lease program (ending.answer (x.budget r.terms)))
  | .unlocking lease program answer =>
    ({ x with cache := x.cache.unlock lease program }, .releasing lease answer)
  | .releasing lease answer => ({ x with cache := x.cache.release lease }, .finished answer)
  | .finished answer => (x, .finished answer)

/-- The next step of an evaluation that is alone with the executor. -/
def advanceAlone (r : Request) (p : Executor P × Stage P) : Executor P × Stage P :=
  r.advance p.1 p.2

/-- Under a lease, five steps lead to the answer, or to a lock that nobody gives back. -/
theorem underLease_eq_iterate (r : Request) (lease : Lease FilterKey) (x : Executor P) (idle : Nat) :
    (do
      let program ← Executor.lock lease
      match Value.ofText r.json with
      | .error e =>
        Executor.finish lease program
        return .error (.invalidInput e)
      | .ok input =>
        let (program, ending) := Executor.drive (← get).engine program input (x.budget r.terms)
        Executor.finish lease program
        match ending with
        | .crashed message => throw (.crashed message)
        | .result first => return first.mapError (.ofRun (x.budget r.terms))
      : Session P Evaluation).run.run x =
      let (x', stage) := r.advanceAlone^[idle + 5] (x, .leased lease)
      (stage.answer?.getD (.error .stuck), x') := by
  have hfinished : ∀ (y : Executor P) answer n,
      r.advanceAlone^[n] (y, .finished answer) = (y, .finished answer) := fun y answer n =>
    Function.iterate_fixed rfl n
  rw [run_bind, Executor.run_lock, Function.iterate_succ_apply]
  cases htry : x.cache.tryLock lease with
  | none =>
    have hwaits : r.advanceAlone (x, .leased lease) =
        ({ x with locks := x.locks.waited }, .waiting lease) := by
      dsimp only [advanceAlone, advance]
      rw [htry]
    have hstays : r.advanceAlone ({ x with locks := x.locks.waited }, .waiting lease) =
        ({ x with locks := x.locks.waited }, .waiting lease) := by
      dsimp only [advanceAlone, advance]
      rw [htry]
    rw [hwaits, Function.iterate_fixed hstays]
    rfl
  | some p =>
    obtain ⟨program, cache⟩ := p
    have hlocks : r.advanceAlone (x, .leased lease) =
        ({ x with cache, locks := x.locks.taken }, .locked lease program) := by
      dsimp only [advanceAlone, advance]
      rw [htry]
    rw [hlocks, Function.iterate_succ_apply]
    dsimp only [advanceAlone, advance]
    cases Value.ofText r.json with
    | error e =>
      dsimp only
      rw [Function.iterate_succ_apply, Function.iterate_succ_apply]
      dsimp only [advanceAlone, advance]
      rw [hfinished]
      rfl
    | ok input =>
      dsimp only
      rw [Function.iterate_succ_apply, Function.iterate_succ_apply, Function.iterate_succ_apply]
      dsimp only [advanceAlone, advance]
      rw [hfinished, run_bind]
      dsimp only [Stage.answer?]
      rw [show Executor.budget { x with cache, locks := x.locks.taken } r.terms =
        x.budget r.terms from rfl]
      show (match Executor.drive x.engine program input (x.budget r.terms) with
        | (program, ending) => _ : Session P Evaluation).run.run _ = _
      generalize Executor.drive x.engine program input (x.budget r.terms) = driven
      obtain ⟨program, ending⟩ := driven
      cases ending <;> rfl

/-- **An evaluation is nothing but its steps.**  Where nobody else uses the executor, nine steps lead
to the answer, and more of them change nothing; an evaluation that has none by then waits for a lock that
nobody gives back. -/
theorem evaluate_eq_iterate (r : Request) (x : Executor P) (idle : Nat) :
    (Executor.evaluate r.json r.filter r.terms).run.run x =
      let (x', stage) := r.advanceAlone^[idle + 9] (x, .acquiring)
      (stage.answer?.getD (.error .stuck), x') := by
  unfold Executor.evaluate
  rw [run_bind]
  show ((Executor.evaluateKey r.json r.key (x.budget r.terms)).run.run x) = _
  unfold Executor.evaluateKey
  rw [run_bind, Executor.run_obtain, Function.iterate_succ_apply]
  dsimp only [advanceAlone, advance]
  cases x.cache.acquire r.key with
  | mk lease? cache =>
    cases lease? with
    | some lease => exact underLease_eq_iterate r lease { x with cache } (idle + 3)
    | none =>
      dsimp only
      rw [Function.iterate_succ_apply]
      dsimp only [advanceAlone, advance]
      cases x.engine.compile r.key with
      | error e =>
        dsimp only
        rw [Function.iterate_fixed (by rfl)]
        rfl
      | ok program =>
        dsimp only
        rw [Function.iterate_succ_apply]
        exact underLease_eq_iterate r _ { x with cache := (cache.insert r.key program .zero).2 } (idle + 1)

/-- Steps that lead to an answer lead to the one that the evaluation gives. -/
theorem evaluate_of_iterate {r : Request} {x x' : Executor P} {steps : Nat} {answer : Answer}
    (h : r.advanceAlone^[steps] (x, .acquiring) = (x', .finished answer)) :
    (Executor.evaluate r.json r.filter r.terms).run.run x = (answer, x') := by
  have hstays : r.advanceAlone^[9] (x', .finished answer) = (x', .finished answer) :=
    Function.iterate_fixed rfl 9
  rw [evaluate_eq_iterate r x steps, Nat.add_comm, Function.iterate_add_apply, h, hstays]
  rfl

end Request

/-- A request with the stage of its evaluation. -/
structure Call (P : Type) where
  request : Request
  stage : Stage P

/-- An executor with the requests that it works on. -/
structure Service (P : Type) where
  executor : Executor P
  calls : List (Call P)

/-- What happens next to an executor in use. -/
inductive Move where
  /-- A request takes its next step. -/
  | advance (i : Nat)
  | evict
  | clear
  | setCapacity (requested : Nat)
deriving DecidableEq, Repr

namespace Service

/-- All requests begin. -/
def start (x : Executor P) (requests : List Request) : Service P :=
  ⟨x, requests.map fun r => ⟨r, .acquiring⟩⟩

/-- The service after a move. -/
def step (w : Service P) : Move → Service P
  | .advance i =>
    match w.calls[i]? with
    | none => w
    | some call =>
      let (executor, stage) := call.request.advance w.executor call.stage
      ⟨executor, w.calls.set i { call with stage }⟩
  | .evict => { w with executor := { w.executor with cache := w.executor.cache.evict.2 } }
  | .clear => { w with executor := { w.executor with cache := w.executor.cache.clear.2 } }
  | .setCapacity requested =>
    { w with executor := ((Executor.setCapacity requested).run.run w.executor).2 }

/-- The service after a run. -/
def run (w : Service P) (moves : List Move) : Service P := moves.foldl step w

end Service
end JsonFilter
