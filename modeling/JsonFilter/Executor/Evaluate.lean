import JsonFilter.Executor.Config
import JsonFilter.Executor.Engine
import JsonFilter.Executor.ExecError
import JsonFilter.Filter.QuoteStyle
import JsonFilter.Json.Reader
import JsonFilter.Task.Pool
import JsonFilter.Template.Awaited

/-!
# Executors

An executor evaluates filters on JSON texts.  It keeps the compiled filters in a cache, locks the
entry that it runs, and gives everything back when it is done, however the evaluation ends.

## Steps

An evaluation is a sequence of steps, each of which changes the executor at once: it leases the
entry of its key, compiling the filter if there is none; it locks the entry; it reads the input and
runs the program up to its first value; it unlocks the entry; it gives the lease back.

## Interruptions

A fault of the engine ends an evaluation without a result, after the lock and the lease were given
back.  An evaluation whose entry is locked waits for it; where nobody else goes on, it is stuck.
-/

namespace JsonFilter

open Cache (Lease ProgramCache LockCounts)
open Json (Value)

/-- What a single evaluation may do. -/
structure Terms where
  /-- The time it may take, instead of the default. -/
  timeout : Option Duration := none
  /-- Whether the filter sees the environment. -/
  enableEnv : Bool := false
deriving DecidableEq, Repr, Inhabited

/-- Evaluates filters with the programs of an engine. -/
structure Executor (P : Type) where
  engine : Engine P
  config : Config
  cache : ProgramCache FilterKey P
  locks : LockCounts := {}
  /-- What the workers count. -/
  tasks : Task.Metrics := {}

/-- Why an evaluation stops without a result. -/
inductive Interruption where
  | crashed (message : String)
  /-- The entry is locked and nobody unlocks it. -/
  | stuck
deriving DecidableEq, Repr

/-- What is done with an executor. -/
abbrev Session (P α : Type) := ExceptT Interruption (StateM (Executor P)) α

/-- The first value of a filter, if there is one. -/
abbrev Evaluation := Except ExecError (Option Value)

namespace Executor

variable {P : Type}

/-- An executor with an empty cache, if the settings can be used. -/
def create (engine : Engine P) (config : Config) : Except ConfigError (Executor P) := do
  config.validate
  let capacity := config.effectiveCapacity config.cacheCapacity
  return { engine, config, cache := .empty capacity config.sweepPolicy }

/-- The key of a filter. -/
def keyOf (filter : String) (terms : Terms) : FilterKey := ⟨filter, terms.enableEnv⟩

/-- The time that an evaluation may take. -/
def budget (x : Executor P) (terms : Terms) : Option Duration :=
  terms.timeout <|> x.config.defaultTimeout

/-! ### Steps -/

/-- Leases the entry of a key if it is in the cache. -/
def acquire (key : FilterKey) : Session P (Option (Lease FilterKey)) :=
  modifyGet fun x =>
    let (lease, cache) := x.cache.acquire key
    (lease, { x with cache })

/-- Puts a compiled program into the cache and leases its entry. -/
def insert (key : FilterKey) (program : P) : Session P (Lease FilterKey) :=
  modifyGet fun x =>
    let (lease, cache) := x.cache.insert key program .zero
    (lease, { x with cache })

/-- Leases the entry of a key, compiling the filter if there is none. -/
def obtain (key : FilterKey) : Session P (Except CompileError (Lease FilterKey)) := do
  match ← acquire key with
  | some lease => return .ok lease
  | none =>
    match (← get).engine.compile key with
    | .error e => return .error e
    | .ok program => return .ok (← insert key program)

/-- Locks the entry of a lease and gives its program. -/
def lock (lease : Lease FilterKey) : Session P P := do
  let x ← get
  match x.cache.tryLock lease with
  | some (program, cache) =>
    set { x with cache, locks := x.locks.taken }
    return program
  | none =>
    set { x with locks := x.locks.waited }
    throw .stuck

/-- Unlocks the entry of a lease and gives the lease back. -/
def finish (lease : Lease FilterKey) (program : P) : Session P Unit :=
  modify fun x => { x with cache := (x.cache.unlock lease program).release lease }

/-- The number of seconds from which on a clock cannot be set. -/
def clockLimit : Nat := twoTo 63

/-- The end of a run that cannot begin, because its time budget is beyond all clocks. -/
def clockFault? (budget : Option Duration) : Option String :=
  match budget with
  | some d =>
    if clockLimit ≤ d.nanoseconds / Duration.perSecond then
      some "overflow when adding duration to instant"
    else none
  | none => none

/-- Runs a program up to its first value. -/
def drive (engine : Engine P) (program : P) (input : Value) (budget : Option Duration) :
    P × RunEnd :=
  match clockFault? budget with
  | some message => (program, .crashed message)
  | none => engine.run program input budget

/-! ### Evaluations -/

/-- Evaluates a key on a JSON text. -/
def evaluateKey (json : String) (key : FilterKey) (budget : Option Duration) :
    Session P Evaluation := do
  match ← obtain key with
  | .error e => return .error (.compile e)
  | .ok lease =>
    let program ← lock lease
    match Value.ofText json with
    | .error e =>
      finish lease program
      return .error (.invalidInput e)
    | .ok input =>
      let (program, ending) := drive (← get).engine program input budget
      finish lease program
      match ending with
      | .crashed message => throw (.crashed message)
      | .result first => return first.mapError (.ofRun budget)

/-- Evaluates a filter on a JSON text where it is asked for. -/
def evaluate (json filter : String) (terms : Terms) : Session P Evaluation := do
  evaluateKey json (keyOf filter terms) ((← get).budget terms)

/-- What a worker reports of an evaluation that crashed. -/
def crashReport (message : String) : ExecError := .runtime ("evaluation panicked: " ++ message)

/-- Evaluates a filter on a JSON text on a worker and waits for it.  A crash is an error like any
other there. -/
def evaluateOnWorker (json filter : String) (terms : Terms) : Session P Evaluation := do
  modify fun x => { x with tasks := x.tasks.spawn }
  let result ← tryCatch (evaluate json filter terms) fun
    | .crashed message => return .error (crashReport message)
    | .stuck => throw .stuck
  modify fun x => { x with tasks := x.tasks.complete }
  return result

/-- Evaluates a filter with a given way of evaluation, on a value and leniently: the filter may have
its strings in single quotes, and null stands for no value and for every error. -/
def lenient (way : String → String → Terms → Session P Evaluation) (input : Value)
    (terms : Terms) (filter : String) : Session P Value := do
  match ← way input.compact (Filter.doubleQuoted filter) terms with
  | .ok (some v) => return v
  | _ => return .null

/-- Renders a template with the filters evaluated in a given way. -/
def renderWith (way : String → String → Terms → Session P Evaluation) (input template : Value)
    (terms : Terms) : Session P (Except Template.RenderError Value) :=
  (Template.render (lenient way input terms) template).run

/-- Renders a template with the filters evaluated on workers, waiting for each of them. -/
def renderOnWorkers (input template : Value) (terms : Terms) :
    Session P (Except Template.RenderError Value) :=
  (Template.awaitValue (lenient evaluateOnWorker input terms) template).run

/-- Changes the capacity of the cache; gives the capacity in effect. -/
def setCapacity (requested : Nat) : Session P (Except ExecError Nat) := do
  if requested = 0 then return .error (.capacity .nonPositive)
  else
    let x ← get
    match x.cache.resize (x.config.effectiveCapacity requested) with
    | .error e => return .error (.capacity e)
    | .ok (capacity, cache) =>
      set { x with cache }
      return .ok capacity

end Executor
end JsonFilter
