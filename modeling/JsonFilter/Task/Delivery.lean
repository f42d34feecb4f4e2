/-!
# Deliveries

A delivery hands one value from a producer to one consumer.  The producer holds a promise and either
fulfils it or drops it; the consumer holds a completion and asks for the value, now or later.  A
promise that is dropped without a value cancels the delivery, so that the consumer always learns how
it ended.

A consumer that finds nothing yet leaves a waker, and the end of the delivery wakes the last one that
was left.  `woken` lists the wakers that were woken.
-/

namespace JsonFilter.Task

/-- Where a delivery stands. -/
inductive Parcel (α : Type) where
  | pending
  | ready (value : α)
  | cancelled
  /-- The value or the cancellation has been given out. -/
  | taken
deriving DecidableEq, Repr

/-- A delivery with its two ends. -/
structure Delivery (α : Type) where
  parcel : Parcel α := .pending
  waker : Option Nat := none
  /-- Whether the producer has not acted yet. -/
  hasPromise : Bool := true
  /-- Whether the consumer still has its end. -/
  hasCompletion : Bool := true
  woken : List Nat := []
deriving DecidableEq, Repr

/-- What a consumer learns. -/
inductive Reply (α : Type) where
  | value (v : α)
  | cancelled
  | pending
  /-- The consumer would have to wait for as long as it takes. -/
  | blocked
  /-- The consumer has no completion any more. -/
  | gone
deriving DecidableEq, Repr

/-- The wording of a cancellation. -/
def cancelledText : String := "the task was dropped before it produced a result"

namespace Delivery

variable {α : Type}

/-- Whether the consumer would learn something. -/
def isReady (d : Delivery α) : Bool :=
  match d.parcel with
  | .pending => false
  | _ => true

/-! ### The producer -/

/-- Ends a delivery that has not ended yet; gives the waker, which is no longer left then. -/
def settle (d : Delivery α) (parcel : Parcel α) : Option Nat × Delivery α :=
  if d.isReady then (none, d) else (d.waker, { d with parcel := parcel, waker := none })

/-- Wakes a waker, if there is one. -/
def wake (d : Delivery α) (waker : Option Nat) : Delivery α :=
  { d with woken := d.woken ++ waker.toList }

/-- Ends a delivery that has not ended yet, and then wakes the waker. -/
def resolve (d : Delivery α) (parcel : Parcel α) : Delivery α :=
  let (waker, d) := d.settle parcel
  d.wake waker

/-- Fulfils the promise; tells whether it was still there. -/
def fulfil (d : Delivery α) (value : α) : Bool × Delivery α :=
  if d.hasPromise then (true, { d.resolve (.ready value) with hasPromise := false })
  else (false, d)

/-- Drops the promise; tells whether it was still there. -/
def dropPromise (d : Delivery α) : Bool × Delivery α :=
  if d.hasPromise then (true, { d.resolve .cancelled with hasPromise := false })
  else (false, d)

/-! ### The consumer -/

/-- Drops the completion; tells whether it was still there. -/
def dropCompletion (d : Delivery α) : Bool × Delivery α :=
  (d.hasCompletion, { d with hasCompletion := false })

/-- Takes what is there, once. -/
def take (d : Delivery α) : Reply α × Delivery α :=
  match d.parcel with
  | .pending => (.pending, d)
  | .ready value => (.value value, { d with parcel := .taken })
  | .cancelled => (.cancelled, { d with parcel := .taken })
  | .taken => (.cancelled, d)

/-- The waker that is left after one more was offered: the old one stays if it wakes the same. -/
def registered (wakesSame : Nat → Nat → Bool) (old : Option Nat) (new : Nat) : Option Nat :=
  match old with
  | some w => if wakesSame w new then some w else some new
  | none => some new

/-- Asks for the value; leaves a waker if there is nothing yet. -/
def poll (d : Delivery α) (waker : Nat) (wakesSame : Nat → Nat → Bool := fun w v => w = v) :
    Reply α × Delivery α :=
  if d.hasCompletion then
    match d.take with
    | (.pending, d) => (.pending, { d with waker := registered wakesSame d.waker waker })
    | answer => answer
  else (.gone, d)

/-- Takes what is there and gives the completion up; without anything there, the completion stays
and the answer is the one given. -/
def takeOr (d : Delivery α) (otherwise : Reply α) : Reply α × Delivery α :=
  if d.hasCompletion then
    match d.take with
    | (.pending, d) => (otherwise, d)
    | (answer, d) => (answer, { d with hasCompletion := false })
  else (.gone, d)

/-- Waits for the end of the delivery. -/
def wait (d : Delivery α) : Reply α × Delivery α := d.takeOr .blocked

/-- Waits for some time, in which nothing happens, and looks once more. -/
def waitTimeout (d : Delivery α) : Reply α × Delivery α :=
  match d.takeOr .pending with
  | (.pending, d) => d.takeOr .pending
  | answer => answer

end Delivery
end JsonFilter.Task
