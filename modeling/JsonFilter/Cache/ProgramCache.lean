import JsonFilter.Cache.RecencyList
import JsonFilter.Cache.SweepPolicy
import JsonFilter.Duration

/-!
# The cache of programs

A cache holds compiled programs under their keys.  Whoever uses a program holds a lease on its entry;
an entry with leases is busy and never leaves the cache.  A sweep removes idle entries, the least
recently used first, while there are more entries than the capacity allows, so the capacity is a
soft bound.

Programs that have left for good are listed in `retired`, the oldest first: those that a sweep or a
clearing removed, and those that came too late because their key was there already.

An entry may be locked by whoever runs its program.  The cache keeps the lock with the entry;
`LockCounts` counts the locks taken.
-/

namespace JsonFilter.Cache

/-- A program under its key.  The number tells entries apart that had the same key at different
times. -/
structure Entry (K P : Type) where
  number : Nat
  key : K
  program : P
  locked : Bool
deriving DecidableEq, Repr

/-- An entry with its bookkeeping. -/
structure Slot (K P : Type) where
  entry : Entry K P
  /-- The leases on the entry. -/
  refs : Nat
  /-- The uses, the one that compiled the program included. -/
  uses : Nat
  compileTime : Duration
deriving DecidableEq, Repr

/-- One more lease and one more use. -/
def Slot.use {K P : Type} (s : Slot K P) : Slot K P :=
  { s with refs := s.refs + 1, uses := s.uses + 1 }

/-- The right to use an entry. -/
structure Lease (K : Type) where
  number : Nat
  key : K
deriving DecidableEq, Repr

/-- What a cache counts over its lifetime. -/
structure Counts where
  hits : Nat := 0
  misses : Nat := 0
  inserts : Nat := 0
  evictions : Nat := 0
  /-- The time that the inserted programs took to compile. -/
  compileTime : Duration := .zero
deriving DecidableEq, Repr, Inhabited

/-- Programs under their keys, in the order of their last use. -/
structure ProgramCache (K P : Type) where
  policy : SweepPolicy
  capacity : Nat
  /-- The position of every key. -/
  index : List (K × Nat)
  recency : RecencyList (Slot K P)
  counts : Counts
  retired : List P
deriving Repr

/-- What can be seen of a cache at one time. -/
structure Stats where
  entries : Nat
  capacity : Nat
  busy : Nat
  counts : Counts
deriving DecidableEq, Repr

/-- A capacity must be positive. -/
inductive CapacityError where
  | nonPositive
deriving DecidableEq, Repr

/-- The wording. -/
def CapacityError.message : CapacityError → String
  | .nonPositive => "cache capacity must be positive"

namespace ProgramCache

variable {K P : Type}

/-- A cache without entries. -/
def empty (capacity : Nat) (policy : SweepPolicy) : ProgramCache K P :=
  { policy, capacity, index := [], recency := .empty, counts := {}, retired := [] }

/-- A cache without entries, if the capacity is positive. -/
def withCapacity (capacity : Nat) (policy : SweepPolicy := .stopAtBusy) :
    Except CapacityError (ProgramCache K P) :=
  if capacity = 0 then .error .nonPositive else .ok (empty capacity policy)

/-! ### Looking -/

/-- The slots, the most recently used first. -/
def slots (c : ProgramCache K P) : List (Slot K P) := c.recency.toList

/-- The keys, the most recently used first. -/
def keys (c : ProgramCache K P) : List K := c.slots.map fun s => s.entry.key

/-- The number of entries. -/
def size (c : ProgramCache K P) : Nat := c.recency.size

/-- What can be seen of the cache. -/
def stats (c : ProgramCache K P) : Stats :=
  { entries := c.size
    capacity := c.capacity
    busy := (c.slots.filter fun s => 0 < s.refs).length
    counts := c.counts }

/-- Whether the entry at a position has leases. -/
def isBusyAt (c : ProgramCache K P) (i : Nat) : Bool :=
  match c.recency.get? i with
  | none => false
  | some s => 0 < s.refs

/-- The positions of the entries without leases, the most recently used first. -/
def idlePositions (c : ProgramCache K P) : List Nat :=
  (c.recency.entries.filter fun p => p.2.refs = 0).map Prod.fst

/-- The cache after removed entries are gone for good. -/
def retire (c : ProgramCache K P) (entries : List (Entry K P)) : ProgramCache K P :=
  { c with retired := c.retired ++ entries.map Entry.program }

variable [DecidableEq K]

/-- The position of a key. -/
def position? (c : ProgramCache K P) (key : K) : Option Nat := c.index.lookup key

/-- The slot of a key. -/
def slot? (c : ProgramCache K P) (key : K) : Option (Slot K P) :=
  (c.position? key).bind c.recency.get?

/-- Whether a key is there. -/
def contains (c : ProgramCache K P) (key : K) : Bool := (c.position? key).isSome

/-! ### Leases -/

/-- Makes the entry at a position the most recently used and leases it. -/
def leaseAt (c : ProgramCache K P) (i : Nat) : Option (Lease K) × ProgramCache K P :=
  let recency := c.recency.moveToFront i
  match recency.get? i with
  | none => (none, { c with recency := recency })
  | some s =>
    (some ⟨s.entry.number, s.entry.key⟩, { c with recency := recency.modify i Slot.use })

/-- Leases the entry of a key, if the key is there. -/
def acquire (c : ProgramCache K P) (key : K) : Option (Lease K) × ProgramCache K P :=
  match c.position? key with
  | none => (none, { c with counts := { c.counts with misses := c.counts.misses + 1 } })
  | some i =>
    match c.leaseAt i with
    | (none, c) => (none, c)
    | (some lease, c) =>
      (some lease, { c with counts := { c.counts with hits := c.counts.hits + 1 } })

/-- Gives a lease back. -/
def release (c : ProgramCache K P) (lease : Lease K) : ProgramCache K P :=
  match c.position? lease.key with
  | none => c
  | some i =>
    { c with
      recency := c.recency.modify i fun s =>
        if s.entry.number = lease.number then { s with refs := s.refs - 1 } else s }

/-! ### Sweeping -/

/-- Removes the entry at a position, which then leaves the index too. -/
def removeAt (c : ProgramCache K P) (i : Nat) : Option (Entry K P) × ProgramCache K P :=
  match c.recency.remove i with
  | (none, _) => (none, c)
  | (some s, recency) =>
    (some s.entry,
      { c with recency := recency, index := c.index.filter fun p => p.1 ≠ s.entry.key })

/-- Removes idle entries from a position on towards the newer ones, at most `steps` of them, while
there are too many.  Gives the removed entries, the least recently used first. -/
def sweepFrom : Nat → Option Nat → ProgramCache K P → List (Entry K P) × ProgramCache K P
  | 0, _, c => ([], c)
  | _, none, c => ([], c)
  | steps + 1, some i, c =>
    if c.size ≤ c.capacity then ([], c)
    else
      let next := c.recency.newer? i
      if c.isBusyAt i then
        match c.policy with
        | .stopAtBusy => ([], c)
        | .skipBusy => sweepFrom steps next c
      else
        match c.removeAt i with
        | (none, c) => sweepFrom steps next c
        | (some entry, c) =>
          let counted :=
            { c with counts := { c.counts with evictions := c.counts.evictions + 1 } }
          let (more, c) := sweepFrom steps next counted
          (entry :: more, c)

/-- Removes idle entries, the least recently used first, while there are too many. -/
def sweep (c : ProgramCache K P) : List (Entry K P) × ProgramCache K P :=
  sweepFrom c.size c.recency.oldest c

/-- Sweeps; gives the number of entries that left. -/
def evict (c : ProgramCache K P) : Nat × ProgramCache K P :=
  let (removed, c) := c.sweep
  (removed.length, c.retire removed)

/-- Changes the capacity and sweeps; gives the capacity. -/
def resize (c : ProgramCache K P) (capacity : Nat) :
    Except CapacityError (Nat × ProgramCache K P) :=
  if capacity = 0 then .error .nonPositive
  else .ok (capacity, ({ c with capacity := capacity } : ProgramCache K P).evict.2)

/-- Removes the entries at some positions, in order. -/
def removeAll : List Nat → ProgramCache K P → List (Entry K P) × ProgramCache K P
  | [], c => ([], c)
  | i :: rest, c =>
    match c.removeAt i with
    | (none, c) => removeAll rest c
    | (some entry, c) =>
      let (more, c) := removeAll rest c
      (entry :: more, c)

/-- Removes all entries without leases; gives their number. -/
def clear (c : ProgramCache K P) : Nat × ProgramCache K P :=
  let (removed, c) := removeAll c.idlePositions c
  (removed.length, c.retire removed)

/-! ### Inserting -/

/-- Adds an entry that is not there yet, with one lease. -/
def publish (c : ProgramCache K P) (key : K) (program : P) (compileTime : Duration) :
    Lease K × ProgramCache K P :=
  let number := c.counts.inserts
  let slot : Slot K P :=
    { entry := { number, key, program, locked := false }, refs := 1, uses := 1, compileTime }
  let (i, recency) := c.recency.pushFront slot
  let counts :=
    { c.counts with
      inserts := number + 1
      compileTime := ⟨c.counts.compileTime.nanoseconds + compileTime.nanoseconds⟩ }
  (⟨number, key⟩, { c with recency, counts, index := (key, i) :: c.index })

/-- Adds an entry and sweeps. -/
def publishAndSweep (c : ProgramCache K P) (key : K) (program : P) (compileTime : Duration) :
    Lease K × ProgramCache K P :=
  let (lease, c) := c.publish key program compileTime
  (lease, c.evict.2)

/-- Leases the entry of a key for which a program was compiled.  If the key is there already, its
program stays and the new one is given up; otherwise the new one becomes an entry. -/
def insert (c : ProgramCache K P) (key : K) (program : P) (compileTime : Duration) :
    Lease K × ProgramCache K P :=
  match c.position? key with
  | none => c.publishAndSweep key program compileTime
  | some i =>
    match c.leaseAt i with
    | (some lease, c) => (lease, { c with retired := c.retired ++ [program] })
    | (none, c) =>
      let c := { c with index := c.index.filter fun p => p.1 ≠ key }
      c.publishAndSweep key program compileTime

/-! ### Locks -/

/-- The position of the entry that a lease is for. -/
def leased? (c : ProgramCache K P) (lease : Lease K) : Option (Nat × Entry K P) := do
  let i ← c.position? lease.key
  let s ← c.recency.get? i
  if s.entry.number = lease.number then some (i, s.entry) else none

/-- Changes the entry that a lease is for. -/
def updateLeased (c : ProgramCache K P) (lease : Lease K) (f : Entry K P → Entry K P) :
    ProgramCache K P :=
  match c.leased? lease with
  | none => c
  | some (i, _) =>
    { c with recency := c.recency.modify i fun s => { s with entry := f s.entry } }

/-- Whether the entry that a lease is for is locked. -/
def isLocked (c : ProgramCache K P) (lease : Lease K) : Bool :=
  ((c.leased? lease).map fun p => p.2.locked).getD false

/-- Locks the entry that a lease is for and gives its program, unless it is locked. -/
def tryLock (c : ProgramCache K P) (lease : Lease K) : Option (P × ProgramCache K P) :=
  match c.leased? lease with
  | none => none
  | some (_, e) =>
    if e.locked then none
    else some (e.program, c.updateLeased lease fun e => { e with locked := true })

/-- Unlocks the entry that a lease is for and leaves its program as it has become. -/
def unlock (c : ProgramCache K P) (lease : Lease K) (program : P) : ProgramCache K P :=
  c.updateLeased lease fun e => { e with program := program, locked := false }

end ProgramCache

/-- How many locks were taken, and how many of them had to be waited for. -/
structure LockCounts where
  acquisitions : Nat := 0
  contended : Nat := 0
deriving DecidableEq, Repr, Inhabited

namespace LockCounts

/-- One more lock taken. -/
def taken (n : LockCounts) : LockCounts := { n with acquisitions := n.acquisitions + 1 }

/-- One more lock waited for. -/
def waited (n : LockCounts) : LockCounts := { n with contended := n.contended + 1 }

end LockCounts
end JsonFilter.Cache
