import JsonFilter.Proofs.Cache.Eviction
import JsonFilter.Proofs.Cache.LastUse
import JsonFilter.Proofs.Cache.Leases
import Mathlib.Algebra.GroupWithZero.Nat
import Mathlib.Data.List.Dedup

/-!
# The statistics of a cache add up

A cache counts as it goes: six numbers, in different branches of its operations.  A duplicate is one more
use of the entry that was first and of nothing else; a clearing takes entries out and is no eviction; a
sweep happens on its own, behind an insertion or a change of the capacity.  This file keeps the books of
a run outside of the cache and shows that they agree with the counts inside.

## The books

A `Booking` is what an action comes to: a hit, a miss, a new entry, a duplicate, a clearing, or nothing to
count.  `SharedCache.history` lists the bookings of a run, the latest one first.

## What is carried through a run

`Books booking c c'` says what one booking does to the counts, to the number of entries together with
what has left, and to the uses of each entry.  Every operation has its own lemma (`acquire_books`,
`insert_books`, and so on); a sweep that follows an operation leaves its booking as it is (`Books.evict`),
since what it takes out it adds to the evictions.  `Tallied c past` says the same of a whole history.

* **`statistics_add_up`** — all statistics after any run, and what a sweep and a clearing give back.
-/

namespace JsonFilter.Cache

variable {K P : Type}

/-! ### Bookings -/

/-- What an action comes to for whoever keeps the books. -/
inductive Booking (K : Type) where
  /-- A lease on an entry that was there. -/
  | hit (key : K)
  /-- A lease was asked for and not given. -/
  | miss
  /-- A program became an entry. -/
  | published (key : K) (compileTime : Duration)
  /-- A program came too late: its key had an entry, which is leased instead. -/
  | duplicate (key : K)
  /-- A clearing reported that many entries. -/
  | cleared (entries : Nat)
  /-- Nothing is counted, evictions apart. -/
  | quiet
deriving DecidableEq, Repr

namespace Booking

def isHit : Booking K → Bool
  | hit _ => true
  | _ => false

def isMiss : Booking K → Bool
  | miss => true
  | _ => false

def isPublication : Booking K → Bool
  | published _ _ => true
  | _ => false

/-- The nanoseconds that a program took to compile, if it became an entry. -/
def compileTime : Booking K → Nat
  | published _ compileTime => compileTime.nanoseconds
  | _ => 0

/-- The entries that a clearing reported. -/
def clearedEntries : Booking K → Nat
  | cleared entries => entries
  | _ => 0

/-- The counts after a booking, as far as it decides them. -/
def count (booking : Booking K) (n : Counts) : Counts :=
  { n with
    hits := n.hits + if booking.isHit then 1 else 0
    misses := n.misses + if booking.isMiss then 1 else 0
    inserts := n.inserts + if booking.isPublication then 1 else 0
    compileTime := ⟨n.compileTime.nanoseconds + booking.compileTime⟩ }

variable [DecidableEq K]

/-- Whether a key gets a new entry. -/
def publishes (key : K) : Booking K → Bool
  | published other _ => decide (other = key)
  | _ => false

/-- Whether the entry of a key is used once more. -/
def uses (key : K) : Booking K → Bool
  | hit other | duplicate other => decide (other = key)
  | _ => false

theorem publishes_eq_false {booking : Booking K} (h : booking.isPublication = false) (key : K) :
    booking.publishes key = false := by
  cases booking with
  | published => cases h
  | hit | miss | duplicate | cleared | quiet => rfl

end Booking

/-- How often a key was found, by a client or by a duplicate, since it got its entry. -/
def usesSince [DecidableEq K] (key : K) (past : List (Booking K)) : Nat :=
  (past.takeWhile fun booking => !booking.publishes key).countP (Booking.uses key)

/-- Whether a client asks for a lease on what is there. -/
def Action.isAcquire : Action K P → Bool
  | .acquire _ _ => true
  | _ => false

namespace SharedCache

variable [DecidableEq K]

/-- What an action comes to, by the answers of the cache. -/
def booking (w : SharedCache K P) : Action K P → Booking K
  | .acquire _ key => if (w.cache.acquire key).1.isSome then .hit key else .miss
  | .insert _ key _ compileTime =>
    if w.cache.contains key then .duplicate key else .published key compileTime
  | .clear => .cleared w.cache.clear.1
  | _ => .quiet

/-- The bookings of a run, the latest one first. -/
def history (w : SharedCache K P) : List (Action K P) → List (Booking K)
  | [] => []
  | action :: actions => (w.step action).history actions ++ [w.booking action]

/-- A client that asks for a lease has a hit or a miss, and nobody else has. -/
theorem booking_isHit_add_isMiss (w : SharedCache K P) (action : Action K P) :
    ((if (w.booking action).isHit then 1 else 0) + if (w.booking action).isMiss then 1 else 0) =
      if action.isAcquire then 1 else 0 := by
  cases action with
  | acquire client key =>
    dsimp only [booking]
    split <;> rfl
  | insert client key program compileTime =>
    dsimp only [booking]
    split <;> rfl
  | release | lock | unlock | evict | resize | clear => rfl

theorem history_isHit_add_isMiss (w : SharedCache K P) (actions : List (Action K P)) :
    (w.history actions).countP Booking.isHit + (w.history actions).countP Booking.isMiss =
      actions.countP Action.isAcquire := by
  induction actions generalizing w with
  | nil => rfl
  | cons action actions ih =>
    have hone := w.booking_isHit_add_isMiss action
    have hrest := ih (w.step action)
    simp only [history, List.countP_append, List.countP_cons, List.countP_nil]
    omega

end SharedCache

namespace ProgramCache

variable {c c₁ c' : ProgramCache K P} {s s' : Slot K P} {gone : List (Slot K P)}
  {booking : Booking K} {past : List (Booking K)}

/-! ### Sizes -/

theorem Consistent.size_eq_length_slots (h : c.Consistent) : c.size = c.slots.length := by
  rw [h.size_eq, keys, List.length_map]

theorem Replaces.size (hr : c.Replaces s s' c') (h : c.Consistent) : c'.size = c.size := by
  obtain ⟨rest, hperm, hperm'⟩ := hr.perm
  rw [hr.consistent.size_eq_length_slots, h.size_eq_length_slots, hperm.length_eq, hperm'.length_eq]
  rfl

theorem Publishes.size (hp : c.Publishes s c') (h : c.Consistent) : c'.size = c.size + 1 := by
  rw [hp.consistent.size_eq_length_slots, h.size_eq_length_slots, hp.perm.length_eq]
  rfl

/-- What has left and what is still there. -/
theorem Sheds.size (hs : c.Sheds gone c') (h : c.Consistent) : gone.length + c'.size = c.size := by
  rw [hs.consistent.size_eq_length_slots, h.size_eq_length_slots, hs.perm.length_eq,
    List.length_append]

theorem leaseAt_counts (c : ProgramCache K P) (i : Nat) : (c.leaseAt i).2.counts = c.counts := by
  unfold leaseAt
  dsimp only
  split <;> rfl

section Counting

variable [DecidableEq K]

/-- **A sweep gives back how many entries left.** -/
theorem evict_size (h : c.Consistent) : c.evict.1 + c.evict.2.size = c.size := by
  obtain ⟨gone, hgone, hsheds⟩ := sweepFrom_sheds h c.size c.recency.oldest
  have hlength : gone.length = c.evict.1 := by
    rw [← List.length_map Slot.entry, hgone]
    rfl
  rw [← hlength]
  exact hsheds.size h

/-- **So does a clearing.** -/
theorem clear_size (h : c.Consistent) : c.clear.1 + c.clear.2.size = c.size := by
  obtain ⟨gone, hgone, hsheds⟩ := removeAll_sheds h c.idlePositions h.isBusyAt_idlePositions
  have hlength : gone.length = c.clear.1 := by
    rw [← List.length_map Slot.entry, hgone]
    rfl
  rw [← hlength]
  exact hsheds.size h

/-! ### Counts -/

theorem evict_counts (c : ProgramCache K P) :
    c.evict.2.counts = { c.counts with evictions := c.counts.evictions + c.evict.1 } :=
  (sweepFrom_counts c.size c.recency.oldest c).1

theorem removeAll_counts (idle : List Nat) (c : ProgramCache K P) :
    (removeAll idle c).2.counts = c.counts := by
  induction idle generalizing c with
  | nil => rfl
  | cons i idle ih =>
    have hone := (removeAt_counts c i).1
    unfold removeAll
    split
    · rename_i c' hnone
      rw [hnone] at hone
      exact (ih c').trans hone
    · rename_i entry c' hsome
      rw [hsome] at hone
      exact (ih c').trans hone

/-- A clearing counts nothing. -/
theorem clear_counts (c : ProgramCache K P) : c.clear.2.counts = c.counts :=
  removeAll_counts c.idlePositions c

theorem acquire_counts {key : K} {lease : Lease K} (hlease : (c.acquire key).1 = some lease) :
    (c.acquire key).2.counts = { c.counts with hits := c.counts.hits + 1 } := by
  unfold acquire at hlease ⊢
  split at hlease
  · cases hlease
  · rename_i i hi
    have hcounts := leaseAt_counts c i
    split at hlease
    · cases hlease
    · rename_i lease' c' hleaseAt
      rw [hleaseAt] at hcounts
      show { c'.counts with hits := c'.counts.hits + 1 } = _
      rw [show c'.counts = c.counts from hcounts]

theorem release_counts (c : ProgramCache K P) (lease : Lease K) :
    (c.release lease).counts = c.counts := by
  unfold release
  split <;> rfl

theorem updateLeased_counts (c : ProgramCache K P) (lease : Lease K) (f : Entry K P → Entry K P) :
    (c.updateLeased lease f).counts = c.counts := by
  unfold updateLeased
  split <;> rfl

theorem tryLock_counts {lease : Lease K} {program : P}
    (hlock : c.tryLock lease = some (program, c')) : c'.counts = c.counts := by
  unfold tryLock at hlock
  split at hlock
  · cases hlock
  · split at hlock
    · cases hlock
    · cases hlock
      exact updateLeased_counts c lease _

/-! ### One booking -/

/-- **A booking agrees with a change of the cache.**  Evictions are not booked: what a sweep takes out
moves from the entries to the evictions, and both together stay the same. -/
structure Books (booking : Booking K) (c c' : ProgramCache K P) : Prop where
  counts : c'.counts = { booking.count c.counts with evictions := c'.counts.evictions }
  balance : c'.size + c'.counts.evictions + booking.clearedEntries =
    c.size + c.counts.evictions + if booking.isPublication then 1 else 0
  uses : ∀ t ∈ c'.slots, booking.publishes t.entry.key = true ∧ t.uses = 1 ∨
    booking.publishes t.entry.key = false ∧ ∃ s ∈ c.slots, s.entry.key = t.entry.key ∧
      t.uses = s.uses + if booking.uses t.entry.key then 1 else 0

namespace Books

/-- Where nothing happens, nothing is booked. -/
theorem refl (c : ProgramCache K P) : Books .quiet c c :=
  ⟨rfl, rfl, fun s hs => .inr ⟨rfl, s, hs, rfl, rfl⟩⟩

/-- **A sweep that follows** leaves the booking as it is. -/
theorem evict (hb : Books booking c c₁) (h : c₁.Consistent) : Books booking c c₁.evict.2 := by
  have hcounts := evict_counts c₁
  have hsize := evict_size h
  have hbalance := hb.balance
  obtain ⟨gone, hretires⟩ := evict_retires h
  refine ⟨?_, ?_, fun t ht => hb.uses t ?_⟩
  · rw [hcounts, hb.counts]
  · rw [hcounts]
    dsimp only
    omega
  · exact hretires.perm.mem_iff.2 (List.mem_append_right gone ht)

end Books

/-- **A slot is replaced** by one with the uses that are booked; the slots of the other keys stay. -/
theorem Replaces.books (hr : c.Replaces s s' c') (h : c.Consistent)
    (hcounts : c'.counts = booking.count c.counts) (hnew : booking.isPublication = false)
    (hcleared : booking.clearedEntries = 0)
    (hself : s'.uses = s.uses + if booking.uses s.entry.key then 1 else 0)
    (hothers : ∀ key ≠ s.entry.key, booking.uses key = false) : Books booking c c' := by
  have hkey : s'.entry.key = s.entry.key := congrArg Lease.key hr.lease
  refine ⟨?_, ?_, fun t ht => .inr ⟨Booking.publishes_eq_false hnew _, ?_⟩⟩
  · rw [hcounts]
  · rw [hr.size h, hcounts, hcleared, hnew]
    rfl
  · by_cases hsame : t.entry.key = s.entry.key
    · obtain ⟨rest, -, hperm'⟩ := hr.perm
      have hmem : s' ∈ c'.slots := hperm'.mem_iff.2 List.mem_cons_self
      obtain rfl : t = s' := hr.consistent.eq_of_key_eq ht hmem (hsame.trans hkey.symm)
      exact ⟨s, hr.mem, hkey.symm, hkey ▸ hself⟩
    · have hold : t ∈ c.slots :=
        (hr.eq_or_mem ht).resolve_left fun heq => hsame ((congrArg (·.entry.key) heq).trans hkey)
      refine ⟨t, hold, rfl, ?_⟩
      rw [hothers _ hsame]
      rfl

/-- A change that counts no use is not booked. -/
theorem Replaces.books_quiet (hr : c.Replaces s s' c') (h : c.Consistent)
    (hcounts : c'.counts = c.counts) (huses : s'.uses = s.uses) : Books .quiet c c' :=
  hr.books h hcounts rfl rfl huses fun _ _ => rfl

/-! ### The operations -/

theorem acquire_books (h : c.Consistent) (key : K) :
    Books (if (c.acquire key).1.isSome then .hit key else .miss) c (c.acquire key).2 := by
  rcases acquire_cases h key with ⟨-, hmiss⟩ | ⟨s, -, rfl, hlease, hr, -⟩
  · rw [hmiss]
    exact ⟨rfl, rfl, fun s hs => .inr ⟨rfl, s, hs, rfl, rfl⟩⟩
  · rw [hlease, if_pos Option.isSome_some]
    refine hr.books h (acquire_counts hlease) rfl rfl ?_ fun other hne => decide_eq_false hne.symm
    rw [show Booking.uses s.entry.key (.hit s.entry.key) = true from decide_eq_true rfl]
    rfl

theorem publish_books (h : c.Consistent) {key : K} (hkey : key ∉ c.keys) (program : P)
    (compileTime : Duration) :
    Books (.published key compileTime) c (c.publish key program compileTime).2 := by
  have hp := publish_publishes h hkey program compileTime
  refine ⟨rfl, ?_, fun t ht => ?_⟩
  · rw [hp.size h]
    show c.size + 1 + c.counts.evictions + 0 = c.size + c.counts.evictions + 1
    omega
  · rcases List.mem_cons.1 (hp.perm.mem_iff.1 ht) with rfl | hold
    · exact .inl ⟨decide_eq_true rfl, rfl⟩
    · refine .inr ⟨decide_eq_false fun heq => hkey ?_, t, hold, rfl, rfl⟩
      exact heq ▸ key_mem_keys hold

theorem insert_books (h : c.Consistent) (key : K) (program : P) (compileTime : Duration) :
    Books (if c.contains key then .duplicate key else .published key compileTime) c
      (c.insert key program compileTime).2 := by
  by_cases hkey : key ∈ c.keys
  · rw [if_pos (h.contains_iff.2 hkey)]
    obtain ⟨s, hs, rfl⟩ := List.mem_map.1 hkey
    obtain ⟨-, hr, hcounts, -⟩ := insert_duplicate h hs program compileTime
    refine hr.books h hcounts rfl rfl ?_ fun other hne => decide_eq_false hne.symm
    rw [show Booking.uses s.entry.key (.duplicate s.entry.key) = true from decide_eq_true rfl]
    rfl
  · rw [if_neg fun hcontains => hkey (h.contains_iff.1 hcontains)]
    have hpublished := publish_books h hkey program compileTime
    have hinsert : c.insert key program compileTime = c.publishAndSweep key program compileTime := by
      unfold insert
      rw [h.position?_eq_none_iff.2 hkey]
    rw [hinsert]
    exact hpublished.evict (publish_publishes h hkey program compileTime).consistent

theorem clear_books (h : c.Consistent) : Books (.cleared c.clear.1) c c.clear.2 := by
  have hcounts := clear_counts c
  have hsize := clear_size h
  obtain ⟨gone, hretires⟩ := clear_retires h
  refine ⟨?_, ?_, fun t ht => .inr ⟨rfl, t, ?_, rfl, rfl⟩⟩
  · rw [hcounts]
    rfl
  · rw [hcounts]
    show c.clear.2.size + c.counts.evictions + c.clear.1 = c.size + c.counts.evictions + 0
    omega
  · exact hretires.perm.mem_iff.2 (List.mem_append_right gone ht)

theorem resize_books (h : c.Consistent) (capacity : Nat) :
    Books .quiet c (((c.resize capacity).toOption.map Prod.snd).getD c) := by
  cases hresize : c.resize capacity with
  | error e => exact Books.refl c
  | ok resized =>
    obtain ⟨-, rfl⟩ := resize_eq_ok hresize
    have hresized : Books .quiet c ({ c with capacity := capacity } : ProgramCache K P) :=
      ⟨rfl, rfl, fun s hs => .inr ⟨rfl, s, hs, rfl, rfl⟩⟩
    exact hresized.evict (h.congr rfl rfl)

/-! ### The whole history -/

/-- **The statistics of a cache are those of its history.** -/
structure Tallied (c : ProgramCache K P) (past : List (Booking K)) : Prop where
  hits : c.counts.hits = past.countP Booking.isHit
  misses : c.counts.misses = past.countP Booking.isMiss
  inserts : c.counts.inserts = past.countP Booking.isPublication
  compileTime : c.counts.compileTime.nanoseconds = (past.map Booking.compileTime).sum
  balance : c.size + c.counts.evictions + (past.map Booking.clearedEntries).sum =
    past.countP Booking.isPublication
  uses : ∀ s ∈ c.slots, s.uses = 1 + usesSince s.entry.key past

theorem usesSince_cons (key : K) (booking : Booking K) (past : List (Booking K)) :
    usesSince key (booking :: past) =
      if booking.publishes key then 0
      else usesSince key past + if booking.uses key then 1 else 0 := by
  unfold usesSince
  rw [List.takeWhile_cons]
  cases booking.publishes key with
  | true => rfl
  | false =>
    show (booking :: past.takeWhile fun booking => !booking.publishes key).countP _ = _
    rw [List.countP_cons]
    rfl

namespace Tallied

theorem empty (capacity : Nat) (policy : SweepPolicy) :
    (ProgramCache.empty capacity policy : ProgramCache K P).Tallied [] := by
  have hkeeps := empty_keeps (K := K) (P := P) capacity policy
  refine ⟨rfl, rfl, rfl, rfl, ?_, fun s hs => ?_⟩
  · rw [hkeeps.size_eq]
    rfl
  · rw [hkeeps.slots_eq] at hs
    exact absurd hs List.not_mem_nil

/-- **One more booking.** -/
theorem step (ht : c.Tallied past) (hb : Books booking c c') : c'.Tallied (booking :: past) := by
  have hbalance := hb.balance
  have hsum := ht.balance
  refine ⟨?_, ?_, ?_, ?_, ?_, fun t hmem => ?_⟩
  · rw [List.countP_cons, ← ht.hits, hb.counts]
    rfl
  · rw [List.countP_cons, ← ht.misses, hb.counts]
    rfl
  · rw [List.countP_cons, ← ht.inserts, hb.counts]
    rfl
  · rw [List.map_cons, List.sum_cons, ← ht.compileTime, Nat.add_comm, hb.counts]
    rfl
  · rw [List.map_cons, List.sum_cons, List.countP_cons]
    omega
  · rw [usesSince_cons]
    rcases hb.uses t hmem with ⟨hnew, huses⟩ | ⟨hold, s, hs, hkey, huses⟩
    · rw [if_pos hnew, huses]
    · rw [hold, if_neg Bool.false_ne_true, huses, ht.uses s hs, hkey, Nat.add_assoc]

end Tallied

end Counting

end ProgramCache

/-! ### Runs -/

namespace SharedCache

open ProgramCache

variable [DecidableEq K] {w : SharedCache K P} {past : List (Booking K)}

/-- **Every action agrees with its booking.** -/
theorem step_books (h : Sound w.cache w.holdings) (action : Action K P) :
    Books (w.booking action) w.cache (w.step action).cache := by
  have hc := h.consistent
  cases action with
  | acquire client key =>
    have hbooks := acquire_books hc key
    dsimp only [step, booking]
    cases hacquire : w.cache.acquire key with
    | mk lease c' =>
      rw [hacquire] at hbooks
      cases lease with
      | none => exact hbooks
      | some lease => exact hbooks
  | insert client key program compileTime => exact insert_books hc key program compileTime
  | release client lease =>
    dsimp only [step, booking]
    split
    · rename_i hmem
      obtain ⟨s, hs, rfl⟩ := h.cached lease (List.mem_map_of_mem hmem)
      exact (release_replaces hc hs).1.books_quiet hc (release_counts _ _) rfl
    · exact Books.refl _
  | lock client lease =>
    dsimp only [step, booking]
    split
    · rename_i hmem
      obtain ⟨s, hs, rfl⟩ := h.cached lease (List.mem_map_of_mem hmem)
      rcases tryLock_cases hc hs with ⟨-, hnone⟩ | ⟨-, c', hsome, hr, -⟩
      · rw [hnone]
        exact Books.refl _
      · rw [hsome]
        exact hr.books_quiet hc (tryLock_counts hsome) rfl
    · exact Books.refl _
  | unlock client lease change =>
    dsimp only [step, booking]
    split
    · rename_i hmem
      obtain ⟨s, hs, rfl⟩ := h.cached lease (List.mem_map_of_mem hmem)
      obtain ⟨i, -, hleased⟩ := leased?_of_mem hc hs
      rw [hleased]
      exact (unlock_replaces hc hs _).1.books_quiet hc (updateLeased_counts _ _ _) rfl
    · exact Books.refl _
  | evict => exact (Books.refl w.cache).evict hc
  | resize capacity => exact resize_books hc capacity
  | clear => exact clear_books hc

/-- **A run carries the books on.** -/
theorem run_tallied (h : Sound w.cache w.holdings) (ht : w.cache.Tallied past)
    (actions : List (Action K P)) :
    (w.run actions).cache.Tallied (w.history actions ++ past) := by
  induction actions generalizing w past with
  | nil => exact ht
  | cons action actions ih =>
    rw [history, List.append_assoc]
    exact ih (step_outcome h action).1 (ht.step (step_books h action))

/-- The busy entries are the keys on which somebody has a lease. -/
theorem busy_eq (h : Sound w.cache w.holdings) :
    w.cache.stats.busy = ((leasesOf w.holdings).map Lease.key).dedup.length := by
  have hbusy : ((w.cache.slots.filter fun s => 0 < s.refs).map fun s => s.entry.key).Perm
      ((leasesOf w.holdings).map Lease.key).dedup := by
    have hnodup : ((w.cache.slots.filter fun s => 0 < s.refs).map fun s => s.entry.key).Nodup :=
      (List.filter_sublist.map _).nodup h.consistent.keys_nodup
    refine (List.perm_ext_iff_of_nodup hnodup (List.nodup_dedup _)).2 fun key => ?_
    rw [List.mem_dedup]
    constructor
    · intro hmem
      obtain ⟨s, hs, rfl⟩ := List.mem_map.1 hmem
      obtain ⟨hslot, hpos⟩ := List.mem_filter.1 hs
      have hleased : 0 < (leasesOf w.holdings).count s.entry.lease :=
        h.refs s hslot ▸ of_decide_eq_true hpos
      exact List.mem_map.2 ⟨s.entry.lease, List.count_pos_iff.1 hleased, rfl⟩
    · intro hmem
      obtain ⟨lease, hlease, rfl⟩ := List.mem_map.1 hmem
      obtain ⟨s, hs, rfl⟩ := h.cached lease hlease
      refine List.mem_map.2 ⟨s, List.mem_filter.2 ⟨hs, decide_eq_true ?_⟩, rfl⟩
      rw [h.refs s hs]
      exact List.count_pos_iff.2 hlease
  rw [← hbusy.length_eq, List.length_map]
  rfl

/-- **The statistics of a cache add up.**  After any interleaving of the actions of any number of clients
on an empty cache:

* hits and misses together are the requests for a lease on what is there, the hits those that got one;
* every program that became an entry is still there, or was evicted, or was cleared, and only these
  programs are inserted and have their compile times added up, not the duplicates;
* an entry was used once by whoever compiled it, and once for each hit and each duplicate of its key
  since;
* the busy entries are as many as the keys with a lease outside;
* a sweep and a clearing give back by how much the number of entries drops.

Counts and times are taken without an upper bound. -/
theorem statistics_add_up (capacity : Nat) (policy : SweepPolicy) (actions : List (Action K P)) :
    let start : SharedCache K P := SharedCache.start capacity policy
    let w := start.run actions
    let past := start.history actions
    let stats := w.cache.stats
    (stats.counts.hits + stats.counts.misses = actions.countP Action.isAcquire ∧
      stats.counts.hits = past.countP Booking.isHit ∧
      stats.counts.misses = past.countP Booking.isMiss) ∧
    (stats.counts.inserts =
        stats.entries + stats.counts.evictions + (past.map Booking.clearedEntries).sum ∧
      stats.counts.inserts = past.countP Booking.isPublication ∧
      stats.entries = w.cache.keys.length ∧ w.cache.keys.Nodup) ∧
    stats.counts.compileTime.nanoseconds = (past.map Booking.compileTime).sum ∧
    (∀ key s, w.cache.slot? key = some s → s.uses = 1 + usesSince key past) ∧
    stats.busy = ((leasesOf w.holdings).map Lease.key).dedup.length ∧
    w.cache.evict.1 + w.cache.evict.2.size = w.cache.size ∧
    w.cache.clear.1 + w.cache.clear.2.size = w.cache.size := by
  intro start w past stats
  have hsound : Sound w.cache w.holdings := run_sound (Sound.empty capacity policy) actions
  have htallied : w.cache.Tallied past := by
    have hrun := run_tallied (w := start) (Sound.empty capacity policy)
      (Tallied.empty capacity policy) actions
    rwa [List.append_nil] at hrun
  have hc := hsound.consistent
  refine ⟨⟨?_, htallied.hits, htallied.misses⟩, ⟨?_, htallied.inserts, hc.size_eq, hc.keys_nodup⟩,
    htallied.compileTime, fun key s hslot => ?_, busy_eq hsound, evict_size hc, clear_size hc⟩
  · rw [← history_isHit_add_isMiss start actions]
    exact congrArg₂ (· + ·) htallied.hits htallied.misses
  · exact htallied.inserts.trans htallied.balance.symm
  · obtain ⟨hs, rfl⟩ := hc.slot?_eq_some_iff.1 hslot
    exact htallied.uses s hs

/-- Two hits and a duplicate, and an insertion whose sweep evicts. -/
example :
    let start : SharedCache Nat Nat := SharedCache.start 1 .skipBusy
    let actions : List (Action Nat Nat) :=
      [.insert 0 1 10 ⟨5⟩, .acquire 0 1, .insert 1 1 11 ⟨7⟩, .acquire 1 2, .release 0 ⟨0, 1⟩,
        .release 0 ⟨0, 1⟩, .release 1 ⟨0, 1⟩, .insert 0 2 20 ⟨9⟩, .acquire 1 2, .release 0 ⟨1, 2⟩]
    let w := start.run actions
    w.cache.stats = ⟨1, 1, 1, ⟨2, 1, 2, 1, ⟨14⟩⟩⟩ ∧ w.cache.slots.map Slot.uses = [2] ∧
      start.history actions =
        [.quiet, .hit 2, .published 2 ⟨9⟩, .quiet, .quiet, .quiet, .miss, .duplicate 1, .hit 1,
          .published 1 ⟨5⟩] := by
  decide +kernel

end SharedCache
end JsonFilter.Cache
