import JsonFilter.Proofs.Cache.Operations
import Mathlib.Data.List.Count

/-!
# Leases keep entries cached

Many clients share one cache.  Each of them acquires and inserts, drives the programs on which it has
leases, and gives leases back whenever it likes; the cache only counts.  This file shows that the
counts are right in every order of events, so that an entry with a lease outside never leaves.

## The clients

A `Holding` is a lease in the hands of a client, with the mark whether the client drives the program
under it.  `SharedCache` is a cache with all holdings, and an `Action` is one atomic step of a client;
what a client is not entitled to do changes nothing.  An interleaving of any number of clients is a
list of actions.

## The invariant

`Sound c holdings` ties the leases outside to the slots inside: a slot counts the leases on its entry,
the entry of every lease is cached, numbers tell entries apart, and an entry is locked just if one of
the holdings drives it.  It is carried through the three kinds of changes (`Sound.replace`,
`Sound.publish`, `Sound.retire`), then through an action (`SharedCache.step_outcome`) and a run
(`SharedCache.run_sound`).

* **`leases_count_and_protect`** — the counts are exact, giving a lease back always finds its entry
  with something to count down, and a driven program is never evicted.
-/

namespace JsonFilter.Cache

open ProgramCache

variable {K P : Type}

/-! ### Clients -/

/-- A lease in the hands of a client. -/
structure Holding (K : Type) where
  client : Nat
  lease : Lease K
  /-- Whether the client has locked the entry and drives its program. -/
  driving : Bool
deriving DecidableEq, Repr

/-- A cache with the leases that its clients hold. -/
structure SharedCache (K P : Type) where
  cache : ProgramCache K P
  holdings : List (Holding K)

/-- An atomic step of a client. -/
inductive Action (K P : Type) where
  | acquire (client : Nat) (key : K)
  | insert (client : Nat) (key : K) (program : P) (compileTime : Duration)
  | release (client : Nat) (lease : Lease K)
  | lock (client : Nat) (lease : Lease K)
  /-- The program is left as it has become while it was driven. -/
  | unlock (client : Nat) (lease : Lease K) (change : P → P)
  | evict
  | resize (capacity : Nat)
  | clear

/-- All leases that are outside. -/
def leasesOf (holdings : List (Holding K)) : List (Lease K) := holdings.map Holding.lease

/-- The leases whose entries are driven. -/
def drivenOf (holdings : List (Holding K)) : List (Lease K) :=
  leasesOf (holdings.filter Holding.driving)

/-- The program that an action hands to the cache. -/
def Action.program? : Action K P → Option P
  | .insert _ _ program _ => some program
  | _ => none

namespace SharedCache

/-- An empty cache that nobody uses yet. -/
def start (capacity : Nat) (policy : SweepPolicy) : SharedCache K P :=
  ⟨ProgramCache.empty capacity policy, []⟩

variable [DecidableEq K]

/-- The shared cache after an action.  A lease that is being driven under is not given back, and a
lock that is taken is waited for. -/
def step (w : SharedCache K P) : Action K P → SharedCache K P
  | .acquire client key =>
    match w.cache.acquire key with
    | (some lease, cache) => ⟨cache, ⟨client, lease, false⟩ :: w.holdings⟩
    | (none, cache) => { w with cache := cache }
  | .insert client key program compileTime =>
    let (lease, cache) := w.cache.insert key program compileTime
    ⟨cache, ⟨client, lease, false⟩ :: w.holdings⟩
  | .release client lease =>
    if ⟨client, lease, false⟩ ∈ w.holdings then
      ⟨w.cache.release lease, w.holdings.erase ⟨client, lease, false⟩⟩
    else w
  | .lock client lease =>
    if ⟨client, lease, false⟩ ∈ w.holdings then
      match w.cache.tryLock lease with
      | some (_, cache) => ⟨cache, ⟨client, lease, true⟩ :: w.holdings.erase ⟨client, lease, false⟩⟩
      | none => w
    else w
  | .unlock client lease change =>
    if ⟨client, lease, true⟩ ∈ w.holdings then
      match w.cache.leased? lease with
      | some (_, e) =>
        ⟨w.cache.unlock lease (change e.program),
          ⟨client, lease, false⟩ :: w.holdings.erase ⟨client, lease, true⟩⟩
      | none => w
    else w
  | .evict => { w with cache := w.cache.perform .evict }
  | .resize capacity => { w with cache := w.cache.perform (.resize capacity) }
  | .clear => { w with cache := w.cache.perform .clear }

/-- The shared cache after a run. -/
def run (w : SharedCache K P) (actions : List (Action K P)) : SharedCache K P :=
  actions.foldl step w

end SharedCache

/-! ### The invariant -/

/-- **The leases outside and the slots inside agree.** -/
structure Sound [DecidableEq K] (c : ProgramCache K P) (holdings : List (Holding K)) : Prop where
  consistent : c.Consistent
  numbers_nodup : (c.slots.map fun s => s.entry.number).Nodup
  number_lt : ∀ s ∈ c.slots, s.entry.number < c.counts.inserts
  refs : ∀ s ∈ c.slots, s.refs = (leasesOf holdings).count s.entry.lease
  cached : ∀ lease ∈ leasesOf holdings, ∃ s ∈ c.slots, s.entry.lease = lease
  locked : ∀ s ∈ c.slots, s.entry.locked = true ↔ s.entry.lease ∈ drivenOf holdings
  driven_nodup : (drivenOf holdings).Nodup

@[simp]
theorem leasesOf_cons (h : Holding K) (holdings : List (Holding K)) :
    leasesOf (h :: holdings) = h.lease :: leasesOf holdings := rfl

@[simp]
theorem drivenOf_cons_true (client : Nat) (lease : Lease K) (holdings : List (Holding K)) :
    drivenOf (⟨client, lease, true⟩ :: holdings) = lease :: drivenOf holdings := rfl

/-- What is driven is leased. -/
theorem mem_leasesOf_of_mem_drivenOf {holdings : List (Holding K)} {lease : Lease K}
    (h : lease ∈ drivenOf holdings) : lease ∈ leasesOf holdings :=
  (List.filter_sublist.map Holding.lease).mem h

namespace Sound

variable [DecidableEq K] {c c' : ProgramCache K P} {s s' : Slot K P}
  {holdings holdings' : List (Holding K)} {client : Nat} {lease : Lease K}

/-- Nobody uses an empty cache. -/
theorem empty (capacity : Nat) (policy : SweepPolicy) :
    Sound (ProgramCache.empty capacity policy : ProgramCache K P) [] := by
  have hslots : (ProgramCache.empty capacity policy : ProgramCache K P).slots = [] :=
    (empty_keeps capacity policy).slots_eq
  refine ⟨empty_consistent capacity policy, ?_, ?_, ?_, ?_, ?_, List.nodup_nil⟩
  all_goals simp [hslots, leasesOf]

/-- The order in which the holdings are listed does not matter. -/
theorem perm (h : Sound c holdings) (hperm : holdings.Perm holdings') : Sound c holdings' := by
  have hleases : (leasesOf holdings).Perm (leasesOf holdings') := hperm.map Holding.lease
  have hdriven : (drivenOf holdings).Perm (drivenOf holdings') :=
    (hperm.filter Holding.driving).map Holding.lease
  refine ⟨h.consistent, h.numbers_nodup, h.number_lt, ?_, ?_, ?_, hdriven.nodup_iff.1 h.driven_nodup⟩
  · intro s hs
    rw [h.refs s hs, hleases.count_eq]
  · exact fun lease hlease => h.cached lease (hleases.mem_iff.2 hlease)
  · intro s hs
    rw [h.locked s hs, hdriven.mem_iff]

/-- Counting something other than insertions does not matter. -/
theorem congr (h : Sound c holdings) (hrecency : c'.recency = c.recency)
    (hindex : c'.index = c.index) (hinserts : c'.counts.inserts = c.counts.inserts) :
    Sound c' holdings := by
  have hslots : c'.slots = c.slots := slots_congr hrecency
  refine ⟨h.consistent.congr hrecency hindex, ?_, ?_, ?_, ?_, ?_, h.driven_nodup⟩
  · rw [hslots]; exact h.numbers_nodup
  · rw [hslots, hinserts]; exact h.number_lt
  · rw [hslots]; exact h.refs
  · rw [hslots]; exact h.cached
  · rw [hslots]; exact h.locked

/-- **A slot is replaced** by one that counts the new holdings; on all other entries the holdings
stay the same. -/
theorem replace (h : Sound c holdings) (hr : c.Replaces s s' c')
    (hrefs : s'.refs = (leasesOf holdings').count s.entry.lease)
    (hlocked : s'.entry.locked = true ↔ s.entry.lease ∈ drivenOf holdings')
    (hothers : ∀ lease ≠ s.entry.lease,
      (leasesOf holdings').count lease = (leasesOf holdings).count lease ∧
        (lease ∈ drivenOf holdings' ↔ lease ∈ drivenOf holdings))
    (hnodup : (drivenOf holdings').Nodup) : Sound c' holdings' := by
  have hnumbers : (c'.slots.map fun s => s.entry.number).Perm (c.slots.map fun s => s.entry.number) :=
    hr.map_perm _ (congrArg Lease.number hr.lease)
  have hnew : s' ∈ c'.slots := by
    obtain ⟨rest, -, hperm⟩ := hr.perm
    exact hperm.mem_iff.2 List.mem_cons_self
  -- a slot after the change is the new one, or an old one with another lease
  have hcases : ∀ t ∈ c'.slots, t = s' ∨ t ∈ c.slots ∧ t.entry.lease ≠ s.entry.lease := by
    intro t ht
    rcases hr.eq_or_mem ht with heq | hmem
    · exact .inl heq
    · by_cases hlease : t.entry.lease = s.entry.lease
      · left
        exact List.inj_on_of_nodup_map (hnumbers.nodup_iff.2 h.numbers_nodup) ht hnew
          (congrArg Lease.number (hlease.trans hr.lease.symm))
      · exact .inr ⟨hmem, hlease⟩
  refine ⟨hr.consistent, hnumbers.nodup_iff.2 h.numbers_nodup, ?_, ?_, ?_, ?_, hnodup⟩
  · intro t ht
    have hmem : t.entry.number ∈ c.slots.map fun s => s.entry.number :=
      hnumbers.mem_iff.1 (List.mem_map_of_mem ht)
    obtain ⟨u, hu, hnumber⟩ := List.mem_map.1 hmem
    rw [hr.inserts, ← hnumber]
    exact h.number_lt u hu
  · intro t ht
    rcases hcases t ht with rfl | ⟨hmem, hlease⟩
    · rw [hrefs, hr.lease]
    · rw [h.refs t hmem, (hothers _ hlease).1]
  · intro lease hlease
    by_cases heq : lease = s.entry.lease
    · exact ⟨s', hnew, hr.lease.trans heq.symm⟩
    · have hmem : lease ∈ leasesOf holdings := by
        rw [← List.count_pos_iff, ← (hothers lease heq).1]
        exact List.count_pos_iff.2 hlease
      obtain ⟨t, ht, hlease⟩ := h.cached lease hmem
      obtain ⟨rest, hperm, hperm'⟩ := hr.perm
      refine ⟨t, hperm'.mem_iff.2 (List.mem_cons_of_mem _ ?_), hlease⟩
      refine (List.mem_cons.1 (hperm.mem_iff.1 ht)).resolve_left ?_
      rintro rfl
      exact heq hlease.symm
  · intro t ht
    rcases hcases t ht with rfl | ⟨hmem, hlease⟩
    · rw [hlocked, hr.lease]
    · rw [h.locked t hmem, (hothers _ hlease).2]

/-- The number of the next entry is on no lease yet. -/
theorem number_ne_inserts (h : Sound c holdings) (hlease : lease ∈ leasesOf holdings) :
    lease.number ≠ c.counts.inserts := by
  obtain ⟨s, hs, rfl⟩ := h.cached lease hlease
  exact Nat.ne_of_lt (h.number_lt s hs)

/-- **A new slot** comes with its first lease. -/
theorem publish (h : Sound c holdings) {key : K} {program : P} {compileTime : Duration}
    (hp : c.Publishes (Keeps.published c.counts.inserts key program compileTime) c') :
    Sound c' (⟨client, ⟨c.counts.inserts, key⟩, false⟩ :: holdings) := by
  have hcases : ∀ t ∈ c'.slots,
      t = Keeps.published c.counts.inserts key program compileTime ∨ t ∈ c.slots := fun t ht =>
    List.mem_cons.1 (hp.perm.mem_iff.1 ht)
  have hfresh : (⟨c.counts.inserts, key⟩ : Lease K) ∉ leasesOf holdings := fun hmem =>
    h.number_ne_inserts hmem rfl
  have hold : ∀ t ∈ c.slots, t.entry.lease ≠ ⟨c.counts.inserts, key⟩ := fun t ht heq =>
    Nat.ne_of_lt (h.number_lt t ht) (congrArg Lease.number heq)
  refine ⟨hp.consistent, ?_, ?_, ?_, ?_, ?_, h.driven_nodup⟩
  · refine (hp.perm.map _).nodup_iff.2 (List.nodup_cons.2 ⟨?_, h.numbers_nodup⟩)
    intro hmem
    obtain ⟨t, ht, hnumber⟩ := List.mem_map.1 hmem
    exact Nat.ne_of_lt (h.number_lt t ht) hnumber
  · intro t ht
    rw [hp.inserts]
    rcases hcases t ht with rfl | hmem
    · exact Nat.lt_succ_self _
    · exact Nat.lt_succ_of_lt (h.number_lt t hmem)
  · intro t ht
    rcases hcases t ht with rfl | hmem
    · show 1 = List.count (⟨c.counts.inserts, key⟩ : Lease K) (_ :: leasesOf holdings)
      rw [List.count_cons_self, List.count_eq_zero.2 hfresh]
    · rw [leasesOf_cons, List.count_cons_of_ne (Ne.symm (hold t hmem)), h.refs t hmem]
  · intro lease hlease
    rcases List.mem_cons.1 hlease with rfl | hmem
    · exact ⟨_, hp.perm.mem_iff.2 List.mem_cons_self, rfl⟩
    · obtain ⟨t, ht, hlease⟩ := h.cached lease hmem
      exact ⟨t, hp.perm.mem_iff.2 (List.mem_cons_of_mem _ ht), hlease⟩
  · intro t ht
    rcases hcases t ht with rfl | hmem
    · constructor
      · intro hlocked
        cases hlocked
      · intro hmem
        have hdriven : (⟨c.counts.inserts, key⟩ : Lease K) ∈ drivenOf holdings := hmem
        exact absurd (mem_leasesOf_of_mem_drivenOf hdriven) hfresh
    · exact h.locked t hmem

/-- **Idle slots leave,** and no lease notices. -/
theorem retire (h : Sound c holdings) {gone : List (Slot K P)} (hr : c.Retires gone c') :
    Sound c' holdings := by
  have hmem : ∀ t ∈ c'.slots, t ∈ c.slots := fun t ht =>
    hr.perm.mem_iff.2 (List.mem_append_right _ ht)
  refine ⟨hr.consistent, ?_, ?_, fun t ht => h.refs t (hmem t ht), ?_,
    fun t ht => h.locked t (hmem t ht), h.driven_nodup⟩
  · have hnodup := (hr.perm.map fun s => s.entry.number).nodup_iff.1 h.numbers_nodup
    rw [List.map_append] at hnodup
    exact (List.nodup_append.1 hnodup).2.1
  · intro t ht
    rw [hr.inserts]
    exact h.number_lt t (hmem t ht)
  · intro lease hlease
    obtain ⟨t, ht, rfl⟩ := h.cached lease hlease
    refine ⟨t, (List.mem_append.1 (hr.perm.mem_iff.1 ht)).resolve_left fun hgone => ?_, rfl⟩
    -- what left had no leases
    have hzero := hr.idle t hgone
    rw [h.refs t ht] at hzero
    exact List.count_eq_zero.1 hzero hlease

/-- Where nobody holds a lease, no slot has a lease or a lock. -/
theorem at_rest (h : Sound c []) (hs : s ∈ c.slots) : s.refs = 0 ∧ s.entry.locked = false := by
  refine ⟨h.refs s hs, Bool.eq_false_iff.2 fun hlocked => ?_⟩
  exact absurd ((h.locked s hs).1 hlocked) List.not_mem_nil

/-! ### The actions of a client -/

/-- Another lease on a slot. -/
theorem use (h : Sound c holdings) (hr : c.Replaces s s.use c') :
    Sound c' (⟨client, s.entry.lease, false⟩ :: holdings) := by
  refine h.replace hr ?_ (h.locked s hr.mem) (fun lease hne => ⟨?_, Iff.rfl⟩) h.driven_nodup
  · rw [leasesOf_cons, List.count_cons_self, ← h.refs s hr.mem]
    rfl
  · rw [leasesOf_cons, List.count_cons_of_ne (Ne.symm hne)]

/-- **A lease given back** is counted down on its own entry. -/
theorem release (h : Sound c (⟨client, lease, false⟩ :: holdings)) :
    Sound (c.release lease) holdings := by
  obtain ⟨s, hs, rfl⟩ := h.cached lease List.mem_cons_self
  obtain ⟨hr, -⟩ := release_replaces h.consistent hs
  have hrefs := h.refs s hs
  rw [leasesOf_cons, List.count_cons_self] at hrefs
  refine h.replace hr ?_ (h.locked s hs) (fun lease hne => ⟨?_, Iff.rfl⟩) h.driven_nodup
  · show s.refs - 1 = _
    rw [hrefs, Nat.add_sub_cancel]
  · rw [leasesOf_cons, List.count_cons_of_ne (Ne.symm hne)]

/-- **A lock** is taken under a lease, if nobody drives the program. -/
theorem lock (h : Sound c (⟨client, lease, false⟩ :: holdings)) :
    c.tryLock lease = none ∧ lease ∈ drivenOf holdings ∨
      ∃ s ∈ c.slots, s.entry.lease = lease ∧ ∃ c', c.tryLock lease = some (s.entry.program, c') ∧
        c.Replaces s { s with entry := { s.entry with locked := true } } c' ∧
        c'.retired = c.retired ∧ Sound c' (⟨client, lease, true⟩ :: holdings) := by
  obtain ⟨s, hs, rfl⟩ := h.cached lease List.mem_cons_self
  have hiff : s.entry.locked = true ↔ s.entry.lease ∈ drivenOf holdings := h.locked s hs
  rcases tryLock_cases h.consistent hs with ⟨hlocked, htry⟩ | ⟨hfree, c', htry, hr, hretired⟩
  · exact .inl ⟨htry, hiff.1 hlocked⟩
  · refine .inr ⟨s, hs, rfl, c', htry, hr, hretired, ?_⟩
    have hidle : s.entry.lease ∉ drivenOf holdings := by
      rw [← hiff, hfree]
      exact Bool.false_ne_true
    refine h.replace hr (h.refs s hs) ?_ (fun lease hne => ⟨rfl, ?_⟩) ?_
    · simp
    · rw [drivenOf_cons_true, List.mem_cons]
      exact or_iff_right hne
    · exact List.nodup_cons.2 ⟨hidle, h.driven_nodup⟩

/-- **A lock given back** leaves the lease. -/
theorem unlock (h : Sound c (⟨client, lease, true⟩ :: holdings)) :
    ∃ s ∈ c.slots, s.entry.lease = lease ∧ (∃ i, c.leased? lease = some (i, s.entry)) ∧
      ∀ program, c.Replaces s
          { s with entry := { s.entry with program := program, locked := false } }
          (c.unlock lease program) ∧
        (c.unlock lease program).retired = c.retired ∧
        Sound (c.unlock lease program) (⟨client, lease, false⟩ :: holdings) := by
  obtain ⟨s, hs, rfl⟩ := h.cached lease List.mem_cons_self
  obtain ⟨i, -, hleased⟩ := leased?_of_mem h.consistent hs
  obtain ⟨hfresh, hnodup⟩ := List.nodup_cons.1 h.driven_nodup
  refine ⟨s, hs, rfl, ⟨i, hleased⟩, fun program => ?_⟩
  obtain ⟨hr, hretired⟩ := unlock_replaces h.consistent hs program
  refine ⟨hr, hretired, h.replace hr (h.refs s hs) ?_ (fun lease hne => ⟨rfl, ?_⟩) hnodup⟩
  · constructor
    · intro hlocked
      cases hlocked
    · exact fun hmem => absurd hmem hfresh
  · rw [drivenOf_cons_true, List.mem_cons]
    exact (or_iff_right hne).symm

end Sound

/-! ### Runs -/

namespace SharedCache

variable [DecidableEq K] {w : SharedCache K P}

/-- **What an action can do** to the programs of a cache. -/
inductive Outcome (c : ProgramCache K P) : Action K P → ProgramCache K P → Prop
  /-- Nothing, apart from the statistics. -/
  | same {action c'} (hinsert : action.program? = none) (hslots : c'.slots = c.slots)
      (hretired : c'.retired = c.retired) : Outcome c action c'
  /-- A slot counts another number of leases or has another lock. -/
  | counted {action c' s s'} (hinsert : action.program? = none) (hr : c.Replaces s s' c')
      (hprogram : s'.entry.program = s.entry.program) (hretired : c'.retired = c.retired) :
      Outcome c action c'
  /-- A program has become another one while it was driven. -/
  | driven {client lease change c' s s'} (hr : c.Replaces s s' c')
      (hprogram : s'.entry.program = change s.entry.program) (hretired : c'.retired = c.retired) :
      Outcome c (.unlock client lease change) c'
  /-- The key was there; the program that came too late retires at once. -/
  | duplicate {client key program compileTime c' s} (hkey : key ∈ c.keys) (hr : c.Replaces s s.use c')
      (hretired : c'.retired = c.retired ++ [program]) :
      Outcome c (.insert client key program compileTime) c'
  /-- The program becomes an entry, and idle slots make room for it. -/
  | published {client key program compileTime c₁ c' gone} (hkey : key ∉ c.keys)
      (hp : c.Publishes (Keeps.published c.counts.inserts key program compileTime) c₁)
      (hretired : c₁.retired = c.retired) (hr : c₁.Retires gone c') :
      Outcome c (.insert client key program compileTime) c'
  /-- Idle slots leave. -/
  | removed {action c' gone} (hinsert : action.program? = none) (hr : c.Retires gone c') :
      Outcome c action c'

/-- **Every action preserves the invariant,** and does one of the things that an action can do. -/
theorem step_outcome (h : Sound w.cache w.holdings) (action : Action K P) :
    Sound (w.step action).cache (w.step action).holdings ∧
      Outcome w.cache action (w.step action).cache := by
  have htaken : ∀ {holding : Holding K}, holding ∈ w.holdings →
      Sound w.cache (holding :: w.holdings.erase holding) := fun hmem =>
    h.perm (List.perm_cons_erase hmem)
  cases action with
  | acquire client key =>
    dsimp only [step]
    rcases acquire_cases h.consistent key with ⟨-, hmiss⟩ | ⟨s, -, -, hlease, hr, hretired⟩
    · rw [hmiss]
      exact ⟨h.congr rfl rfl rfl, .same rfl rfl rfl⟩
    · cases hacquire : w.cache.acquire key with
      | mk lease c' =>
        rw [hacquire] at hlease hr hretired
        subst hlease
        exact ⟨h.use hr, .counted rfl hr rfl hretired⟩
  | insert client key program compileTime =>
    dsimp only [step]
    rcases insert_cases h.consistent key program compileTime with
      ⟨s, hs, hkey, hlease, hr, hretired⟩ | ⟨hkey, hlease, c', gone, hp, hretired, hr⟩
    · rw [hlease]
      exact ⟨h.use hr, .duplicate (hkey ▸ key_mem_keys hs) hr hretired⟩
    · rw [hlease]
      exact ⟨(h.publish hp).retire hr, .published hkey hp hretired hr⟩
  | release client lease =>
    dsimp only [step]
    split
    · rename_i hmem
      obtain ⟨s, hs, rfl⟩ := h.cached lease (List.mem_map_of_mem hmem)
      obtain ⟨hr, hretired⟩ := release_replaces h.consistent hs
      exact ⟨(htaken hmem).release, .counted rfl hr rfl hretired⟩
    · exact ⟨h, .same rfl rfl rfl⟩
  | lock client lease =>
    dsimp only [step]
    split
    · rename_i hmem
      rcases (htaken hmem).lock with ⟨hnone, -⟩ | ⟨s, -, -, c', hsome, hr, hretired, hsound⟩
      · rw [hnone]
        exact ⟨h, .same rfl rfl rfl⟩
      · rw [hsome]
        exact ⟨hsound, .counted rfl hr rfl hretired⟩
    · exact ⟨h, .same rfl rfl rfl⟩
  | unlock client lease change =>
    dsimp only [step]
    split
    · rename_i hmem
      obtain ⟨s, -, -, ⟨i, hleased⟩, hunlock⟩ := (htaken hmem).unlock
      obtain ⟨hr, hretired, hsound⟩ := hunlock (change s.entry.program)
      rw [hleased]
      exact ⟨hsound, .driven hr rfl hretired⟩
    · exact ⟨h, .same rfl rfl rfl⟩
  | evict =>
    obtain ⟨gone, hr⟩ := evict_retires h.consistent
    exact ⟨h.retire hr, .removed rfl hr⟩
  | resize capacity =>
    dsimp only [step, perform]
    rcases resize_cases h.consistent capacity with ⟨e, he⟩ | ⟨gone, c', hc', hr⟩
    · rw [he]
      exact ⟨h, .same rfl rfl rfl⟩
    · rw [hc']
      exact ⟨h.retire hr, .removed rfl hr⟩
  | clear =>
    obtain ⟨gone, hr⟩ := clear_retires h.consistent
    exact ⟨h.retire hr, .removed rfl hr⟩

/-- **Every run preserves the invariant.** -/
theorem run_sound (h : Sound w.cache w.holdings) (actions : List (Action K P)) :
    Sound (w.run actions).cache (w.run actions).holdings := by
  induction actions generalizing w with
  | nil => exact h
  | cons action actions ih => exact ih (step_outcome h action).1

/-- A client that drives a program keeps its lease through every action, its own ones included. -/
theorem lease_of_driving {holding : Holding K} (hmem : holding ∈ w.holdings)
    (hdriving : holding.driving = true) (action : Action K P) :
    holding.lease ∈ leasesOf (w.step action).holdings := by
  have hidle : ∀ {other : Holding K}, other.driving = false → holding ∈ w.holdings.erase other := by
    intro other hother
    refine (List.mem_erase_of_ne ?_).2 hmem
    rintro rfl
    rw [hdriving] at hother
    cases hother
  have hlease : holding.lease ∈ leasesOf w.holdings := List.mem_map_of_mem hmem
  cases action with
  | acquire client key =>
    dsimp only [step]
    split
    · exact List.mem_cons_of_mem _ hlease
    · exact hlease
  | insert client key program compileTime => exact List.mem_cons_of_mem _ hlease
  | release client lease =>
    dsimp only [step]
    split
    · exact List.mem_map_of_mem (hidle rfl)
    · exact hlease
  | lock client lease =>
    dsimp only [step]
    split
    · split
      · exact List.mem_cons_of_mem _ (List.mem_map_of_mem (hidle rfl))
      · exact hlease
    · exact hlease
  | unlock client lease change =>
    dsimp only [step]
    split
    · split
      · by_cases heq : holding = ⟨client, lease, true⟩
        · subst heq
          exact List.mem_cons_self
        · exact List.mem_cons_of_mem _ (List.mem_map_of_mem ((List.mem_erase_of_ne heq).2 hmem))
      · exact hlease
    · exact hlease
  | evict => exact hlease
  | resize capacity => exact hlease
  | clear => exact hlease

/-- What an action does does not depend on the leases of others, unless it does nothing. -/
theorem step_append (w : SharedCache K P)
    (others : List (Holding K)) (action : Action K P) :
    w.step action = w ∨
      (⟨w.cache, w.holdings ++ others⟩ : SharedCache K P).step action =
        ⟨(w.step action).cache, (w.step action).holdings ++ others⟩ := by
  cases action with
  | acquire client key =>
    refine .inr ?_
    dsimp only [step]
    cases w.cache.acquire key with
    | mk lease? c => cases lease? <;> rfl
  | insert client key program compileTime => exact .inr rfl
  | release client lease =>
    dsimp only [step]
    by_cases hmem : ⟨client, lease, false⟩ ∈ w.holdings
    · rw [if_pos hmem, if_pos (List.mem_append_left others hmem), List.erase_append_left _ hmem]
      exact .inr rfl
    · rw [if_neg hmem]
      exact .inl rfl
  | lock client lease =>
    dsimp only [step]
    by_cases hmem : ⟨client, lease, false⟩ ∈ w.holdings
    · rw [if_pos hmem, if_pos (List.mem_append_left others hmem), List.erase_append_left _ hmem]
      cases w.cache.tryLock lease with
      | none => exact .inl rfl
      | some locked => exact .inr rfl
    · rw [if_neg hmem]
      exact .inl rfl
  | unlock client lease change =>
    dsimp only [step]
    by_cases hmem : ⟨client, lease, true⟩ ∈ w.holdings
    · rw [if_pos hmem, if_pos (List.mem_append_left others hmem), List.erase_append_left _ hmem]
      cases w.cache.leased? lease with
      | none => exact .inl rfl
      | some found => exact .inr rfl
    · rw [if_neg hmem]
      exact .inl rfl
  | evict => exact .inr rfl
  | resize capacity => exact .inr rfl
  | clear => exact .inr rfl

/-- **Leases are counted exactly and protect their entries.**  After any interleaving of the actions of
any number of clients on an empty cache: every slot counts the leases that are outside on its entry, and
no two entries have one number; the entry of every lease is found under its own key, is the very entry
that was leased, and counts at least this lease, so that giving the lease back always counts down; and
whatever happens next, an entry whose program is being driven stays in the cache. -/
theorem leases_count_and_protect (capacity : Nat) (policy : SweepPolicy)
    (actions : List (Action K P)) :
    let w := (start capacity policy : SharedCache K P).run actions
    (∀ s ∈ w.cache.slots, s.refs = (leasesOf w.holdings).count s.entry.lease) ∧
      (w.cache.slots.map fun s => s.entry.number).Nodup ∧
      (∀ holding ∈ w.holdings, ∃ i s, w.cache.position? holding.lease.key = some i ∧
        w.cache.recency.get? i = some s ∧ s ∈ w.cache.slots ∧ s.entry.lease = holding.lease ∧
        0 < s.refs ∧ (holding.driving = true → s.entry.locked = true)) ∧
      (∀ holding ∈ w.holdings, holding.driving = true → ∀ action,
        ∃ s ∈ (w.step action).cache.slots, s.entry.lease = holding.lease) := by
  intro w
  have h : Sound w.cache w.holdings := run_sound (Sound.empty capacity policy) actions
  refine ⟨h.refs, h.numbers_nodup, ?_, ?_⟩
  · intro holding hmem
    have hlease : holding.lease ∈ leasesOf w.holdings := List.mem_map_of_mem hmem
    obtain ⟨s, hs, heq⟩ := h.cached holding.lease hlease
    obtain ⟨i, hi, hget⟩ := h.consistent.position?_of_mem hs
    have hkey : s.entry.key = holding.lease.key := congrArg Lease.key heq
    rw [hkey] at hi
    refine ⟨i, s, hi, hget, hs, heq, ?_, fun hdriving => ?_⟩
    · rw [h.refs s hs, heq]
      exact List.count_pos_iff.2 hlease
    · rw [h.locked s hs, heq]
      exact List.mem_map_of_mem (List.mem_filter.2 ⟨hmem, hdriving⟩)
  · intro holding hmem hdriving action
    exact (step_outcome h action).1.cached _ (lease_of_driving hmem hdriving action)

end SharedCache
end JsonFilter.Cache
