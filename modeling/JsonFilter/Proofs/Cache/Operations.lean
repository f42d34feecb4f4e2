import JsonFilter.Proofs.Cache.Consistency

/-!
# What the operations of a cache do to its slots

Whatever is done with a cache, its slots change in one of three ways.  A slot is replaced by another
one for the same entry (`Replaces`): it gains or loses a lease, or its program is locked or unlocked.
A new slot is added (`Publishes`).  Or idle slots leave (`Retires`).  This file says which operation
makes which change; what holds of all slots is then followed through three kinds of changes only.

* **`acquire_cases`**, **`insert_cases`** — a lease, or a miss, or a new entry.
* **`release_replaces`** — a lease given back is counted on its own entry.
* **`evict_retires`**, **`resize_cases`**, **`clear_retires`** — idle slots retire.
* **`performAll_consistent`** — index and recency list agree through any run.
-/

namespace JsonFilter.Cache

variable {K P : Type} {c c' : ProgramCache K P} {s s' : Slot K P} {gone : List (Slot K P)}

namespace ProgramCache

/-! ### The kinds of changes -/

/-- A slot is replaced by another one for the same entry. -/
structure Replaces (c : ProgramCache K P) (s s' : Slot K P) (c' : ProgramCache K P) : Prop where
  consistent : c'.Consistent
  perm : ∃ rest, c.slots.Perm (s :: rest) ∧ c'.slots.Perm (s' :: rest)
  lease : s'.entry.lease = s.entry.lease
  inserts : c'.counts.inserts = c.counts.inserts

/-- A new slot is added, with the next number. -/
structure Publishes (c : ProgramCache K P) (s : Slot K P) (c' : ProgramCache K P) : Prop where
  consistent : c'.Consistent
  perm : c'.slots.Perm (s :: c.slots)
  number : s.entry.number = c.counts.inserts
  inserts : c'.counts.inserts = c.counts.inserts + 1

/-- What lies elsewhere than in the slots does not matter for agreement. -/
theorem Consistent.congr (h : c.Consistent) (hrecency : c'.recency = c.recency)
    (hindex : c'.index = c.index) : c'.Consistent :=
  (Keeps.congr h hrecency hindex).consistent

theorem empty_consistent (capacity : Nat) (policy : SweepPolicy) :
    (empty capacity policy : ProgramCache K P).Consistent :=
  (empty_keeps capacity policy).consistent

theorem key_mem_keys (hs : s ∈ c.slots) : s.entry.key ∈ c.keys :=
  List.mem_map.2 ⟨s, hs, rfl⟩

/-- Two slots with one key are one slot. -/
theorem Consistent.eq_of_key_eq (h : c.Consistent) (hs : s ∈ c.slots) (hs' : s' ∈ c.slots)
    (hkey : s.entry.key = s'.entry.key) : s = s' := by
  obtain ⟨p, hp, rfl⟩ := List.mem_map.1 hs
  obtain ⟨q, hq, rfl⟩ := List.mem_map.1 hs'
  rw [Keeps.eq_of_key_eq h hp hq hkey]

theorem slots_congr (hrecency : c'.recency = c.recency) : c'.slots = c.slots := by
  unfold slots
  rw [hrecency]

namespace Replaces

theorem mem (h : c.Replaces s s' c') : s ∈ c.slots := by
  obtain ⟨rest, hperm, -⟩ := h.perm
  exact hperm.mem_iff.2 List.mem_cons_self

/-- A slot after the change was there before, or is the new one. -/
theorem eq_or_mem (h : c.Replaces s s' c') {t : Slot K P} (ht : t ∈ c'.slots) :
    t = s' ∨ t ∈ c.slots := by
  obtain ⟨rest, hperm, hperm'⟩ := h.perm
  rcases List.mem_cons.1 (hperm'.mem_iff.1 ht) with heq | hmem
  · exact .inl heq
  · exact .inr (hperm.mem_iff.2 (List.mem_cons_of_mem _ hmem))

/-- The entries do not change, apart from their programs and locks. -/
theorem map_perm {β : Type} (h : c.Replaces s s' c') (f : Slot K P → β) (hf : f s' = f s) :
    (c'.slots.map f).Perm (c.slots.map f) := by
  obtain ⟨rest, hperm, hperm'⟩ := h.perm
  have hnew := hperm'.map f
  rw [List.map_cons, hf] at hnew
  exact hnew.trans (hperm.map f).symm

/-- Only the slots and the number of insertions count. -/
theorem congr {c₁ : ProgramCache K P} (h : c.Replaces s s' c') (hrecency : c₁.recency = c'.recency)
    (hindex : c₁.index = c'.index) (hinserts : c₁.counts.inserts = c'.counts.inserts) :
    c.Replaces s s' c₁ := by
  refine ⟨h.consistent.congr hrecency hindex, ?_, h.lease, hinserts.trans h.inserts⟩
  rw [slots_congr hrecency]
  exact h.perm

end Replaces

/-! ### Leases -/

/-- The lease that is given on a slot is counted on it. -/
theorem leaseAt_replaces {xs ys : List (Nat × Slot K P)} {i : Nat}
    (h : c.Keeps (xs ++ (i, s) :: ys)) :
    (c.leaseAt i).1 = some s.entry.lease ∧ c.Replaces s s.use (c.leaseAt i).2 ∧
      (c.leaseAt i).2.counts = c.counts ∧ (c.leaseAt i).2.retired = c.retired := by
  obtain ⟨hlease, hkeeps⟩ := h.leaseAt
  have hframe : (c.leaseAt i).2.counts = c.counts ∧ (c.leaseAt i).2.retired = c.retired := by
    unfold leaseAt
    dsimp only
    split <;> exact ⟨rfl, rfl⟩
  refine ⟨hlease, ⟨hkeeps.consistent, ⟨(xs ++ ys).map Prod.snd, ?_, ?_⟩, rfl, ?_⟩, hframe⟩
  · rw [h.slots_eq]
    exact List.perm_middle.map Prod.snd
  · rw [hkeeps.slots_eq]
    exact List.Perm.refl _
  · rw [hframe.1]

/-- A slot that changes in its place is replaced. -/
theorem modifyAt_replaces {xs ys : List (Nat × Slot K P)} {i : Nat}
    (h : c.Keeps (xs ++ (i, s) :: ys)) (f : Slot K P → Slot K P)
    (hlease : (f s).entry.lease = s.entry.lease) :
    c.Replaces s (f s) { c with recency := c.recency.modify i f } := by
  have hkeeps := h.modifyAt f (congrArg Lease.key hlease)
  refine ⟨hkeeps.consistent, ⟨(xs ++ ys).map Prod.snd, ?_, ?_⟩, hlease, rfl⟩
  · rw [h.slots_eq]
    exact List.perm_middle.map Prod.snd
  · rw [hkeeps.slots_eq]
    exact List.perm_middle.map Prod.snd

/-! ### New and retired slots -/

theorem publish_publishes (h : c.Consistent) {key : K} (hkey : key ∉ c.keys) (program : P)
    (compileTime : Duration) :
    c.Publishes (Keeps.published c.counts.inserts key program compileTime)
      (c.publish key program compileTime).2 := by
  rw [Keeps.keys_eq h] at hkey
  obtain ⟨-, i, hkeeps⟩ := Keeps.publish h hkey program compileTime
  refine ⟨hkeeps.consistent, ?_, rfl, rfl⟩
  rw [hkeeps.slots_eq, Keeps.slots_eq h]
  exact List.Perm.refl _

/-- The programs of some slots. -/
def programsOf (gone : List (Slot K P)) : List P := gone.map fun s => s.entry.program

theorem retire_of_map_eq {entries : List (Entry K P)} (hgone : gone.map Slot.entry = entries) :
    c.retire entries = { c with retired := c.retired ++ programsOf gone } := by
  subst hgone
  unfold retire programsOf
  rw [List.map_map]
  rfl

/-- What holds of a removal holds after the removed programs have retired. -/
structure Retires (c : ProgramCache K P) (gone : List (Slot K P)) (c' : ProgramCache K P) : Prop where
  consistent : c'.Consistent
  perm : c.slots.Perm (gone ++ c'.slots)
  idle : ∀ s ∈ gone, s.refs = 0
  inserts : c'.counts.inserts = c.counts.inserts
  retired : c'.retired = c.retired ++ programsOf gone

theorem Sheds.retires (h : c.Sheds gone c') {entries : List (Entry K P)}
    (hgone : gone.map Slot.entry = entries) : c.Retires gone (c'.retire entries) := by
  rw [retire_of_map_eq hgone]
  refine ⟨h.consistent.congr rfl rfl, h.perm, h.idle, h.inserts, ?_⟩
  rw [← h.retired]

/-- At the idle positions there are no busy slots. -/
theorem Consistent.isBusyAt_idlePositions (h : c.Consistent) :
    ∀ i ∈ c.idlePositions, c.isBusyAt i = false := by
  intro i hi
  obtain ⟨⟨i, s⟩, hmem, rfl⟩ := List.mem_map.1 hi
  obtain ⟨hentry, hrefs⟩ := List.mem_filter.1 hmem
  unfold isBusyAt
  rw [h.arranges.get?_eq_some_iff.2 hentry]
  simpa using hrefs

variable [DecidableEq K]

/-! ### Acquiring and releasing -/

/-- The slot of a key that the index knows. -/
theorem Consistent.exists_slot (h : c.Consistent) {key : K} {i : Nat}
    (hi : c.position? key = some i) :
    ∃ xs s ys, c.Keeps (xs ++ (i, s) :: ys) ∧ s ∈ c.slots ∧ s.entry.key = key := by
  obtain ⟨xs, s, ys, hsplit, hkey⟩ := Keeps.split_of_position? h hi
  unfold Consistent at h
  rw [hsplit] at h
  refine ⟨xs, s, ys, h, ?_, hkey⟩
  rw [h.slots_eq]
  simp

/-- A slot is found under its key. -/
theorem Consistent.position?_of_mem (h : c.Consistent) (hs : s ∈ c.slots) :
    ∃ i, c.position? s.entry.key = some i ∧ c.recency.get? i = some s := by
  obtain ⟨⟨i, _⟩, hmem, rfl⟩ := List.mem_map.1 hs
  exact ⟨i, (Keeps.position?_eq_some_iff h).2 ⟨_, hmem, rfl⟩,
    h.arranges.get?_eq_some_iff.2 hmem⟩

theorem Consistent.position?_eq_none_iff (h : c.Consistent) {key : K} :
    c.position? key = none ↔ key ∉ c.keys := by
  rw [Keeps.position?_eq_none_iff h, Keeps.keys_eq h]

/-- **Acquiring** misses and only counts the miss, or leases the slot of the key. -/
theorem acquire_cases (h : c.Consistent) (key : K) :
    (key ∉ c.keys ∧ c.acquire key =
        (none, { c with counts := { c.counts with misses := c.counts.misses + 1 } })) ∨
      ∃ s ∈ c.slots, s.entry.key = key ∧ (c.acquire key).1 = some s.entry.lease ∧
        c.Replaces s s.use (c.acquire key).2 ∧ (c.acquire key).2.retired = c.retired := by
  cases hi : c.position? key with
  | none =>
    refine .inl ⟨h.position?_eq_none_iff.1 hi, ?_⟩
    unfold acquire
    rw [hi]
  | some i =>
    obtain ⟨xs, s, ys, hkeeps, hs, hkey⟩ := h.exists_slot hi
    obtain ⟨hlease, hreplaces, hcounts, hretired⟩ := leaseAt_replaces hkeeps
    refine .inr ⟨s, hs, hkey, ?_⟩
    unfold acquire
    rw [hi]
    dsimp only
    cases hleaseAt : c.leaseAt i with
    | mk lease c' =>
      rw [hleaseAt] at hlease hreplaces hretired
      subst hlease
      exact ⟨rfl, hreplaces.congr rfl rfl rfl, hretired⟩

/-- **Giving back** a lease on a slot takes it off the count of that slot. -/
theorem release_replaces (h : c.Consistent) (hs : s ∈ c.slots) :
    c.Replaces s { s with refs := s.refs - 1 } (c.release s.entry.lease) ∧
      (c.release s.entry.lease).retired = c.retired := by
  obtain ⟨i, hi, hget⟩ := h.position?_of_mem hs
  obtain ⟨xs, ys, hsplit⟩ := h.arranges.split hget
  unfold Consistent at h
  rw [hsplit] at h
  have hrelease : c.release s.entry.lease = { c with
      recency := c.recency.modify i fun t =>
        if t.entry.number = s.entry.number then { t with refs := t.refs - 1 } else t } := by
    unfold release
    rw [show s.entry.lease.key = s.entry.key from rfl, hi]
    rfl
  rw [hrelease]
  refine ⟨?_, rfl⟩
  have hreplaces := modifyAt_replaces h
    (fun t => if t.entry.number = s.entry.number then { t with refs := t.refs - 1 } else t)
    (by rw [if_pos rfl])
  simpa only [if_pos] using hreplaces

/-! ### Locks -/

/-- The entry that a lease is for is found through the lease. -/
theorem leased?_of_mem (h : c.Consistent) (hs : s ∈ c.slots) :
    ∃ i, c.recency.get? i = some s ∧ c.leased? s.entry.lease = some (i, s.entry) := by
  obtain ⟨i, hi, hget⟩ := h.position?_of_mem hs
  refine ⟨i, hget, ?_⟩
  unfold leased?
  rw [show s.entry.lease.key = s.entry.key from rfl, hi]
  simp [hget, Entry.lease]

/-- What is found through a lease is an entry for which it is. -/
theorem exists_slot_of_leased? (h : c.Consistent) {lease : Lease K} {p : Nat × Entry K P}
    (hp : c.leased? lease = some p) : ∃ s ∈ c.slots, s.entry = p.2 ∧ s.entry.lease = lease := by
  unfold leased? at hp
  obtain ⟨i, hi, hp⟩ := Option.bind_eq_some_iff.1 hp
  obtain ⟨s, hget, hp⟩ := Option.bind_eq_some_iff.1 hp
  obtain ⟨t, hmem, hkey⟩ := (Keeps.position?_eq_some_iff h).1 hi
  have hgett := h.arranges.get?_eq_some_iff.2 hmem
  rw [hget] at hgett
  cases hgett
  split at hp
  · rename_i hnumber
    cases hp
    refine ⟨s, List.mem_map_of_mem hmem, rfl, ?_⟩
    unfold Entry.lease
    rw [hnumber, hkey]
  · cases hp

/-- **A change of a leased entry** replaces its slot. -/
theorem updateLeased_replaces (h : c.Consistent) (hs : s ∈ c.slots)
    (f : Entry K P → Entry K P) (hf : (f s.entry).lease = s.entry.lease) :
    c.Replaces s { s with entry := f s.entry } (c.updateLeased s.entry.lease f) ∧
      (c.updateLeased s.entry.lease f).retired = c.retired := by
  obtain ⟨i, hget, hleased⟩ := leased?_of_mem h hs
  obtain ⟨xs, ys, hsplit⟩ := h.arranges.split hget
  unfold Consistent at h
  rw [hsplit] at h
  unfold updateLeased
  rw [hleased]
  exact ⟨modifyAt_replaces h (fun t => { t with entry := f t.entry }) hf, rfl⟩

/-- **Taking a lock** gives the program and locks the entry, if it was not locked. -/
theorem tryLock_cases (h : c.Consistent) (hs : s ∈ c.slots) :
    (s.entry.locked = true ∧ c.tryLock s.entry.lease = none) ∨
      s.entry.locked = false ∧ ∃ c', c.tryLock s.entry.lease = some (s.entry.program, c') ∧
        c.Replaces s { s with entry := { s.entry with locked := true } } c' ∧
        c'.retired = c.retired := by
  obtain ⟨i, -, hleased⟩ := leased?_of_mem h hs
  obtain ⟨hreplaces, hretired⟩ := updateLeased_replaces h hs (fun e => { e with locked := true }) rfl
  unfold tryLock
  rw [hleased]
  cases hlocked : s.entry.locked with
  | true => exact .inl ⟨rfl, by simp [hlocked]⟩
  | false => exact .inr ⟨rfl, _, by simp [hlocked], hreplaces, hretired⟩

/-- **Giving a lock back** leaves the program as it has become. -/
theorem unlock_replaces (h : c.Consistent) (hs : s ∈ c.slots) (program : P) :
    c.Replaces s { s with entry := { s.entry with program := program, locked := false } }
        (c.unlock s.entry.lease program) ∧
      (c.unlock s.entry.lease program).retired = c.retired :=
  updateLeased_replaces h hs (fun e => { e with program := program, locked := false }) rfl

/-! ### Removals -/

/-- **A sweep retires idle slots.** -/
theorem evict_retires (h : c.Consistent) : ∃ gone, c.Retires gone c.evict.2 := by
  obtain ⟨gone, hgone, hsheds⟩ := sweepFrom_sheds h c.size c.recency.oldest
  exact ⟨gone, hsheds.retires hgone⟩

/-- **A clearing retires idle slots.** -/
theorem clear_retires (h : c.Consistent) : ∃ gone, c.Retires gone c.clear.2 := by
  obtain ⟨gone, hgone, hsheds⟩ := removeAll_sheds h c.idlePositions h.isBusyAt_idlePositions
  exact ⟨gone, hsheds.retires hgone⟩

/-- **A change of the capacity** is refused or retires idle slots. -/
theorem resize_cases (h : c.Consistent) (capacity : Nat) :
    (∃ e, c.resize capacity = .error e) ∨
      ∃ gone c', c.resize capacity = .ok (capacity, c') ∧ c.Retires gone c' := by
  unfold resize
  split
  · exact .inl ⟨_, rfl⟩
  · have hc : Consistent { c with capacity := capacity } := h.congr rfl rfl
    obtain ⟨gone, hretires⟩ := evict_retires hc
    exact .inr ⟨gone, _, rfl, hretires.consistent, hretires.perm, hretires.idle,
      hretires.inserts, hretires.retired⟩

/-! ### Insertions -/

/-- **Inserting** leases the slot of a key that is there and retires the program, or publishes the
program and sweeps. -/
theorem insert_cases (h : c.Consistent) (key : K) (program : P) (compileTime : Duration) :
    (∃ s ∈ c.slots, s.entry.key = key ∧ (c.insert key program compileTime).1 = s.entry.lease ∧
        c.Replaces s s.use (c.insert key program compileTime).2 ∧
        (c.insert key program compileTime).2.retired = c.retired ++ [program]) ∨
      key ∉ c.keys ∧ (c.insert key program compileTime).1 = ⟨c.counts.inserts, key⟩ ∧
        ∃ c' gone, c.Publishes (Keeps.published c.counts.inserts key program compileTime) c' ∧
          c'.retired = c.retired ∧ c'.Retires gone (c.insert key program compileTime).2 := by
  cases hi : c.position? key with
  | none =>
    have hkey := h.position?_eq_none_iff.1 hi
    have hpublishes := publish_publishes h hkey program compileTime
    obtain ⟨gone, hretires⟩ := evict_retires hpublishes.consistent
    unfold insert
    rw [hi]
    exact .inr ⟨hkey, rfl, _, gone, hpublishes, rfl, hretires⟩
  | some i =>
    obtain ⟨xs, s, ys, hkeeps, hs, hkey⟩ := h.exists_slot hi
    obtain ⟨hlease, hreplaces, -, hretired⟩ := leaseAt_replaces hkeeps
    refine .inl ⟨s, hs, hkey, ?_⟩
    unfold insert
    rw [hi]
    dsimp only
    cases hleaseAt : c.leaseAt i with
    | mk lease c' =>
      rw [hleaseAt] at hlease hreplaces hretired
      subst hlease
      refine ⟨rfl, hreplaces.congr rfl rfl rfl, ?_⟩
      show c'.retired ++ [program] = _
      rw [hretired]

end ProgramCache

/-! ### Runs -/

/-- What can be done with a cache. -/
inductive Operation (K P : Type) where
  | acquire (key : K)
  | insert (key : K) (program : P) (compileTime : Duration)
  | release (lease : Lease K)
  | tryLock (lease : Lease K)
  | unlock (lease : Lease K) (program : P)
  | evict
  | resize (capacity : Nat)
  | clear

namespace ProgramCache

variable [DecidableEq K]

/-- The cache after an operation. -/
def perform (c : ProgramCache K P) : Operation K P → ProgramCache K P
  | .acquire key => (c.acquire key).2
  | .insert key program compileTime => (c.insert key program compileTime).2
  | .release lease => c.release lease
  | .tryLock lease => ((c.tryLock lease).map Prod.snd).getD c
  | .unlock lease program => c.unlock lease program
  | .evict => c.evict.2
  | .resize capacity => ((c.resize capacity).toOption.map Prod.snd).getD c
  | .clear => c.clear.2

/-- The cache after a run of operations. -/
def performAll (c : ProgramCache K P) (operations : List (Operation K P)) : ProgramCache K P :=
  operations.foldl perform c

/-- A lease that nobody holds may be given back without harm to the agreement. -/
theorem release_consistent (h : c.Consistent) (lease : Lease K) : (c.release lease).Consistent := by
  unfold release
  split
  · exact h
  · rename_i i hi
    obtain ⟨xs, s, ys, hkeeps, -, -⟩ := h.exists_slot hi
    refine (hkeeps.modifyAt _ ?_).consistent
    split <;> rfl

theorem updateLeased_consistent (h : c.Consistent) (lease : Lease K) (f : Entry K P → Entry K P)
    (hf : ∀ e, (f e).lease = e.lease) : (c.updateLeased lease f).Consistent := by
  cases hp : c.leased? lease with
  | none =>
    unfold updateLeased
    rw [hp]
    exact h
  | some p =>
    obtain ⟨s, hs, -, rfl⟩ := exists_slot_of_leased? h hp
    exact (updateLeased_replaces h hs f (hf s.entry)).1.consistent

/-- **Every operation preserves the agreement of index and recency list.** -/
theorem perform_consistent (h : c.Consistent) (operation : Operation K P) :
    (c.perform operation).Consistent := by
  cases operation with
  | acquire key =>
    rcases acquire_cases h key with ⟨-, hmiss⟩ | ⟨s, -, -, -, hreplaces, -⟩
    · show (c.acquire key).2.Consistent
      rw [hmiss]
      exact h.congr rfl rfl
    · exact hreplaces.consistent
  | insert key program compileTime =>
    rcases insert_cases h key program compileTime with
      ⟨s, -, -, -, hreplaces, -⟩ | ⟨-, -, _, gone, -, -, hretires⟩
    · exact hreplaces.consistent
    · exact hretires.consistent
  | release lease => exact release_consistent h lease
  | tryLock lease =>
    show (((c.tryLock lease).map Prod.snd).getD c).Consistent
    unfold tryLock
    split
    · exact h
    · split
      · exact h
      · exact updateLeased_consistent h lease (fun e => { e with locked := true }) fun _ => rfl
  | unlock lease program =>
    exact updateLeased_consistent h lease
      (fun e => { e with program := program, locked := false }) fun _ => rfl
  | evict =>
    obtain ⟨gone, hretires⟩ := evict_retires h
    exact hretires.consistent
  | resize capacity =>
    show (((c.resize capacity).toOption.map Prod.snd).getD c).Consistent
    rcases resize_cases h capacity with ⟨e, he⟩ | ⟨gone, c', hc', hretires⟩
    · rw [he]
      exact h
    · rw [hc']
      exact hretires.consistent
  | clear =>
    obtain ⟨gone, hretires⟩ := clear_retires h
    exact hretires.consistent

/-- **Index and recency list agree through any run.** -/
theorem performAll_consistent (h : c.Consistent) (operations : List (Operation K P)) :
    (c.performAll operations).Consistent := by
  induction operations generalizing c with
  | nil => exact h
  | cons operation operations ih => exact ih (perform_consistent h operation)

/-- **The key map and the recency list of a cache in use.**  After any run of operations on an empty
cache the keys of the list are distinct, the index has each of them once and no other, and it leads to
the live place of the arena whose entry has the key.  A walk from the newest slot on ends after as many
slots as the list says it has.  So an indexed key can always be leased: neither a rebuilding of its
slot nor a hit without a lease ever happens. -/
theorem keyMap_agrees_with_recency (capacity : Nat) (policy : SweepPolicy)
    (operations : List (Operation K P)) :
    let c := (empty capacity policy : ProgramCache K P).performAll operations
    c.keys.Nodup ∧ (c.index.map Prod.fst).Nodup ∧
      (∀ key, key ∈ c.index.map Prod.fst ↔ key ∈ c.keys) ∧
      (∀ p ∈ c.index, ∃ s, (p.2, s) ∈ c.recency.entries ∧ c.recency.get? p.2 = some s ∧
        s.entry.key = p.1 ∧ p.2 < c.recency.nodes.size ∧ p.2 ∉ c.recency.free) ∧
      (∀ steps, c.size ≤ steps → (c.recency.walk steps c.recency.newest).length = c.size) ∧
      (∀ key i, c.position? key = some i →
        ∃ lease, (c.leaseAt i).1 = some lease ∧ (c.acquire key).1 = some lease ∧
          ∀ program compileTime, (c.insert key program compileTime).1 = lease) := by
  intro c
  have h : c.Consistent := performAll_consistent (empty_consistent capacity policy) operations
  have hkeys : (c.index.map Prod.fst).Perm c.keys := by
    rw [Keeps.keys_eq h]
    exact Keeps.index_keys_perm h
  have hnodup : c.keys.Nodup := by
    rw [Keeps.keys_eq h]
    exact h.keys_nodup
  refine ⟨hnodup, hkeys.nodup_iff.2 hnodup, fun key => hkeys.mem_iff, ?_, ?_, ?_⟩
  · intro p hp
    obtain ⟨⟨i, s⟩, hmem, rfl⟩ := List.mem_map.1 (h.index_perm.mem_iff.1 hp)
    have hi : i ∈ RecencyList.positions c.recency.entries := List.mem_map_of_mem hmem
    refine ⟨s, hmem, h.arranges.get?_eq_some_iff.2 hmem, rfl, h.arranges.lt_size hi, ?_⟩
    exact fun hfree => ((h.arranges.mem_free i).1 hfree).2 hi
  · intro steps hsteps
    rw [Keeps.size_eq h] at hsteps ⊢
    rw [h.arranges.walk_eq steps hsteps]
  · intro key i hi
    obtain ⟨xs, s, ys, hkeeps, hs, hkey⟩ := h.exists_slot hi
    obtain ⟨hlease, -⟩ := leaseAt_replaces hkeeps
    refine ⟨s.entry.lease, hlease, ?_, ?_⟩
    · rcases acquire_cases h key with ⟨habsent, -⟩ | ⟨t, ht, htkey, hacquire, -⟩
      · exact absurd (hkey ▸ key_mem_keys hs) habsent
      · rw [hacquire, h.eq_of_key_eq ht hs (htkey.trans hkey.symm)]
    · intro program compileTime
      rcases insert_cases h key program compileTime with
        ⟨t, ht, htkey, hinsert, -⟩ | ⟨habsent, -⟩
      · rw [hinsert, h.eq_of_key_eq ht hs (htkey.trans hkey.symm)]
      · exact absurd (hkey ▸ key_mem_keys hs) habsent

end ProgramCache
end JsonFilter.Cache
