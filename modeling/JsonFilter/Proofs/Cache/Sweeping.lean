import JsonFilter.Proofs.Cache.Leases

/-!
# What a sweep leaves, and in which order

`Retires` says that the slots that a sweep removes were idle.  This file says which ones they are, and
what the operations of a cache do to the order of the keys.

## Sweeps

A sweep goes from the oldest slot towards the newer ones.  `chosen` is what it takes out of a plain list
of slots, the oldest first, when so many of them are too many, and `spared` is what it leaves.

* **`Keeps.sweepFrom`** — a sweep takes out the slots that are chosen, and the cache keeps just those
  that are spared.
* **`Keeps.evict_of_idle`** — where only some of the newest slots may be busy, a sweep brings the cache
  back to its capacity.

## The order of the keys

Locks and leases taken and given back leave the keys where they are, apart from the key that is leased,
which comes first (`acquire_keys`, `insert_keys`).  Only a resizing changes the capacity
(`SharedCache.step_capacity`).
-/

namespace JsonFilter.Cache

open RecencyList (Arranges positions back)

/-- Nobody has a lease on the entry. -/
def Slot.isIdle {K P : Type} (s : Slot K P) : Bool := s.refs == 0

namespace ProgramCache

variable {K P : Type} {c : ProgramCache K P} {xs ys : List (Nat × Slot K P)} {i : Nat} {s : Slot K P}

/-! ### Sweeps -/

/-- **What a sweep leaves** of some slots, the oldest first, when `excess` of them are too many. -/
def spared (policy : SweepPolicy) : Nat → List (Nat × Slot K P) → List (Nat × Slot K P)
  | _, [] => []
  | excess, p :: xs =>
    if excess = 0 then p :: xs
    else if 0 < p.2.refs then
      if policy = .stopAtBusy then p :: xs else p :: spared policy excess xs
    else spared policy (excess - 1) xs

/-- **What a sweep takes out** of some slots, the oldest first, when `excess` of them are too many: the
first idle ones, of those before any busy one or of all. -/
def chosen (policy : SweepPolicy) (excess : Nat) (slots : List (Slot K P)) : List (Slot K P) :=
  match policy with
  | .stopAtBusy => (slots.takeWhile Slot.isIdle).take excess
  | .skipBusy => (slots.filter Slot.isIdle).take excess

/-- Where nothing is too much, all is left. -/
theorem spared_zero (policy : SweepPolicy) (xs : List (Nat × Slot K P)) :
    spared policy 0 xs = xs := by
  cases xs <;> rfl

/-- Where nothing is too much, nothing is taken. -/
theorem chosen_zero (policy : SweepPolicy) (slots : List (Slot K P)) : chosen policy 0 slots = [] := by
  cases policy <;> rfl

theorem chosen_nil (policy : SweepPolicy) (excess : Nat) :
    chosen policy excess ([] : List (Slot K P)) = [] := by
  cases policy <;> exact List.take_nil

/-- An idle slot is taken. -/
theorem chosen_of_idle (policy : SweepPolicy) (excess : Nat) (hidle : s.refs = 0)
    (slots : List (Slot K P)) :
    chosen policy (excess + 1) (s :: slots) = s :: chosen policy excess slots := by
  have hs : s.isIdle = true := beq_iff_eq.2 hidle
  cases policy with
  | stopAtBusy => simp [chosen, hs]
  | skipBusy => simp [chosen, hs]

/-- A busy slot ends the sweep, or it is passed over. -/
theorem chosen_of_busy (policy : SweepPolicy) (excess : Nat) (hbusy : 0 < s.refs)
    (slots : List (Slot K P)) :
    chosen policy excess (s :: slots) =
      match policy with
      | .stopAtBusy => []
      | .skipBusy => chosen .skipBusy excess slots := by
  have hs : s.isIdle = false := beq_false_of_ne (Nat.ne_of_gt hbusy)
  cases policy with
  | stopAtBusy => simp [chosen, hs]
  | skipBusy => simp [chosen, hs]

/-- Idle slots leave, as many as are too many. -/
theorem spared_of_idle (policy : SweepPolicy) {excess : Nat} (hidle : ∀ p ∈ xs, p.2.refs = 0)
    (hexcess : excess ≤ xs.length) : spared policy excess (xs ++ ys) = xs.drop excess ++ ys := by
  induction xs generalizing excess with
  | nil =>
    obtain rfl : excess = 0 := Nat.le_zero.1 hexcess
    exact spared_zero policy ys
  | cons p xs ih =>
    obtain ⟨hp, hrest⟩ := List.forall_mem_cons.1 hidle
    cases excess with
    | zero => exact spared_zero policy _
    | succ excess =>
      have hfree : ¬0 < p.2.refs := by
        rw [hp]
        exact Nat.lt_irrefl 0
      rw [List.cons_append, spared, if_neg (Nat.succ_ne_zero excess), if_neg hfree,
        Nat.add_sub_cancel, ih hrest (Nat.le_of_succ_le_succ hexcess), List.drop_succ_cons]

namespace Keeps

/-- Whether a slot is busy is written on it. -/
theorem isBusyAt_eq (h : c.Keeps (xs ++ (i, s) :: ys)) : c.isBusyAt i = decide (0 < s.refs) := by
  have hget : c.recency.get? i = some s := h.arranges.get?_eq_some_iff.2 (by simp)
  unfold isBusyAt
  rw [hget]

/-- The slot before a slot is the next one that a sweep comes to. -/
theorem newer?_eq (h : c.Keeps (xs ++ (i, s) :: ys)) : c.recency.newer? i = back xs := by
  obtain ⟨-, hnode, -⟩ := (RecencyList.linked_append _ none none).1 h.arranges.linked
  unfold RecencyList.newer?
  rw [hnode]
  exact Option.or_none

variable [DecidableEq K]

/-- A removal changes neither the policy nor the capacity. -/
theorem removeAt_frame (c : ProgramCache K P) (i : Nat) :
    (c.removeAt i).2.policy = c.policy ∧ (c.removeAt i).2.capacity = c.capacity := by
  unfold ProgramCache.removeAt
  split <;> exact ⟨rfl, rfl⟩

/-- **A sweep of the slots before some others** takes out those that are chosen and leaves the rest. -/
theorem sweepFrom (h : c.Keeps (xs ++ ys)) {steps : Nat} (hsteps : xs.length ≤ steps) :
    (sweepFrom steps (back xs) c).1 =
        (chosen c.policy (c.size - c.capacity) (xs.map Prod.snd).reverse).map Slot.entry ∧
      (sweepFrom steps (back xs) c).2.Keeps
        ((spared c.policy (c.size - c.capacity) xs.reverse).reverse ++ ys) := by
  induction xs using List.reverseRecOn generalizing c steps ys with
  | nil =>
    have hdone : ProgramCache.sweepFrom steps none c = ([], c) := by cases steps <;> rfl
    show (ProgramCache.sweepFrom steps none c).1 = (chosen _ _ []).map _ ∧
      (ProgramCache.sweepFrom steps none c).2.Keeps _
    rw [hdone, chosen_nil]
    exact ⟨rfl, h⟩
  | append_singleton xs p ih =>
    obtain ⟨i, s⟩ := p
    have hkeeps : c.Keeps (xs ++ (i, s) :: ys) := by
      rw [List.append_cons]
      exact h
    obtain ⟨steps, rfl⟩ : ∃ n, steps = n + 1 := by
      cases steps with
      | zero => simp at hsteps
      | succ n => exact ⟨n, rfl⟩
    have hrest : xs.length ≤ steps := by simpa using hsteps
    have hback : back (xs ++ [(i, s)]) = some i := by simp [back]
    have hslots : ((xs ++ [(i, s)]).map Prod.snd).reverse = s :: (xs.map Prod.snd).reverse := by simp
    rw [hback, hslots, List.reverse_append, List.reverse_singleton, List.singleton_append, spared]
    dsimp only [ProgramCache.sweepFrom]
    rw [hkeeps.newer?_eq, hkeeps.isBusyAt_eq]
    by_cases hfull : c.size ≤ c.capacity
    · rw [if_pos hfull, if_pos (Nat.sub_eq_zero_of_le hfull), Nat.sub_eq_zero_of_le hfull, chosen_zero]
      exact ⟨rfl, by simpa using hkeeps⟩
    · rw [if_neg hfull, if_neg (Nat.sub_ne_zero_of_lt (Nat.lt_of_not_le hfull))]
      by_cases hbusy : 0 < s.refs
      · rw [if_pos (decide_eq_true hbusy), if_pos hbusy, chosen_of_busy _ _ hbusy]
        cases hpolicy : c.policy with
        | stopAtBusy => exact ⟨rfl, by simpa using hkeeps⟩
        | skipBusy =>
          have hskipped := ih hkeeps hrest
          rw [hpolicy] at hskipped
          exact ⟨hskipped.1, by simpa using hskipped.2⟩
      · rw [if_neg (by simpa using hbusy), if_neg hbusy]
        obtain ⟨hentry, hremoved⟩ := hkeeps.removeAt
        obtain ⟨hpolicy, hcapacity⟩ := removeAt_frame c i
        cases hremove : c.removeAt i with
        | mk entry c' =>
          rw [hremove] at hentry hremoved hpolicy hcapacity
          subst hentry
          dsimp only at hremoved hpolicy hcapacity ⊢
          have hcounted : Keeps
              { c' with counts := { c'.counts with evictions := c'.counts.evictions + 1 } }
              (xs ++ ys) := hremoved.congr rfl rfl
          have hsize : c.size = c'.size + 1 := by
            rw [hkeeps.size_eq, hremoved.size_eq, List.length_append, List.length_append,
              List.length_cons]
            omega
          have hexcess : c.size - c.capacity = c'.size - c'.capacity + 1 := by omega
          obtain ⟨htaken, hleft⟩ := ih hcounted hrest
          rw [hexcess, ← hpolicy, chosen_of_idle _ _ (Nat.eq_zero_of_not_pos hbusy),
            Nat.add_sub_cancel]
          exact ⟨congrArg (s.entry :: ·) htaken, hleft⟩

/-- **A sweep of all slots.** -/
theorem sweep (h : c.Keeps xs) :
    c.sweep.1 = (chosen c.policy (c.size - c.capacity) (xs.map Prod.snd).reverse).map Slot.entry ∧
      c.sweep.2.Keeps (spared c.policy (c.size - c.capacity) xs.reverse).reverse := by
  have hall : c.Keeps (xs ++ []) := by
    rw [List.append_nil]
    exact h
  have hswept := hall.sweepFrom (Nat.le_of_eq h.size_eq.symm)
  rw [List.append_nil] at hswept
  unfold ProgramCache.sweep
  rw [h.arranges.oldest]
  exact hswept

/-- **What a sweep keeps,** the removed entries retired. -/
theorem evict (h : c.Keeps xs) :
    c.evict.2.Keeps (spared c.policy (c.size - c.capacity) xs.reverse).reverse :=
  h.sweep.2.congr rfl rfl

/-- **A sweep where all but some of the newest slots are idle** brings the cache back to its
capacity. -/
theorem evict_of_idle (h : c.Keeps (xs ++ ys)) (hidle : ∀ p ∈ ys, p.2.refs = 0)
    (hroom : xs.length ≤ c.capacity) :
    c.evict.2.Keeps (xs ++ ys.take (c.capacity - xs.length)) := by
  have hsize : c.size = xs.length + ys.length := by rw [h.size_eq, List.length_append]
  have hspared : spared c.policy (c.size - c.capacity) (ys.reverse ++ xs.reverse) =
      ys.reverse.drop (c.size - c.capacity) ++ xs.reverse := by
    refine spared_of_idle c.policy (fun p hp => hidle p (List.mem_reverse.1 hp)) ?_
    rw [List.length_reverse]
    omega
  have htake : ys.take (ys.length - (c.size - c.capacity)) = ys.take (c.capacity - xs.length) := by
    rw [List.take_eq_take_iff]
    omega
  have hswept := h.evict
  rwa [List.reverse_append, hspared, List.reverse_append, List.reverse_reverse, List.drop_reverse,
    List.reverse_reverse, htake] at hswept

end Keeps

/-! ### The order of the keys -/

theorem keysOf_append (xs ys : List (Nat × Slot K P)) : keysOf (xs ++ ys) = keysOf xs ++ keysOf ys :=
  List.map_append

theorem Consistent.size_eq (h : c.Consistent) : c.size = c.keys.length := by
  rw [Keeps.size_eq h, Keeps.keys_eq h, keysOf, List.length_map]

theorem Consistent.keys_nodup (h : c.Consistent) : c.keys.Nodup := by
  rw [Keeps.keys_eq h]
  exact Keeps.keys_nodup h

/-- A slot that changes in its place leaves the keys where they are. -/
theorem Keeps.modifyAt_keys (h : c.Keeps (xs ++ (i, s) :: ys)) (f : Slot K P → Slot K P)
    (hkey : (f s).entry.key = s.entry.key) :
    ({ c with recency := c.recency.modify i f } : ProgramCache K P).keys = c.keys := by
  rw [(h.modifyAt f hkey).keys_eq, h.keys_eq, keysOf_append, keysOf_append]
  show _ ++ (f s).entry.key :: _ = _
  rw [hkey]
  rfl

/-- **The leased key comes first**, and the others stay as they are. -/
theorem Keeps.leaseAt_keys [DecidableEq K] (h : c.Keeps (xs ++ (i, s) :: ys)) :
    (c.leaseAt i).2.keys = s.entry.key :: c.keys.erase s.entry.key := by
  have hnodup := h.keys_nodup
  rw [keysOf_append, List.nodup_append'] at hnodup
  have hfresh : s.entry.key ∉ keysOf xs := fun hmem => hnodup.2.2 hmem List.mem_cons_self
  rw [h.leaseAt.2.keys_eq, h.keys_eq, keysOf_append, List.erase_append_right _ hfresh]
  show s.use.entry.key :: keysOf (xs ++ ys) = _ :: (_ ++ (s.entry.key :: keysOf ys).erase _)
  rw [List.erase_cons_head, keysOf_append]
  rfl

section Keys

variable [DecidableEq K]

/-- A key is there just if it is one of the keys. -/
theorem Consistent.contains_iff (h : c.Consistent) {key : K} :
    c.contains key = true ↔ key ∈ c.keys := by
  rw [contains, Option.isSome_iff_ne_none, ne_eq, h.position?_eq_none_iff, not_not]

/-- Acquiring a key that is there. -/
theorem acquire_keys (h : c.Consistent) {key : K} (hkey : key ∈ c.keys) :
    (c.acquire key).2.keys = key :: c.keys.erase key := by
  cases hi : c.position? key with
  | none => exact absurd hkey (h.position?_eq_none_iff.1 hi)
  | some i =>
    obtain ⟨xs, s, ys, hkeeps, -, rfl⟩ := h.exists_slot hi
    have hkeys := hkeeps.leaseAt_keys
    have hlease := hkeeps.leaseAt.1
    unfold acquire
    rw [hi]
    dsimp only
    cases hleaseAt : c.leaseAt i with
    | mk lease c' =>
      rw [hleaseAt] at hkeys hlease
      subst hlease
      exact hkeys

/-- Inserting a key that is not there, where all entries are idle: the oldest ones make room. -/
theorem insert_keys (h : c.Consistent) {key : K} (hkey : key ∉ c.keys) (program : P)
    (compileTime : Duration) (hidle : ∀ s ∈ c.slots, s.refs = 0) (hcapacity : 0 < c.capacity) :
    (c.insert key program compileTime).2.keys = key :: c.keys.take (c.capacity - 1) := by
  have hnone : c.position? key = none := h.position?_eq_none_iff.2 hkey
  have hslots := Keeps.slots_eq h
  have hkeys := Keeps.keys_eq h
  rw [hslots] at hidle
  rw [hkeys] at hkey ⊢
  obtain ⟨-, i, hpublished⟩ := Keeps.publish h hkey program compileTime
  have hsplit : (c.publish key program compileTime).2.Keeps
      ([(i, Keeps.published c.counts.inserts key program compileTime)] ++ c.recency.entries) :=
    hpublished
  have hevicted := hsplit.evict_of_idle (fun p hp => hidle p.2 (List.mem_map_of_mem hp)) hcapacity
  unfold insert
  rw [hnone]
  show (c.publish key program compileTime).2.evict.2.keys = _
  rw [hevicted.keys_eq, keysOf_append]
  show key :: keysOf (List.take (c.capacity - 1) _) = _
  rw [keysOf, List.map_take]
  rfl

/-- A sweep where all entries are idle. -/
theorem evict_keys (h : c.Consistent) (hidle : ∀ s ∈ c.slots, s.refs = 0) :
    c.evict.2.keys = c.keys.take c.capacity := by
  rw [Keeps.slots_eq h] at hidle
  have hsplit : c.Keeps ([] ++ c.recency.entries) := h
  have hevicted := hsplit.evict_of_idle (fun p hp => hidle p.2 (List.mem_map_of_mem hp))
    (Nat.zero_le _)
  rw [hevicted.keys_eq, Keeps.keys_eq h]
  show keysOf (List.take c.capacity _) = _
  rw [keysOf, List.map_take]
  rfl

theorem release_keys (h : c.Consistent) (lease : Lease K) : (c.release lease).keys = c.keys := by
  unfold release
  split
  · rfl
  · rename_i i hi
    obtain ⟨xs, s, ys, hkeeps, -, -⟩ := h.exists_slot hi
    refine hkeeps.modifyAt_keys _ ?_
    split <;> rfl

theorem updateLeased_keys (h : c.Consistent) (lease : Lease K) (f : Entry K P → Entry K P)
    (hf : ∀ e, (f e).key = e.key) : (c.updateLeased lease f).keys = c.keys := by
  unfold updateLeased
  split
  · rfl
  · rename_i i e hleased
    unfold leased? at hleased
    obtain ⟨j, hj, hleased⟩ := Option.bind_eq_some_iff.1 hleased
    obtain ⟨t, hget, hleased⟩ := Option.bind_eq_some_iff.1 hleased
    split at hleased
    · cases hleased
      obtain ⟨xs, ys, hsplit⟩ := h.arranges.split hget
      have hkeeps : c.Keeps (xs ++ (i, t) :: ys) := hsplit ▸ h
      exact hkeeps.modifyAt_keys _ (hf t.entry)
    · cases hleased

theorem tryLock_keys (h : c.Consistent) {lease : Lease K} {program : P} {c' : ProgramCache K P}
    (hlock : c.tryLock lease = some (program, c')) : c'.keys = c.keys := by
  unfold tryLock at hlock
  split at hlock
  · cases hlock
  · split at hlock
    · cases hlock
    · cases hlock
      exact updateLeased_keys h lease _ fun _ => rfl

end Keys

/-! ### The capacity -/

theorem leaseAt_capacity (c : ProgramCache K P) (i : Nat) :
    (c.leaseAt i).2.capacity = c.capacity := by
  unfold leaseAt
  dsimp only
  split <;> rfl

section Capacity

variable [DecidableEq K]

theorem sweepFrom_capacity (steps : Nat) (start : Option Nat) (c : ProgramCache K P) :
    (sweepFrom steps start c).2.capacity = c.capacity := by
  fun_induction sweepFrom steps start c with
  | case1 | case2 | case3 | case4 => rfl
  | case5 steps i c hfull next hbusy hpolicy ih => exact ih
  | case6 steps i c hfull next hbusy c' hnone ih =>
    have hframe := (Keeps.removeAt_frame c i).2
    rw [hnone] at hframe
    exact ih.trans hframe
  | case7 steps i c hfull next hbusy entry c' hsome counted more c'' hmore ih =>
    have hframe := (Keeps.removeAt_frame c i).2
    rw [hsome] at hframe
    rw [hmore] at ih
    exact ih.trans hframe

theorem evict_capacity (c : ProgramCache K P) : c.evict.2.capacity = c.capacity :=
  sweepFrom_capacity c.size c.recency.oldest c

theorem clear_capacity (c : ProgramCache K P) : c.clear.2.capacity = c.capacity := by
  have hall : ∀ positions (c : ProgramCache K P),
      (removeAll positions c).2.capacity = c.capacity := by
    intro positions
    induction positions with
    | nil => exact fun c => rfl
    | cons i positions ih =>
      intro c
      have hframe := (Keeps.removeAt_frame c i).2
      unfold removeAll
      cases hremove : c.removeAt i with
      | mk entry c' =>
        rw [hremove] at hframe
        cases entry with
        | none => exact (ih c').trans hframe
        | some entry => exact (ih c').trans hframe
  exact hall c.idlePositions c

theorem acquire_capacity (c : ProgramCache K P) (key : K) :
    (c.acquire key).2.capacity = c.capacity := by
  unfold acquire
  split
  · rfl
  · rename_i i hi
    have hlease := leaseAt_capacity c i
    split
    · rename_i hleaseAt
      rw [hleaseAt] at hlease
      exact hlease
    · rename_i hleaseAt
      rw [hleaseAt] at hlease
      exact hlease

theorem publishAndSweep_capacity (c : ProgramCache K P) (key : K) (program : P)
    (compileTime : Duration) :
    (c.publishAndSweep key program compileTime).2.capacity = c.capacity :=
  evict_capacity (c.publish key program compileTime).2

theorem insert_capacity (c : ProgramCache K P) (key : K) (program : P) (compileTime : Duration) :
    (c.insert key program compileTime).2.capacity = c.capacity := by
  unfold insert
  split
  · exact publishAndSweep_capacity c key program compileTime
  · rename_i i hi
    have hlease := leaseAt_capacity c i
    split
    · rename_i hleaseAt
      rw [hleaseAt] at hlease
      exact hlease
    · rename_i hleaseAt
      rw [hleaseAt] at hlease
      exact (publishAndSweep_capacity _ key program compileTime).trans hlease

theorem release_capacity (c : ProgramCache K P) (lease : Lease K) :
    (c.release lease).capacity = c.capacity := by
  unfold release
  split <;> rfl

theorem updateLeased_capacity (c : ProgramCache K P) (lease : Lease K)
    (f : Entry K P → Entry K P) : (c.updateLeased lease f).capacity = c.capacity := by
  unfold updateLeased
  split <;> rfl

theorem tryLock_capacity {lease : Lease K} {program : P} {c' : ProgramCache K P}
    (h : c.tryLock lease = some (program, c')) : c'.capacity = c.capacity := by
  unfold tryLock at h
  split at h
  · cases h
  · split at h
    · cases h
    · cases h
      exact updateLeased_capacity c lease _

/-- A change of the capacity to something else than zero takes effect. -/
theorem resize_eq_ok {capacity : Nat} {resized : Nat × ProgramCache K P}
    (h : c.resize capacity = .ok resized) : 0 < capacity ∧
      resized = (capacity, ({ c with capacity := capacity } : ProgramCache K P).evict.2) := by
  unfold resize at h
  split at h
  · cases h
  · rename_i hne
    cases h
    exact ⟨Nat.pos_of_ne_zero hne, rfl⟩

end Capacity

end ProgramCache

variable {K P : Type} [DecidableEq K]

/-- What an action does to the capacity. -/
theorem SharedCache.step_capacity (w : SharedCache K P) (action : Action K P) :
    (w.step action).cache.capacity = w.cache.capacity ∨
      ∃ capacity, action = .resize capacity ∧ 0 < capacity ∧
        (w.step action).cache.capacity = capacity := by
  cases action with
  | acquire client key =>
    have hcapacity := ProgramCache.acquire_capacity w.cache key
    dsimp only [SharedCache.step]
    split <;> rename_i hacquire <;> rw [hacquire] at hcapacity <;> exact .inl hcapacity
  | insert client key program compileTime =>
    exact .inl (ProgramCache.insert_capacity w.cache key program compileTime)
  | release client lease =>
    dsimp only [SharedCache.step]
    split
    · exact .inl (ProgramCache.release_capacity w.cache lease)
    · exact .inl rfl
  | lock client lease =>
    dsimp only [SharedCache.step]
    split
    · split
      · rename_i hlock
        exact .inl (ProgramCache.tryLock_capacity hlock)
      · exact .inl rfl
    · exact .inl rfl
  | unlock client lease change =>
    dsimp only [SharedCache.step]
    split
    · split
      · exact .inl (ProgramCache.updateLeased_capacity w.cache lease _)
      · exact .inl rfl
    · exact .inl rfl
  | evict => exact .inl (ProgramCache.evict_capacity w.cache)
  | clear => exact .inl (ProgramCache.clear_capacity w.cache)
  | resize capacity =>
    dsimp only [SharedCache.step, ProgramCache.perform]
    cases hresize : w.cache.resize capacity with
    | error e => exact .inl rfl
    | ok resized =>
      obtain ⟨hpos, rfl⟩ := ProgramCache.resize_eq_ok hresize
      exact .inr ⟨capacity, rfl, hpos, ProgramCache.evict_capacity _⟩

end JsonFilter.Cache
