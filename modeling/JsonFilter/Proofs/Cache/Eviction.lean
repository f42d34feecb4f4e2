import JsonFilter.Proofs.Cache.Sweeping
import Mathlib.Data.List.DropRight

/-!
# Which entries a sweep takes out

A sweep walks from the oldest entry to the newer ones and takes entries out on its way, so that the list
that it walks through changes under its feet.  This file says what comes of that without the walk: the
entries that leave are the first idle ones from the old end, as many as are too many, and everything else
is as it was.

## Where a sweep ends

A sweep that leaves too many entries was `Blocked`: the oldest entry is busy, or all are, as the policy
has it.  Whichever way it ended, a second sweep finds nothing to do (`chosen_after_sweep`).

* **`sweep_takes_the_least_recently_used`** — what leaves, what stays, what is counted and where it ends.
-/

namespace JsonFilter.Cache

/-- The key of the entry. -/
def Slot.key {K P : Type} (s : Slot K P) : K := s.entry.key

namespace ProgramCache

variable {K P : Type} {c : ProgramCache K P} {s : Slot K P}

/-! ### What is taken from a list -/

/-- Which slots a sweep may take, the oldest first. -/
def candidates (policy : SweepPolicy) (slots : List (Slot K P)) : List (Slot K P) :=
  match policy with
  | .stopAtBusy => slots.takeWhile Slot.isIdle
  | .skipBusy => slots.filter Slot.isIdle

theorem chosen_eq_take (policy : SweepPolicy) (excess : Nat) (slots : List (Slot K P)) :
    chosen policy excess slots = (candidates policy slots).take excess := by
  cases policy <;> rfl

theorem candidates_sublist (policy : SweepPolicy) (slots : List (Slot K P)) :
    (candidates policy slots).Sublist slots := by
  cases policy with
  | stopAtBusy => exact List.takeWhile_sublist _
  | skipBusy => exact List.filter_sublist

theorem chosen_sublist (policy : SweepPolicy) (excess : Nat) (slots : List (Slot K P)) :
    (chosen policy excess slots).Sublist slots := by
  rw [chosen_eq_take]
  exact (List.take_sublist _ _).trans (candidates_sublist policy slots)

/-- Only idle slots are taken. -/
theorem isIdle_of_mem_chosen {policy : SweepPolicy} {excess : Nat} {slots : List (Slot K P)}
    (h : s ∈ chosen policy excess slots) : s.refs = 0 := by
  rw [chosen_eq_take] at h
  have hcandidate := List.mem_of_mem_take h
  cases policy with
  | stopAtBusy =>
    have hidle : s.isIdle = true := List.mem_takeWhile_imp hcandidate
    exact beq_iff_eq.1 hidle
  | skipBusy => exact beq_iff_eq.1 (List.mem_filter.1 hcandidate).2

/-- The first slots up to a busy one, seen from the other end: the last ones of the longest idle end. -/
theorem reverse_chosen_stopAtBusy (excess : Nat) (slots : List (Slot K P)) :
    (chosen .stopAtBusy excess slots.reverse).reverse =
      slots.rtake (min excess (slots.rtakeWhile Slot.isIdle).length) := by
  have hprefix : slots.reverse.takeWhile Slot.isIdle =
      slots.reverse.take (slots.rtakeWhile Slot.isIdle).length := by
    rw [List.rtakeWhile, List.length_reverse]
    exact List.prefix_iff_eq_take.1 (List.takeWhile_prefix _)
  rw [List.rtake_eq_reverse_take_reverse, ← List.take_take, ← hprefix]
  rfl

/-- The first idle slots, seen from the other end. -/
theorem reverse_chosen_skipBusy (excess : Nat) (slots : List (Slot K P)) :
    (chosen .skipBusy excess slots.reverse).reverse =
      (slots.filter Slot.isIdle).rtake (min excess (slots.filter Slot.isIdle).length) := by
  have hall : (slots.filter Slot.isIdle).reverse.take (slots.filter Slot.isIdle).length =
      (slots.filter Slot.isIdle).reverse := List.take_of_length_le (by rw [List.length_reverse])
  rw [List.rtake_eq_reverse_take_reverse, ← List.take_take, hall, ← List.filter_reverse]
  rfl

/-! ### Where a sweep ends -/

/-- **A sweep cannot go on**: the oldest entry is busy, or all are, as the policy has it. -/
def Blocked (c : ProgramCache K P) : Prop :=
  match c.policy with
  | .stopAtBusy => ∃ s, c.slots.getLast? = some s ∧ 0 < s.refs
  | .skipBusy => ∀ s ∈ c.slots, 0 < s.refs

/-- Either as many slots are gone as were too many, or only busy ones come next. -/
theorem spared_ends (policy : SweepPolicy) (excess : Nat) (xs : List (Nat × Slot K P)) :
    (spared policy excess xs).length + excess = xs.length ∨
      match policy with
      | .stopAtBusy => ∀ p ∈ (spared .stopAtBusy excess xs).head?, 0 < p.2.refs
      | .skipBusy => ∀ p ∈ spared .skipBusy excess xs, 0 < p.2.refs := by
  induction xs generalizing excess with
  | nil => cases policy <;> exact .inr nofun
  | cons p xs ih =>
    by_cases hzero : excess = 0
    · subst hzero
      exact .inl (by rw [spared_zero, Nat.add_zero])
    · by_cases hbusy : 0 < p.2.refs
      · cases policy with
        | stopAtBusy =>
          refine .inr ?_
          rw [spared, if_neg hzero, if_pos hbusy, if_pos rfl]
          rintro q ⟨⟩
          exact hbusy
        | skipBusy =>
          have hskips : spared .skipBusy excess (p :: xs) = p :: spared .skipBusy excess xs := by
            rw [spared, if_neg hzero, if_pos hbusy, if_neg SweepPolicy.noConfusion]
          rw [hskips, List.length_cons, List.length_cons]
          rcases ih excess with hdone | hall
          · exact .inl (by omega)
          · exact .inr (List.forall_mem_cons.2 ⟨hbusy, hall⟩)
      · have htakes : ∀ policy, spared policy excess (p :: xs) = spared policy (excess - 1) xs := by
          intro policy
          rw [spared, if_neg hzero, if_neg hbusy]
        rw [htakes, List.length_cons]
        rcases ih (excess - 1) with hdone | hall
        · exact .inl (by omega)
        · refine .inr ?_
          cases policy with
          | stopAtBusy =>
            dsimp only
            rw [htakes]
            exact hall
          | skipBusy =>
            dsimp only
            rw [htakes]
            exact hall

/-- Nothing is taken where a sweep cannot go on. -/
theorem chosen_of_blocked (h : c.Blocked) (excess : Nat) :
    chosen c.policy excess c.slots.reverse = [] := by
  unfold Blocked at h
  cases hpolicy : c.policy with
  | stopAtBusy =>
    rw [hpolicy] at h
    obtain ⟨s, hlast, hbusy⟩ := h
    obtain ⟨newer, hslots⟩ := List.getLast?_eq_some_iff.1 hlast
    rw [hslots, List.reverse_append, List.reverse_singleton, List.singleton_append,
      chosen_of_busy _ _ hbusy]
  | skipBusy =>
    rw [hpolicy] at h
    refine List.eq_nil_iff_forall_not_mem.2 fun s hs => ?_
    have hbusy := h s (List.mem_reverse.1 ((chosen_sublist _ _ _).mem hs))
    exact absurd (isIdle_of_mem_chosen hs) (Nat.ne_of_gt hbusy)

/-! ### What is left of a list -/

variable [DecidableEq K]

/-- The slots that have none of the keys of some others. -/
def without (gone slots : List (Slot K P)) : List (Slot K P) :=
  slots.filter fun s => decide (s.key ∉ gone.map Slot.key)

theorem without_nil (slots : List (Slot K P)) : without [] slots = slots :=
  List.filter_eq_self.2 fun _ _ => decide_eq_true List.not_mem_nil

theorem without_cons_of_not_mem {gone : List (Slot K P)} (h : s.key ∉ gone.map Slot.key)
    (slots : List (Slot K P)) : without gone (s :: slots) = s :: without gone slots :=
  List.filter_cons_of_pos (decide_eq_true h)

/-- A slot that is gone is not there, and its key matters to no other one. -/
theorem without_cons_cons {slots : List (Slot K P)} (h : s.key ∉ slots.map Slot.key)
    (gone : List (Slot K P)) : without (s :: gone) (s :: slots) = without gone slots := by
  unfold without
  rw [List.filter_cons_of_neg (by simp)]
  refine List.filter_congr fun t ht => ?_
  have hne : t.key ≠ s.key := fun heq => h (heq ▸ List.mem_map_of_mem ht)
  simp [hne]

/-- **What is spared is what is not chosen,** where no key occurs twice. -/
theorem spared_eq_without (policy : SweepPolicy) (excess : Nat) {xs : List (Nat × Slot K P)}
    (hnodup : ((xs.map Prod.snd).map Slot.key).Nodup) :
    (spared policy excess xs).map Prod.snd =
      without (chosen policy excess (xs.map Prod.snd)) (xs.map Prod.snd) := by
  induction xs generalizing excess with
  | nil => rfl
  | cons p xs ih =>
    rw [List.map_cons, List.map_cons, List.nodup_cons] at hnodup
    obtain ⟨hfresh, hrest⟩ := hnodup
    have hkept : ∀ excess, p.2.key ∉ (chosen policy excess (xs.map Prod.snd)).map Slot.key :=
      fun excess hmem => hfresh (((chosen_sublist policy excess _).map _).mem hmem)
    rw [List.map_cons, spared]
    by_cases hzero : excess = 0
    · subst hzero
      rw [if_pos rfl, chosen_zero, without_nil]
      rfl
    · obtain ⟨excess, rfl⟩ := Nat.exists_eq_succ_of_ne_zero hzero
      rw [if_neg hzero]
      by_cases hbusy : 0 < p.2.refs
      · rw [if_pos hbusy, chosen_of_busy _ _ hbusy]
        cases policy with
        | stopAtBusy =>
          rw [if_pos rfl, without_nil]
          rfl
        | skipBusy =>
          rw [if_neg SweepPolicy.noConfusion, List.map_cons, ih _ hrest]
          exact (without_cons_of_not_mem (hkept _) _).symm
      · rw [if_neg hbusy, chosen_of_idle _ _ (Nat.eq_zero_of_not_pos hbusy), Nat.succ_sub_one,
          ih _ hrest, without_cons_cons hfresh]

/-! ### What a sweep leaves alone -/

theorem removeAt_counts (c : ProgramCache K P) (i : Nat) :
    (c.removeAt i).2.counts = c.counts ∧ (c.removeAt i).2.retired = c.retired := by
  unfold removeAt
  split <;> exact ⟨rfl, rfl⟩

/-- **A sweep counts what it takes out,** and changes neither the policy nor what retired before. -/
theorem sweepFrom_counts (steps : Nat) (start : Option Nat) (c : ProgramCache K P) :
    (sweepFrom steps start c).2.counts =
        { c.counts with
          evictions := c.counts.evictions + (sweepFrom steps start c).1.length } ∧
      (sweepFrom steps start c).2.retired = c.retired ∧
      (sweepFrom steps start c).2.policy = c.policy := by
  fun_induction sweepFrom steps start c with
  | case1 | case2 | case3 | case4 => exact ⟨rfl, rfl, rfl⟩
  | case5 steps i c hfull next hbusy hpolicy ih => exact ih
  | case6 steps i c hfull next hbusy c' hnone ih =>
    obtain ⟨hcounts, hretired⟩ := removeAt_counts c i
    have hpolicy := (Keeps.removeAt_frame c i).1
    rw [hnone] at hcounts hretired hpolicy
    rw [hcounts, hretired, hpolicy] at ih
    exact ih
  | case7 steps i c hfull next hbusy entry c' hsome counted more c'' hmore ih =>
    obtain ⟨hcounts, hretired⟩ := removeAt_counts c i
    have hpolicy := (Keeps.removeAt_frame c i).1
    rw [hsome] at hcounts hretired hpolicy
    rw [hmore] at ih
    obtain ⟨hmoreCounts, hmoreRetired, hmorePolicy⟩ := ih
    refine ⟨?_, hmoreRetired.trans hretired, hmorePolicy.trans hpolicy⟩
    rw [hmoreCounts, List.length_cons]
    show { c'.counts with evictions := c'.counts.evictions + 1 + more.length } = _
    rw [hcounts, Nat.add_assoc, Nat.add_comm 1]

/-- A sweep that takes nothing out changes nothing. -/
theorem sweepFrom_eq_self {steps : Nat} {start : Option Nat} {c : ProgramCache K P}
    (h : (sweepFrom steps start c).1 = []) : sweepFrom steps start c = ([], c) := by
  fun_induction sweepFrom steps start c with
  | case1 | case2 | case3 | case4 => rfl
  | case5 steps i c hfull next hbusy hpolicy ih => exact ih h
  | case6 steps i c hfull next hbusy c' hnone ih =>
    obtain rfl : c' = c := by
      unfold removeAt at hnone
      split at hnone
      · exact (congrArg Prod.snd hnone).symm
      · cases hnone
    exact ih h
  | case7 => cases h

/-! ### Sweeps -/

section Sweep

variable (h : c.Consistent)
include h

/-- What a sweep takes out of a cache. -/
theorem sweep_fst :
    c.sweep.1 = (chosen c.policy (c.size - c.capacity) c.slots.reverse).map Slot.entry := by
  rw [Keeps.slots_eq h]
  exact (Keeps.sweep h).1

/-- What a sweep leaves in a cache. -/
theorem sweep_slots :
    c.sweep.2.slots =
      without (chosen c.policy (c.size - c.capacity) c.slots.reverse) c.slots := by
  have hslots := Keeps.slots_eq h
  have hnodup : ((c.recency.entries.reverse.map Prod.snd).map Slot.key).Nodup := by
    rw [List.map_map, List.map_reverse, List.nodup_reverse]
    exact Keeps.keys_nodup h
  rw [(Keeps.sweep h).2.slots_eq, List.map_reverse, spared_eq_without _ _ hnodup, List.map_reverse,
    ← hslots]
  unfold without
  rw [← List.filter_reverse, List.reverse_reverse]

/-- **Where a sweep ends.** -/
theorem sweep_ends : c.sweep.2.size ≤ c.sweep.2.capacity ∨ c.sweep.2.Blocked := by
  have hkeeps := (Keeps.sweep h).2
  have hcapacity : c.sweep.2.capacity = c.capacity := sweepFrom_capacity _ _ c
  have hpolicy : c.sweep.2.policy = c.policy := (sweepFrom_counts _ _ c).2.2
  have hsize := hkeeps.size_eq
  rw [List.length_reverse] at hsize
  rcases spared_ends c.policy (c.size - c.capacity) c.recency.entries.reverse with hdone | hbusy
  · rw [List.length_reverse, ← Keeps.size_eq h] at hdone
    exact .inl (by omega)
  · rcases Nat.eq_zero_or_pos c.sweep.2.size with hzero | hpos
    · exact .inl (by omega)
    · refine .inr ?_
      unfold Blocked
      rw [hpolicy, hkeeps.slots_eq]
      cases hc : c.policy with
      | stopAtBusy =>
        rw [hc] at hbusy hsize
        obtain ⟨p, rest, hcons⟩ := List.exists_cons_of_length_pos (hsize ▸ hpos)
        rw [hcons] at hbusy ⊢
        exact ⟨p.2, by simp, hbusy p rfl⟩
      | skipBusy =>
        rw [hc] at hbusy
        intro s hs
        obtain ⟨p, hp, rfl⟩ := List.mem_map.1 hs
        exact hbusy p (List.mem_reverse.1 hp)

/-- **A new entry outlives the sweep** that makes room for it. -/
theorem insert_head {key : K} (hkey : key ∉ c.keys) (program : P) (compileTime : Duration) :
    (c.insert key program compileTime).2.slots.head? =
      some (Keeps.published c.counts.inserts key program compileTime) := by
  have hnone : c.position? key = none := h.position?_eq_none_iff.2 hkey
  rw [Keeps.keys_eq h] at hkey
  obtain ⟨-, i, hpublished⟩ := Keeps.publish h hkey program compileTime
  have hslots := hpublished.slots_eq
  rw [List.map_cons] at hslots
  let new := Keeps.published c.counts.inserts key program compileTime
  let c' := (c.publish key program compileTime).2
  have hkept : new.key ∉ (chosen c'.policy (c'.size - c'.capacity) c'.slots.reverse).map Slot.key := by
    intro hmem
    obtain ⟨s, hs, hsame⟩ := List.mem_map.1 hmem
    have hthere : s ∈ c'.slots := List.mem_reverse.1 ((chosen_sublist _ _ _).mem hs)
    have hnew : new ∈ c'.slots := by
      rw [hslots]
      exact List.mem_cons_self
    obtain rfl : s = new := hpublished.consistent.eq_of_key_eq hthere hnew hsame
    exact Nat.one_ne_zero (isIdle_of_mem_chosen hs)
  unfold insert
  rw [hnone]
  show c'.sweep.2.slots.head? = _
  rw [sweep_slots hpublished.consistent]
  show (without (chosen c'.policy (c'.size - c'.capacity) c'.slots.reverse) c'.slots).head? = _
  rw [show c'.slots = new :: c.recency.entries.map Prod.snd from hslots] at hkept ⊢
  rw [without_cons_of_not_mem hkept]
  rfl

end Sweep

/-- **A sweep takes exactly the entries that its policy names,** from any cache whose index agrees with
its recency list.  The ones that leave are the last of the longest idle end, or the last of the idle ones,
as many as are too many or as there are; their keys leave the index, and they are counted.  All other
slots stay in their order as they were.  Afterwards there are not too many, or the sweep was blocked; a
second sweep changes nothing; and an entry that was just inserted, the sweep after that does not take. -/
theorem sweep_takes_the_least_recently_used {c : ProgramCache K P} (h : c.Consistent) :
    let excess := c.size - c.capacity
    let c' := c.sweep.2
    (∃ gone : List (Slot K P),
      c.sweep.1 = gone.reverse.map Slot.entry ∧
      gone = (match c.policy with
        | .stopAtBusy => c.slots.rtake (min excess (c.slots.rtakeWhile Slot.isIdle).length)
        | .skipBusy =>
          (c.slots.filter Slot.isIdle).rtake (min excess (c.slots.filter Slot.isIdle).length)) ∧
      c'.slots = (c.slots.filter fun s => decide (s.key ∉ gone.map Slot.key)) ∧
      (∀ s ∈ gone, c'.position? s.key = none) ∧
      c'.counts = { c.counts with evictions := c.counts.evictions + gone.length }) ∧
    (c.size ≤ c.capacity → c.sweep = ([], c)) ∧
    c'.Consistent ∧ c'.capacity = c.capacity ∧ c'.policy = c.policy ∧ c'.retired = c.retired ∧
    (c'.size ≤ c'.capacity ∨ c'.Blocked) ∧
    c'.sweep = ([], c') ∧
    ∀ (key : K) (program : P) (compileTime : Duration), key ∉ c.keys →
      (c.insert key program compileTime).2.slots.head? =
        some (Keeps.published c.counts.inserts key program compileTime) := by
  intro excess c'
  have hconsistent : c'.Consistent := (Keeps.sweep h).2.consistent
  have hcapacity : c'.capacity = c.capacity := sweepFrom_capacity _ _ c
  obtain ⟨hcounts, hretired, hpolicy⟩ := sweepFrom_counts c.size c.recency.oldest c
  have hslots : c'.slots = without (chosen c.policy excess c.slots.reverse).reverse c.slots := by
    rw [show c'.slots = _ from sweep_slots h]
    unfold without
    simp only [List.map_reverse, List.mem_reverse]
    rfl
  refine ⟨⟨(chosen c.policy excess c.slots.reverse).reverse, ?_, ?_, hslots, ?_, ?_⟩, ?_, hconsistent,
    hcapacity, hpolicy, hretired, sweep_ends h, ?_, fun key program compileTime hkey =>
      insert_head h hkey program compileTime⟩
  · rw [List.reverse_reverse]
    exact sweep_fst h
  · cases c.policy with
    | stopAtBusy => exact reverse_chosen_stopAtBusy excess c.slots
    | skipBusy => exact reverse_chosen_skipBusy excess c.slots
  · intro s hs
    refine hconsistent.position?_eq_none_iff.2 fun hmem => ?_
    obtain ⟨t, ht, hsame⟩ := List.mem_map.1 hmem
    rw [hslots] at ht
    have hleft := of_decide_eq_true (List.mem_filter.1 ht).2
    refine hleft ?_
    rw [show t.key = s.key from hsame]
    exact List.mem_map_of_mem hs
  · rw [show c'.counts = _ from hcounts, show sweepFrom c.size c.recency.oldest c = c.sweep from rfl,
      sweep_fst h, List.length_map, List.length_reverse]
  · intro hroom
    refine sweepFrom_eq_self ?_
    rw [show (sweepFrom c.size c.recency.oldest c).1 = _ from sweep_fst h,
      Nat.sub_eq_zero_of_le hroom, chosen_zero]
    rfl
  · refine sweepFrom_eq_self ?_
    rw [show (sweepFrom c'.size c'.recency.oldest c').1 = _ from sweep_fst hconsistent]
    rcases sweep_ends h with hroom | hblocked
    · rw [Nat.sub_eq_zero_of_le hroom, chosen_zero]
      rfl
    · rw [chosen_of_blocked hblocked]
      rfl

/-- Of four entries the second newest is busy, and three are too many.  One policy stops at the busy entry
and takes two, the other passes over it and takes the newest one as well; both are blocked afterwards. -/
theorem sweep_takes_the_least_recently_used_around_a_busy_one :
    let operations : List (Operation Nat Nat) :=
      [.insert 1 10 .zero, .insert 2 20 .zero, .insert 3 30 .zero, .insert 4 40 .zero,
        .release ⟨0, 1⟩, .release ⟨1, 2⟩, .release ⟨3, 4⟩]
    let c (policy : SweepPolicy) : ProgramCache Nat Nat :=
      { (empty 4 policy).performAll operations with capacity := 1 }
    (c .stopAtBusy).Consistent ∧ (c .skipBusy).Consistent ∧
      (c .stopAtBusy).keys = [4, 3, 2, 1] ∧ (c .stopAtBusy).sweep.2.keys = [4, 3] ∧
      (c .skipBusy).keys = [4, 3, 2, 1] ∧ (c .skipBusy).sweep.2.keys = [3] ∧
      (c .stopAtBusy).sweep.2.sweep = ([], (c .stopAtBusy).sweep.2) ∧
      (c .skipBusy).sweep.2.sweep = ([], (c .skipBusy).sweep.2) := by
  intro operations c
  have hresized : ∀ b : ProgramCache Nat Nat, b.Consistent →
      ({ b with capacity := 1 } : ProgramCache Nat Nat).Consistent := fun b hb => hb.congr rfl rfl
  have hconsistent : ∀ policy, (c policy).Consistent := fun policy =>
    hresized _ (performAll_consistent (empty_consistent 4 policy) operations)
  have hagain : ∀ policy, (c policy).sweep.2.sweep = ([], (c policy).sweep.2) := by
    intro policy
    obtain ⟨-, -, -, -, -, -, -, hagain, -⟩ :=
      sweep_takes_the_least_recently_used (hconsistent policy)
    exact hagain
  exact ⟨hconsistent .stopAtBusy, hconsistent .skipBusy, by decide +kernel, by decide +kernel,
    by decide +kernel, by decide +kernel, hagain .stopAtBusy, hagain .skipBusy⟩

end ProgramCache
end JsonFilter.Cache
