import JsonFilter.Proofs.Cache.RecencyLinks
import Mathlib.Data.List.Perm.Subperm

/-!
# What a recency list stands for

A recency list stands for a plain list of positions and values, the most recently used first.  This
file says which one it is, and what every operation does to it.

## The representation

`Arranges l xs` is the invariant: `xs` is linked from the newest to the oldest position, no position
occurs twice, the size is right, and the free positions are exactly the others.  There is at most one
such `xs`, namely `l.entries` (`Arranges.entries_eq`).

## The operations

* **`pushFront_arranges`** — a new value comes first, at a position that was not in use.
* **`moveToFront_arranges`** — the value moves to the front and keeps its position.
* **`remove_arranges`** — the value leaves, and its position becomes free.
* **`modify_arranges`** — only the value at the position changes.
-/

namespace JsonFilter.Cache.RecencyList

variable {α : Type} {l : RecencyList α} {i j : Nat} {v : α} {xs ys : List (Nat × α)}

/-! ### The representation -/

/-- **The invariant.**  A recency list arranges some positions with their values, the most recently
used first. -/
structure Arranges (l : RecencyList α) (xs : List (Nat × α)) : Prop extends l.Threads xs where
  nodup : (positions xs).Nodup
  size : l.size = xs.length
  /-- Only the positions of the list hold nodes. -/
  dead : ∀ i ∉ positions xs, l.node? i = none
  free_nodup : l.free.Nodup
  mem_free : ∀ i, i ∈ l.free ↔ i < l.nodes.size ∧ i ∉ positions xs

/-- No values are arranged as the empty list. -/
theorem empty_arranges : (empty : RecencyList α).Arranges [] where
  linked := trivial
  newest := rfl
  oldest := rfl
  nodup := List.nodup_nil
  size := rfl
  dead i _ := node?_eq_none_of_size_le (Nat.zero_le i)
  free_nodup := List.nodup_nil
  mem_free i := by simp [empty]

namespace Arranges

/-- The positions lie inside the arena. -/
theorem lt_size (h : l.Arranges xs) (hi : i ∈ positions xs) : i < l.nodes.size := by
  obtain ⟨⟨_, v⟩, hmem, rfl⟩ := List.mem_map.1 hi
  by_contra hge
  have hget := h.linked.get? hmem
  unfold RecencyList.get? at hget
  rw [node?_eq_none_of_size_le (Nat.le_of_not_lt hge)] at hget
  cases hget

/-- There are no more entries than the arena has places. -/
theorem length_le (h : l.Arranges xs) : xs.length ≤ l.nodes.size := by
  have hsub : positions xs ⊆ List.range l.nodes.size := fun i hi =>
    List.mem_range.2 (h.lt_size hi)
  have hle := (List.subperm_of_subset h.nodup hsub).length_le
  rwa [positions, List.length_map, List.length_range] at hle

/-- **A walk of any length that suffices finds the list.** -/
theorem walk_eq (h : l.Arranges xs) (steps : Nat) (hsteps : xs.length ≤ steps) :
    l.walk steps l.newest = xs := by
  rw [h.newest]
  exact h.linked.walk steps hsteps

/-- **The list that is arranged is the one that can be seen.** -/
theorem entries_eq (h : l.Arranges xs) : l.entries = xs := h.walk_eq _ h.length_le

theorem get?_eq_some_iff (h : l.Arranges xs) : l.get? i = some v ↔ (i, v) ∈ xs := by
  refine ⟨fun hget => ?_, h.linked.get?⟩
  by_cases hi : i ∈ positions xs
  · obtain ⟨⟨_, w⟩, hmem, rfl⟩ := List.mem_map.1 hi
    rw [h.linked.get? hmem] at hget
    cases hget
    exact hmem
  · unfold RecencyList.get? at hget
    rw [h.dead i hi] at hget
    cases hget

/-- The entry at a position splits the list. -/
theorem split (h : l.Arranges xs) (hget : l.get? i = some v) :
    ∃ ys zs, xs = ys ++ (i, v) :: zs :=
  List.append_of_mem (h.get?_eq_some_iff.1 hget)

end Arranges

/-! ### The operations -/

/-- Without a node at the position, nothing is removed. -/
theorem remove_of_dead (h : l.node? i = none) : l.remove i = (none, l) := by
  unfold remove
  rw [h]

/-- The nodes after a place of the arena was written. -/
theorem node?_store (l : RecencyList α) (place : Option (Node α)) (free : List Nat) (size : Nat)
    (hi : i < l.nodes.size) :
    node? { l with nodes := l.nodes.setIfInBounds i place, free := free, size := size } j =
      if i = j then place else l.node? j := by
  unfold node?
  rw [Array.getElem?_setIfInBounds]
  split <;> rfl

/-- The nodes after the arena has grown by a place. -/
theorem node?_grow (l : RecencyList α) (node : Node α) (free : List Nat) :
    node? { l with nodes := l.nodes.push (some node), free := free } j =
      if l.nodes.size = j then some node else l.node? j := by
  unfold node?
  rw [Array.getElem?_push]
  split
  · rename_i hj
    rw [if_pos hj.symm]
    rfl
  · rename_i hj
    rw [if_neg fun hj' => hj hj'.symm]

/-- The links do not depend on anything but the nodes that they lead through and the two ends. -/
theorem Threads.congr {l' : RecencyList α} (h : l.Threads xs) (hnewest : l'.newest = l.newest)
    (holdest : l'.oldest = l.oldest) (hsame : ∀ i ∈ positions xs, l'.node? i = l.node? i) :
    l'.Threads xs :=
  ⟨h.linked.congr hsame, hnewest.trans h.newest, holdest.trans h.oldest⟩

/-- The start is one of the positions. -/
theorem Threads.newest_ne (h : l.Threads xs) (hj : j ∉ positions xs) : l.newest ≠ some j := by
  rw [h.newest]
  intro hfront
  cases xs with
  | nil => cases hfront
  | cons p xs => exact hj (by simp_all)

/-- A rearrangement of the same positions keeps what concerns the arena. -/
theorem Arranges.rearrange {l' : RecencyList α} (h : l.Arranges xs)
    (hperm : (positions xs).Perm (positions ys)) (hstore : SameStore l l')
    (hthreads : l'.Threads ys) (hdead : ∀ i ∉ positions ys, l'.node? i = l.node? i) :
    l'.Arranges ys where
  toThreads := hthreads
  nodup := hperm.nodup_iff.1 h.nodup
  size := by
    have hlen : xs.length = ys.length := by simpa [positions] using hperm.length_eq
    rw [hstore.size, h.size, hlen]
  dead i hi := by rw [hdead i hi, h.dead i fun hmem => hi (hperm.mem_iff.1 hmem)]
  free_nodup := by rw [hstore.free]; exact h.free_nodup
  mem_free i := by rw [hstore.free, hstore.slots, h.mem_free, hperm.mem_iff]

/-- **The value at a position moves to the front** and keeps the position. -/
theorem moveToFront_arranges (h : l.Arranges (xs ++ (i, v) :: ys)) :
    (l.moveToFront i).Arranges ((i, v) :: (xs ++ ys)) := by
  have hperm : (positions (xs ++ (i, v) :: ys)).Perm (positions ((i, v) :: (xs ++ ys))) :=
    List.perm_middle.map Prod.fst
  have hnodup := hperm.nodup_iff.1 h.nodup
  have hi : i ∉ positions (xs ++ ys) := (List.nodup_cons.1 hnodup).1
  unfold moveToFront
  split
  · rename_i hfront
    -- the value is at the front already
    obtain rfl : xs = [] := by
      cases xs with
      | nil => rfl
      | cons p xs =>
        rw [h.newest] at hfront
        obtain rfl : p.1 = i := by simpa using hfront
        exact absurd (by simp) hi
    exact h
  · obtain ⟨u, hunlink, hthreads, hstore, hnodes⟩ := unlink?_threads h.toThreads h.nodup
    obtain ⟨-, hnode, -⟩ := (linked_append l none none).1 h.linked
    rw [hunlink]
    let w := u.updateNode i fun n => { n with newer := none, older := u.newest }
    have hw : w.node? i = some ⟨v, none, front (xs ++ ys)⟩ := by
      show (u.updateNode i _).node? i = _
      rw [node?_updateNode, if_pos rfl, hnodes i hi, hnode, hthreads.newest]
      rfl
    have hne : ∀ j, j ≠ i → w.node? j = u.node? j := fun j hj =>
      node?_updateNode_ne _ (Ne.symm hj)
    have hwThreads : w.Threads (xs ++ ys) := by
      refine hthreads.congr rfl rfl fun j hj => hne j ?_
      rintro rfl
      exact hi hj
    refine h.rearrange hperm ?_ (setFront_threads hwThreads hnodup hw) ?_
    · exact (hstore.trans (sameStore_updateNode _)).trans sameStore_setFront
    · intro j hj
      obtain ⟨hji, hj⟩ := not_or.1 (mt List.mem_cons.2 hj)
      rw [node?_setFront w (hwThreads.newest_ne hj), hne j hji, hnodes j hj]

/-- **A change of the value at a position** leaves the order and the other values. -/
theorem modify_arranges (h : l.Arranges (xs ++ (i, v) :: ys)) (f : α → α) :
    (l.modify i f).Arranges (xs ++ (i, f v) :: ys) := by
  obtain ⟨hbefore, hnode, hbehind⟩ := (linked_append l none none).1 h.linked
  obtain ⟨-, ⟨hys, -⟩, hdisj⟩ :
      (positions xs).Nodup ∧ (i ∉ positions ys ∧ _) ∧ ∀ j ∈ positions xs, _ := by
    have hnodup := h.nodup
    rwa [positions_append, positions_cons, List.nodup_append, List.nodup_cons] at hnodup
  have hne : ∀ j, j ≠ i → (l.modify i f).node? j = l.node? j := fun j hj =>
    node?_updateNode_ne _ (Ne.symm hj)
  refine h.rearrange (by simp) (sameStore_updateNode _) ⟨?_, ?_, ?_⟩ fun j hj => hne j ?_
  · refine (linked_append _ none none).2 ⟨?_, ?_, ?_⟩
    · exact hbefore.congr fun j hj => hne j fun hji => hdisj j hj i (by simp) hji
    · show (l.updateNode i _).node? i = _
      rw [node?_updateNode, if_pos rfl, hnode]
      rfl
    · refine hbehind.congr fun j hj => hne j ?_
      rintro rfl
      exact hys hj
  · show l.newest = _
    rw [h.newest, front_append, front_append]
    rfl
  · show l.oldest = _
    rw [h.oldest, back_append, back_append, back_cons, back_cons]
  · rintro rfl
    simp at hj

/-- **The value at a position leaves,** and the position becomes free. -/
theorem remove_arranges (h : l.Arranges (xs ++ (i, v) :: ys)) :
    (l.remove i).1 = some v ∧ (l.remove i).2.Arranges (xs ++ ys) := by
  have hperm : (positions (xs ++ (i, v) :: ys)).Perm (positions ((i, v) :: (xs ++ ys))) :=
    List.perm_middle.map Prod.fst
  obtain ⟨hi, hnodup⟩ := List.nodup_cons.1 (hperm.nodup_iff.1 h.nodup)
  obtain ⟨u, hunlink, hthreads, hstore, hnodes⟩ := unlink?_threads h.toThreads h.nodup
  obtain ⟨-, hnode, -⟩ := (linked_append l none none).1 h.linked
  have hlt : i < u.nodes.size := by
    rw [hstore.slots]
    exact h.lt_size (by simp)
  unfold remove
  rw [hnode, hunlink]
  refine ⟨rfl, hthreads.congr rfl rfl ?_, hnodup, ?_, ?_, ?_, ?_⟩
  · intro j hj
    rw [node?_store u none _ _ hlt, if_neg]
    rintro rfl
    exact hi hj
  · show u.size - 1 = _
    rw [hstore.size, h.size]
    simp
  · intro j hj
    rw [node?_store u none _ _ hlt]
    split
    · rfl
    · rename_i hij
      rw [hnodes j hj]
      refine h.dead j fun hmem => ?_
      rcases List.mem_cons.1 (hperm.mem_iff.1 hmem) with heq | hmem
      · exact hij heq.symm
      · exact hj hmem
  · show (i :: u.free).Nodup
    rw [hstore.free, List.nodup_cons]
    exact ⟨fun hfree => ((h.mem_free i).1 hfree).2 (by simp), h.free_nodup⟩
  · intro j
    show j ∈ i :: u.free ↔ j < (u.nodes.setIfInBounds i none).size ∧ _
    rw [Array.size_setIfInBounds, hstore.free, hstore.slots, List.mem_cons, h.mem_free,
      hperm.mem_iff, positions_cons, List.mem_cons, not_or]
    rw [hstore.slots] at hlt
    constructor
    · rintro (rfl | ⟨hj, -, hmem⟩)
      · exact ⟨hlt, hi⟩
      · exact ⟨hj, hmem⟩
    · rintro ⟨hj, hmem⟩
      by_cases hji : j = i
      · exact .inl hji
      · exact .inr ⟨hj, hji, hmem⟩

/-- A value that was stored at an unused position can become the start. -/
theorem setFront_arranges {stored : RecencyList α} (h : l.Arranges xs) (hi : i ∉ positions xs)
    (hnode : stored.node? i = some ⟨v, none, l.newest⟩)
    (hne : ∀ j, j ≠ i → stored.node? j = l.node? j)
    (hnewest : stored.newest = l.newest) (holdest : stored.oldest = l.oldest)
    (hnodup : stored.free.Nodup)
    (hmem : ∀ j, j ∈ stored.free ↔ j < stored.nodes.size ∧ j ∉ i :: positions xs) :
    Arranges { stored.setFront i with size := l.size + 1 } ((i, v) :: xs) := by
  have hthreads : stored.Threads xs := by
    refine h.toThreads.congr hnewest holdest fun j hj => hne j ?_
    rintro rfl
    exact hi hj
  have hkeys : (positions ((i, v) :: xs)).Nodup := List.nodup_cons.2 ⟨hi, h.nodup⟩
  have hstore : SameStore stored (stored.setFront i) := sameStore_setFront
  refine ⟨?_, hkeys, ?_, ?_, ?_, ?_⟩
  · rw [h.newest] at hnode
    exact (setFront_threads hthreads hkeys hnode).congr rfl rfl fun j _ => rfl
  · show l.size + 1 = _
    rw [h.size, List.length_cons]
  · intro j hj
    obtain ⟨hji, hj⟩ := not_or.1 (mt List.mem_cons.2 hj)
    show (stored.setFront i).node? j = none
    rw [node?_setFront stored (hthreads.newest_ne hj), hne j hji, h.dead j hj]
  · show (stored.setFront i).free.Nodup
    rw [hstore.free]
    exact hnodup
  · intro j
    show j ∈ (stored.setFront i).free ↔ j < (stored.setFront i).nodes.size ∧ _
    rw [hstore.free, hstore.slots]
    exact hmem j

/-- **A new value comes first,** at a position that no other value has. -/
theorem pushFront_arranges (h : l.Arranges xs) (v : α) :
    (l.pushFront v).1 ∉ positions xs ∧
      (l.pushFront v).2.Arranges (((l.pushFront v).1, v) :: xs) := by
  unfold pushFront
  cases hfree : l.free with
  | cons i free =>
    -- a free position is used again
    have hnodup := h.free_nodup
    rw [hfree, List.nodup_cons] at hnodup
    obtain ⟨hlt, hi⟩ := (h.mem_free i).1 (by rw [hfree]; exact List.mem_cons_self)
    refine ⟨hi, setFront_arranges h hi ?_ ?_ rfl rfl hnodup.2 ?_⟩
    · rw [node?_store l _ _ _ hlt, if_pos rfl]
    · intro j hj
      rw [node?_store l _ _ _ hlt, if_neg (Ne.symm hj)]
    · intro j
      have hj := h.mem_free j
      rw [hfree, List.mem_cons] at hj
      show j ∈ free ↔ j < (l.nodes.setIfInBounds i _).size ∧ _
      rw [Array.size_setIfInBounds, List.mem_cons, not_or]
      constructor
      · intro hmem
        obtain ⟨hjlt, hjxs⟩ := hj.1 (.inr hmem)
        refine ⟨hjlt, ?_, hjxs⟩
        rintro rfl
        exact hnodup.1 hmem
      · rintro ⟨hjlt, hji, hjxs⟩
        exact (hj.2 ⟨hjlt, hjxs⟩).resolve_left hji
  | nil =>
    -- the arena grows
    have hi : l.nodes.size ∉ positions xs := fun hmem => Nat.lt_irrefl _ (h.lt_size hmem)
    refine ⟨hi, setFront_arranges h hi ?_ ?_ rfl rfl ?_ ?_⟩
    · rw [node?_grow, if_pos rfl]
    · intro j hj
      rw [node?_grow, if_neg (Ne.symm hj)]
    · exact List.nodup_nil
    · intro j
      have hj := h.mem_free j
      rw [hfree] at hj
      show j ∈ [] ↔ j < (l.nodes.push _).size ∧ _
      rw [hj, Array.size_push, List.mem_cons, not_or]
      constructor
      · rintro ⟨hjlt, hjxs⟩
        exact ⟨by omega, by omega, hjxs⟩
      · rintro ⟨hjlt, hjne, hjxs⟩
        exact ⟨by omega, hjxs⟩

end JsonFilter.Cache.RecencyList
