import JsonFilter.Cache.RecencyList
import Mathlib.Data.List.Induction
import Mathlib.Data.List.Nodup

/-!
# The links of a recency list

A recency list keeps its values in an arena and its order in links.  This file is about the links
alone: which nodes follow each other, and what surgery does to them.

## Segments

`Linked newer xs older` says that the nodes of `xs` follow each other in the arena, between the
neighbours `newer` and `older`.  Segments join and split (`linked_append`), and a segment only looks at
the nodes of its own positions (`Linked.congr`), so that surgery on the links is local.

## Surgery

`Threads l xs` says that `xs` is linked from the newest to the oldest position of `l`.

* **`unlink?_threads`** — the neighbours of a node that is taken out become neighbours.
* **`setFront_threads`** — a node that is put at the start comes first.
-/

namespace JsonFilter.Cache.RecencyList

variable {α : Type} {l : RecencyList α} {i j : Nat} {v : α} {xs ys : List (Nat × α)}

/-! ### Reading nodes after a write -/

/-- The nodes after one of them was changed. -/
theorem node?_updateNode (l : RecencyList α) (i j : Nat) (f : Node α → Node α) :
    (l.updateNode i f).node? j = if i = j then (l.node? j).map f else l.node? j := by
  unfold node? updateNode
  rw [Array.getElem?_modify]
  split
  · cases l.nodes[j]? <;> rfl
  · rfl

theorem node?_updateNode_ne (f : Node α → Node α) (h : i ≠ j) :
    (l.updateNode i f).node? j = l.node? j := by
  rw [node?_updateNode, if_neg h]

theorem node?_eq_none_of_size_le (h : l.nodes.size ≤ i) : l.node? i = none := by
  unfold node?
  rw [Array.getElem?_eq_none h]
  rfl

@[simp]
theorem size_updateNode (f : Node α → Node α) :
    (l.updateNode i f).nodes.size = l.nodes.size := Array.size_modify

/-! ### Segments of linked nodes -/

/-- The first position of a list of entries. -/
def front (xs : List (Nat × α)) : Option Nat := xs.head?.map Prod.fst

/-- The last position of a list of entries. -/
def back (xs : List (Nat × α)) : Option Nat := xs.getLast?.map Prod.fst

/-- The positions of a list of entries. -/
def positions (xs : List (Nat × α)) : List Nat := xs.map Prod.fst

@[simp] theorem front_nil : front ([] : List (Nat × α)) = none := rfl
@[simp] theorem front_cons (p : Nat × α) : front (p :: xs) = some p.1 := rfl
@[simp] theorem back_nil : back ([] : List (Nat × α)) = none := rfl
@[simp] theorem positions_nil : positions ([] : List (Nat × α)) = [] := rfl
@[simp] theorem positions_cons (p : Nat × α) : positions (p :: xs) = p.1 :: positions xs := rfl

@[simp]
theorem positions_append : positions (xs ++ ys) = positions xs ++ positions ys := List.map_append

theorem front_append : front (xs ++ ys) = (front xs).or (front ys) := by
  cases xs <;> rfl

theorem back_append : back (xs ++ ys) = (back ys).or (back xs) := by
  unfold back
  rw [List.getLast?_append]
  cases ys.getLast? <;> rfl

theorem back_cons (p : Nat × α) : back (p :: xs) = (back xs).or (some p.1) := by
  show back ([p] ++ xs) = _
  rw [back_append]
  rfl

/-- A last position is one of the positions. -/
theorem mem_positions_of_back (h : back xs = some j) : j ∈ positions xs := by
  obtain ⟨p, hp, rfl⟩ := Option.map_eq_some_iff.1 h
  exact List.mem_map_of_mem (List.mem_of_getLast? hp)

/-- The nodes of some entries follow each other, between two neighbours. -/
def Linked (l : RecencyList α) : Option Nat → List (Nat × α) → Option Nat → Prop
  | _, [], _ => True
  | newer, (i, v) :: xs, older =>
    l.node? i = some ⟨v, newer, (front xs).or older⟩ ∧ l.Linked (some i) xs older

/-- **Segments join where their ends meet.** -/
theorem linked_append (l : RecencyList α) (newer older : Option Nat) :
    l.Linked newer (xs ++ ys) older ↔
      l.Linked newer xs ((front ys).or older) ∧ l.Linked ((back xs).or newer) ys older := by
  induction xs generalizing newer with
  | nil => simp [Linked]
  | cons p xs ih =>
    obtain ⟨i, v⟩ := p
    have hback : (back ((i, v) :: xs)).or newer = (back xs).or (some i) := by
      rw [back_cons, Option.or_assoc]
      rfl
    simp only [List.cons_append, Linked, front_append, Option.or_assoc, ih, hback, and_assoc]

/-- A segment only looks at the nodes of its own positions. -/
theorem Linked.congr {l' : RecencyList α} {newer older : Option Nat}
    (h : l.Linked newer xs older) (hsame : ∀ i ∈ positions xs, l'.node? i = l.node? i) :
    l'.Linked newer xs older := by
  induction xs generalizing newer with
  | nil => trivial
  | cons p xs ih =>
    obtain ⟨hnode, hrest⟩ := h
    refine ⟨(hsame p.1 (by simp)).trans hnode, ih hrest fun i hi => hsame i ?_⟩
    exact List.mem_cons_of_mem _ hi

/-- The node of an entry of a segment holds its value. -/
theorem Linked.get? {newer older : Option Nat} (h : l.Linked newer xs older)
    (hmem : (i, v) ∈ xs) : l.get? i = some v := by
  induction xs generalizing newer with
  | nil => cases hmem
  | cons p xs ih =>
    obtain ⟨hnode, hrest⟩ := h
    rcases List.mem_cons.1 hmem with heq | hmem
    · subst heq
      unfold RecencyList.get?
      rw [hnode]
      rfl
    · exact ih hrest hmem

/-- The walk along a segment gives its entries. -/
theorem Linked.walk {newer : Option Nat} (h : l.Linked newer xs none) (steps : Nat)
    (hsteps : xs.length ≤ steps) : l.walk steps (front xs) = xs := by
  induction xs generalizing newer steps with
  | nil => cases steps <;> rfl
  | cons p xs ih =>
    obtain ⟨hnode, hrest⟩ := h
    cases steps with
    | zero => simp at hsteps
    | succ steps =>
      have hle : xs.length ≤ steps := by simpa using hsteps
      rw [Option.or_none] at hnode
      simp only [RecencyList.walk, front_cons, hnode, ih hrest steps hle]

/-- Redirecting the last node changes what comes behind a segment. -/
theorem Linked.setOlder {newer older : Option Nat} (h : l.Linked newer xs older)
    (hnodup : (positions xs).Nodup) (hback : back xs = some j) (target : Option Nat) :
    (l.setOlder (some j) target).Linked newer xs target := by
  induction xs using List.reverseRecOn with
  | nil => cases hback
  | append_singleton xs p =>
    obtain rfl : p.1 = j := by simpa [back_append, back_cons] using hback
    have hfresh : p.1 ∉ positions xs := by
      intro hmem
      rw [positions_append, List.nodup_append] at hnodup
      exact hnodup.2.2 _ hmem _ (by simp) rfl
    obtain ⟨hinit, hnode, -⟩ := (linked_append l newer older).1 h
    refine (linked_append _ newer target).2 ⟨?_, ?_, trivial⟩
    · refine Linked.congr hinit fun i hi => node?_updateNode_ne _ ?_
      rintro rfl
      exact hfresh hi
    · show (l.updateNode p.1 _).node? p.1 = _
      rw [node?_updateNode, if_pos rfl, hnode]
      rfl

/-- Redirecting the first node changes what comes before a segment. -/
theorem Linked.setNewer {p : Nat × α} {newer older : Option Nat}
    (h : l.Linked newer (p :: xs) older) (hnodup : (positions (p :: xs)).Nodup)
    (target : Option Nat) : (l.setNewer (some p.1) target).Linked target (p :: xs) older := by
  obtain ⟨hnode, hrest⟩ := h
  have hfresh : p.1 ∉ positions xs := (List.nodup_cons.1 hnodup).1
  refine ⟨?_, Linked.congr hrest fun i hi => node?_updateNode_ne _ ?_⟩
  · show (l.updateNode p.1 _).node? p.1 = _
    rw [node?_updateNode, if_pos rfl, hnode]
    rfl
  · rintro rfl
    exact hfresh hi

/-! ### Taking a node out of the links -/

/-- The links of a recency list lead through some entries, from end to end. -/
structure Threads (l : RecencyList α) (xs : List (Nat × α)) : Prop where
  linked : l.Linked none xs none
  newest : l.newest = front xs
  oldest : l.oldest = back xs

/-- A change of links leaves all else in its place. -/
structure SameStore (l l' : RecencyList α) : Prop where
  slots : l'.nodes.size = l.nodes.size
  free : l'.free = l.free
  size : l'.size = l.size

theorem SameStore.trans {l₁ l₂ l₃ : RecencyList α} (h : SameStore l₁ l₂) (h' : SameStore l₂ l₃) :
    SameStore l₁ l₃ :=
  ⟨h'.slots.trans h.slots, h'.free.trans h.free, h'.size.trans h.size⟩

theorem sameStore_updateNode (f : Node α → Node α) : SameStore l (l.updateNode i f) :=
  ⟨size_updateNode f, rfl, rfl⟩

theorem sameStore_setOlder (at? target : Option Nat) : SameStore l (l.setOlder at? target) := by
  cases at? with
  | none => exact ⟨rfl, rfl, rfl⟩
  | some i => exact sameStore_updateNode _

theorem sameStore_setNewer (at? target : Option Nat) : SameStore l (l.setNewer at? target) := by
  cases at? with
  | none => exact ⟨rfl, rfl, rfl⟩
  | some i => exact sameStore_updateNode _

theorem node?_setOlder {at? : Option Nat} (target : Option Nat) (h : at? ≠ some j) :
    (l.setOlder at? target).node? j = l.node? j := by
  cases at? with
  | none => rfl
  | some i => exact node?_updateNode_ne _ fun hij => h (congrArg some hij)

theorem node?_setNewer {at? : Option Nat} (target : Option Nat) (h : at? ≠ some j) :
    (l.setNewer at? target).node? j = l.node? j := by
  cases at? with
  | none => rfl
  | some i => exact node?_updateNode_ne _ fun hij => h (congrArg some hij)

theorem newest_setNewer (at? target : Option Nat) :
    (l.setNewer at? target).newest = l.newest := by
  cases at? <;> rfl

theorem oldest_setOlder (at? target : Option Nat) :
    (l.setOlder at? target).oldest = l.oldest := by
  cases at? <;> rfl

/-- The first half of the surgery: what comes before the node now leads past it. -/
theorem setOlder_before {newer : Option Nat} (h : l.Linked none xs newer)
    (hnodup : (positions xs).Nodup) (target : Option Nat) :
    (l.setOlder (back xs) target).Linked none xs target := by
  cases hback : back xs with
  | none =>
    cases xs with
    | nil => trivial
    | cons p xs => simp [back_cons] at hback
  | some j => exact h.setOlder hnodup hback target

/-- The second half of the surgery: what comes behind the node now leads back past it. -/
theorem setNewer_behind {newer : Option Nat} (h : l.Linked newer xs none)
    (hnodup : (positions xs).Nodup) (target : Option Nat) :
    (l.setNewer (front xs) target).Linked target xs none := by
  cases xs with
  | nil => trivial
  | cons p xs => exact h.setNewer hnodup target

/-- **The surgery on the links.**  Joining the neighbours of a node to each other takes it out of the
order; its own node and the rest of the arena stay as they are. -/
theorem unlink?_threads (h : l.Threads (xs ++ (i, v) :: ys))
    (hnodup : (positions (xs ++ (i, v) :: ys)).Nodup) :
    ∃ u, l.unlink? i = some u ∧ u.Threads (xs ++ ys) ∧ SameStore l u ∧
      ∀ j ∉ positions (xs ++ ys), u.node? j = l.node? j := by
  obtain ⟨hbefore, hnode, hbehind⟩ := (linked_append l none none).1 h.linked
  rw [Option.or_none] at hnode hbefore
  rw [positions_append, positions_cons, List.nodup_append, List.nodup_cons] at hnodup
  obtain ⟨hxs, ⟨hi, hys⟩, hdisj⟩ := hnodup
  have hsplit : ∀ j ∈ positions xs, j ∉ positions ys := fun j hj hj' =>
    hdisj j hj j (List.mem_cons_of_mem _ hj') rfl
  -- the two redirections, one after the other
  let before := l.setOlder (back xs) (front ys)
  let u := before.setNewer (front ys) (back xs)
  have hstore : SameStore l u := (sameStore_setOlder _ _).trans (sameStore_setNewer _ _)
  have hunlink : l.unlink? i = some u := by
    unfold unlink?
    rw [hnode, Option.or_none]
    rfl
  have hbackNot : ∀ j, j ∉ positions xs → back xs ≠ some j := fun j hj hb =>
    hj (mem_positions_of_back hb)
  have hfrontNot : ∀ j, j ∉ positions ys → front ys ≠ some j := by
    intro j hj hf
    cases ys with
    | nil => cases hf
    | cons p ys => exact hj (by simp_all)
  refine ⟨u, hunlink, ⟨?_, ?_, ?_⟩, hstore, ?_⟩
  · refine (linked_append u none none).2 ⟨?_, ?_⟩
    · rw [Option.or_none]
      refine (setOlder_before hbefore hxs (front ys)).congr fun j hj => ?_
      exact node?_setNewer _ (hfrontNot j (hsplit j hj))
    · rw [Option.or_none]
      refine setNewer_behind (Linked.congr hbehind fun j hj => ?_) hys (back xs)
      exact node?_setOlder _ (hbackNot j fun hj' => hsplit j hj' hj)
  · show (before.setNewer _ _).newest = _
    rw [newest_setNewer]
    cases xs with
    | nil => rfl
    | cons p xs =>
      obtain ⟨j, hj⟩ : ∃ j, back (p :: xs) = some j := by simp [back_cons, Option.or_some]
      show (l.setOlder (back (p :: xs)) _).newest = _
      rw [hj]
      exact h.newest
  · cases ys with
    | nil => rw [List.append_nil]; rfl
    | cons p ys =>
      show (l.setOlder _ _).oldest = _
      rw [oldest_setOlder, h.oldest]
      simp [back_append, back_cons]
  · intro j hj
    rw [positions_append, List.mem_append, not_or] at hj
    show (before.setNewer _ _).node? j = _
    rw [node?_setNewer _ (hfrontNot j hj.2)]
    exact node?_setOlder _ (hbackNot j hj.1)

/-! ### Putting a node at the start -/

theorem node?_setFront (l : RecencyList α) (h : l.newest ≠ some j) :
    (l.setFront i).node? j = l.node? j := by
  unfold setFront
  cases hnewest : l.newest with
  | none => rfl
  | some head => exact node?_updateNode_ne _ fun hj => h (hnewest.trans (congrArg some hj))

theorem sameStore_setFront : SameStore l (l.setFront i) := by
  unfold setFront
  cases l.newest with
  | none => exact ⟨rfl, rfl, rfl⟩
  | some head => exact ⟨size_updateNode _, rfl, rfl⟩

/-- A node that has the old order behind it can become the start. -/
theorem setFront_threads (h : l.Threads xs) (hnodup : (positions ((i, v) :: xs)).Nodup)
    (hnode : l.node? i = some ⟨v, none, front xs⟩) : (l.setFront i).Threads ((i, v) :: xs) := by
  obtain ⟨hi, hxs⟩ := List.nodup_cons.1 hnodup
  refine ⟨⟨?_, ?_⟩, rfl, ?_⟩
  · rw [node?_setFront, hnode, Option.or_none]
    rw [h.newest]
    intro hfront
    cases xs with
    | nil => cases hfront
    | cons p xs => exact hi (by simp_all)
  · cases xs with
    | nil => trivial
    | cons p xs =>
      -- the change of the old start is the only one that the old order sees
      have hold := h.linked.setNewer hxs (some i)
      refine hold.congr fun j _ => ?_
      unfold setFront
      rw [h.newest]
      rfl
  · show (l.oldest <|> some i) = _
    rw [h.oldest, back_cons]
    cases back xs <;> rfl

end JsonFilter.Cache.RecencyList
