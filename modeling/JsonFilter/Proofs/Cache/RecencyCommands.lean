import JsonFilter.Proofs.Cache.RecencyOrder

/-!
# A recency list in use

Whoever has a recency list may push values and may move or remove what stands at any position, also where no
value stands any more or none ever stood.  This file says that all this is done to a plain list of positions
and values, whatever the commands are.

## Indices

The operations follow links into the arena without asking whether there is a place.  `pushFrontChecked?`,
`moveToFrontChecked?` and `removeChecked?` are the same operations with every index tested: one that lies
outside the arena stops them with `none`, and a link to an empty place ends a surgery half done.  On a list
that arranges something neither happens, and they do what the operations do.

* `Arranges.unlinkChecked?_eq` — the links of a live position lead to live positions.
* **`Arranges.performChecked?_eq`** — no command stops.

## Refinement

`ListStep` says what a command does to a plain list and what it answers.

* `Arranges.perform_listStep` — a command does that to the list that is arranged.
* `WellFormed`, `Mirrors` — what holds of the links, and what can be read off them.
* **`commands_act_on_a_plain_list`** — any run of commands, from the empty list on.
-/

namespace JsonFilter.Cache.RecencyList

variable {α : Type} {l : RecencyList α} {i j : Nat} {v : α} {xs ys zs : List (Nat × α)}

/-! ### Operations with tested indices -/

/-- Changes the node at an index, if there is one; the index must lie in the arena. -/
def changeAt? (l : RecencyList α) (i : Nat) (f : Node α → Node α) : Option (RecencyList α) :=
  if i < l.nodes.size then some (l.updateNode i f) else none

/-- Changes the node at an index, and says whether there was one; the index must lie in the arena. -/
def relink? (l : RecencyList α) (i : Nat) (f : Node α → Node α) : Option (Bool × RecencyList α) :=
  match l.nodes[i]? with
  | none => none
  | some place => some (place.isSome, l.updateNode i f)

/-- Sets what comes behind a position; without a position, the start of the list. -/
def setOlderChecked? (l : RecencyList α) (i target : Option Nat) : Option (Bool × RecencyList α) :=
  match i with
  | some i => l.relink? i fun n => { n with older := target }
  | none => some (true, { l with newest := target })

/-- Sets what comes before a position; without a position, the end of the list. -/
def setNewerChecked? (l : RecencyList α) (i target : Option Nat) : Option (Bool × RecencyList α) :=
  match i with
  | some i => l.relink? i fun n => { n with newer := target }
  | none => some (true, { l with oldest := target })

/-- Joins the neighbours of a position to each other; says whether that was done to the end. -/
def unlinkChecked? (l : RecencyList α) (i : Nat) : Option (Bool × RecencyList α) :=
  match l.node? i with
  | none => some (false, l)
  | some n =>
    match l.setOlderChecked? n.newer n.older with
    | none => none
    | some (false, half) => some (false, half)
    | some (true, half) => half.setNewerChecked? n.older n.newer

/-- Makes a position the start of the list. -/
def setFrontChecked? (l : RecencyList α) (i : Nat) : Option (RecencyList α) :=
  let linked := match l.newest with
    | some head => l.changeAt? head fun n => { n with newer := some i }
    | none => some l
  linked.map fun linked => { linked with newest := some i, oldest := l.oldest <|> some i }

/-- Adds a value as the most recently used; gives its position. -/
def pushFrontChecked? (l : RecencyList α) (value : α) : Option (Nat × RecencyList α) :=
  let node : Node α := ⟨value, none, l.newest⟩
  let finish (i : Nat) (stored : RecencyList α) : Option (Nat × RecencyList α) :=
    (stored.setFrontChecked? i).map fun l' => (i, { l' with size := l.size + 1 })
  match l.free with
  | i :: free =>
    if i < l.nodes.size then
      finish i { l with nodes := l.nodes.setIfInBounds i (some node), free := free }
    else none
  | [] => finish l.nodes.size { l with nodes := l.nodes.push (some node) }

/-- Makes the value at a position the most recently used. -/
def moveToFrontChecked? (l : RecencyList α) (i : Nat) : Option (RecencyList α) :=
  if l.newest = some i then some l
  else
    match l.unlinkChecked? i with
    | none => none
    | some (false, u) => some u
    | some (true, u) =>
      (u.changeAt? i fun n => { n with newer := none, older := u.newest }).bind
        fun w => w.setFrontChecked? i

/-- Removes the value at a position; the size must not be zero. -/
def removeChecked? (l : RecencyList α) (i : Nat) : Option (Option α × RecencyList α) :=
  match l.unlinkChecked? i with
  | none => none
  | some (false, u) => some (none, u)
  | some (true, u) =>
    match u.nodes[i]? with
    | none => none
    | some none => some (none, u)
    | some (some n) =>
      if u.size = 0 then none
      else some (some n.value,
        { u with nodes := u.nodes.setIfInBounds i none, free := i :: u.free, size := u.size - 1 })

/-! ### No index lies outside -/

/-- A live position lies in the arena. -/
theorem getElem?_of_node? {n : Node α} (h : l.node? i = some n) : l.nodes[i]? = some (some n) :=
  Option.join_eq_some_iff.1 h

/-- A change of a node neither makes nor ends one. -/
@[simp]
theorem isSome_node?_updateNode (f : Node α → Node α) :
    ((l.updateNode i f).node? j).isSome = (l.node? j).isSome := by
  rw [node?_updateNode]
  split
  · exact Option.isSome_map
  · rfl

theorem isSome_node?_setOlder (at? target : Option Nat) :
    ((l.setOlder at? target).node? j).isSome = (l.node? j).isSome := by
  cases at? with
  | none => rfl
  | some i => exact isSome_node?_updateNode _

theorem changeAt?_eq (h : i < l.nodes.size) (f : Node α → Node α) :
    l.changeAt? i f = some (l.updateNode i f) := if_pos h

theorem relink?_eq (h : (l.node? i).isSome) (f : Node α → Node α) :
    l.relink? i f = some (true, l.updateNode i f) := by
  obtain ⟨n, hn⟩ := Option.isSome_iff_exists.1 h
  unfold relink?
  rw [getElem?_of_node? hn]
  rfl

theorem setOlderChecked?_eq {at? : Option Nat} (h : ∀ i ∈ at?, (l.node? i).isSome)
    (target : Option Nat) : l.setOlderChecked? at? target = some (true, l.setOlder at? target) := by
  cases at? with
  | none => rfl
  | some i => exact relink?_eq (h i rfl) _

theorem setNewerChecked?_eq {at? : Option Nat} (h : ∀ i ∈ at?, (l.node? i).isSome)
    (target : Option Nat) : l.setNewerChecked? at? target = some (true, l.setNewer at? target) := by
  cases at? with
  | none => rfl
  | some i => exact relink?_eq (h i rfl) _

theorem setFrontChecked?_eq (h : ∀ head ∈ l.newest, head < l.nodes.size) :
    l.setFrontChecked? i = some (l.setFront i) := by
  unfold setFrontChecked? setFront
  cases hnewest : l.newest with
  | none => rfl
  | some head =>
    dsimp only
    rw [changeAt?_eq (h head hnewest)]
    rfl

namespace Arranges

/-- **The live positions are those of the list.** -/
theorem isSome_node?_iff (h : l.Arranges xs) : (l.node? i).isSome ↔ i ∈ positions xs := by
  refine ⟨fun hlive => ?_, fun hi => ?_⟩
  · by_contra hi
    rw [h.dead i hi] at hlive
    cases hlive
  · obtain ⟨⟨_, v⟩, hmem, rfl⟩ := List.mem_map.1 hi
    have hget := h.linked.get? hmem
    unfold RecencyList.get? at hget
    obtain ⟨n, hn, -⟩ := Option.map_eq_some_iff.1 hget
    rw [hn]
    rfl

/-- A live position splits the list. -/
theorem split_of_mem (h : l.Arranges xs) (hi : i ∈ positions xs) :
    ∃ ys v zs, xs = ys ++ (i, v) :: zs ∧
      l.node? i = some ⟨v, back ys, front zs⟩ := by
  obtain ⟨⟨_, v⟩, hmem, rfl⟩ := List.mem_map.1 hi
  obtain ⟨ys, zs, rfl⟩ := List.append_of_mem hmem
  obtain ⟨-, hnode, -⟩ := (linked_append l none none).1 h.linked
  rw [Option.or_none, Option.or_none] at hnode
  exact ⟨ys, v, zs, rfl, hnode⟩

/-- The start is live. -/
theorem newest_lt_size (h : l.Arranges xs) : ∀ head ∈ l.newest, head < l.nodes.size := by
  intro head hhead
  refine h.lt_size ?_
  by_contra hout
  exact h.toThreads.newest_ne hout hhead

/-- **The links of a live position lead to live positions,** so a surgery is done to the end; where
no value stands it is not begun. -/
theorem unlinkChecked?_eq (h : l.Arranges xs) (i : Nat) :
    l.unlinkChecked? i = some (match l.unlink? i with
      | none => (false, l)
      | some u => (true, u)) := by
  unfold unlinkChecked? unlink?
  by_cases hi : i ∈ positions xs
  · obtain ⟨ys, v, zs, rfl, hnode⟩ := h.split_of_mem hi
    have hnewer : ∀ j ∈ back ys, (l.node? j).isSome := fun j hj =>
      h.isSome_node?_iff.2 (by simp [mem_positions_of_back hj])
    have holder : ∀ j ∈ front zs, ((l.setOlder (back ys) (front zs)).node? j).isSome := by
      intro j hj
      rw [isSome_node?_setOlder, h.isSome_node?_iff]
      cases zs with
      | nil => cases hj
      | cons p zs =>
        cases hj
        simp
    rw [hnode]
    dsimp only
    rw [setOlderChecked?_eq hnewer]
    dsimp only
    rw [setNewerChecked?_eq holder]
    rfl
  · rw [h.dead i hi]
    rfl

theorem pushFrontChecked?_eq (h : l.Arranges xs) (v : α) :
    l.pushFrontChecked? v = some (l.pushFront v) := by
  unfold pushFrontChecked? pushFront
  cases hfree : l.free with
  | cons i free =>
    have hlt : i < l.nodes.size := ((h.mem_free i).1 (by rw [hfree]; exact List.mem_cons_self)).1
    dsimp only
    rw [if_pos hlt, setFrontChecked?_eq]
    · rfl
    · intro head hhead
      rw [Array.size_setIfInBounds]
      exact h.newest_lt_size head hhead
  | nil =>
    dsimp only
    rw [setFrontChecked?_eq]
    · rfl
    · intro head hhead
      rw [Array.size_push]
      exact Nat.lt_succ_of_lt (h.newest_lt_size head hhead)

theorem moveToFrontChecked?_eq (h : l.Arranges xs) (i : Nat) :
    l.moveToFrontChecked? i = some (l.moveToFront i) := by
  unfold moveToFrontChecked? moveToFront
  by_cases hfront : l.newest = some i
  · rw [if_pos hfront, if_pos hfront]
  · rw [if_neg hfront, if_neg hfront, h.unlinkChecked?_eq]
    by_cases hi : i ∈ positions xs
    · obtain ⟨ys, v, zs, rfl, -⟩ := h.split_of_mem hi
      obtain ⟨u, hunlink, hthreads, hstore, -⟩ := unlink?_threads h.toThreads h.nodup
      have hlt : ∀ j ∈ positions (ys ++ (i, v) :: zs), j < u.nodes.size := by
        intro j hj
        rw [hstore.slots]
        exact h.lt_size hj
      rw [hunlink]
      dsimp only
      rw [changeAt?_eq (hlt i hi), Option.bind_some, setFrontChecked?_eq]
      intro head hhead
      rw [size_updateNode]
      refine hlt head ?_
      by_contra hout
      refine hthreads.newest_ne (fun hmem => hout ?_) hhead
      rw [positions_append, List.mem_append] at hmem
      rw [positions_append, positions_cons, List.mem_append, List.mem_cons]
      exact hmem.imp_right .inr
    · have hdead : l.unlink? i = none := by
        unfold unlink?
        rw [h.dead i hi]
        rfl
      rw [hdead]

theorem removeChecked?_eq (h : l.Arranges xs) (i : Nat) :
    l.removeChecked? i = some (l.remove i) := by
  unfold removeChecked? remove
  rw [h.unlinkChecked?_eq]
  by_cases hi : i ∈ positions xs
  · obtain ⟨ys, v, zs, rfl, hnode⟩ := h.split_of_mem hi
    have hnodup := (List.perm_middle.map Prod.fst).nodup_iff.1 h.nodup
    have hout : i ∉ positions (ys ++ zs) := (List.nodup_cons.1 hnodup).1
    obtain ⟨u, hunlink, -, hstore, hnodes⟩ := unlink?_threads h.toThreads h.nodup
    have hplace : u.nodes[i]? = some (some ⟨v, back ys, front zs⟩) :=
      getElem?_of_node? ((hnodes i hout).trans hnode)
    have hsize : u.size ≠ 0 := by
      rw [hstore.size, h.size, List.length_append, List.length_cons]
      omega
    rw [hunlink, hnode]
    dsimp only
    rw [hplace]
    dsimp only
    rw [if_neg hsize]
  · have hdead : l.unlink? i = none := by
      unfold unlink?
      rw [h.dead i hi]
      rfl
    rw [hdead, h.dead i hi]

end Arranges

/-! ### Commands -/

/-- What can be done to a recency list. -/
inductive Command (α : Type) where
  | pushFront (value : α)
  | moveToFront (position : Nat)
  | remove (position : Nat)

/-- What a command gives. -/
inductive Answer (α : Type) where
  | pushed (position : Nat)
  | moved
  | removed (value : Option α)

/-- Carries out a command. -/
def perform (l : RecencyList α) : Command α → Answer α × RecencyList α
  | .pushFront v => let (i, l) := l.pushFront v; (.pushed i, l)
  | .moveToFront i => (.moved, l.moveToFront i)
  | .remove i => let (v, l) := l.remove i; (.removed v, l)

/-- Carries out a command with every index tested. -/
def performChecked? (l : RecencyList α) : Command α → Option (Answer α × RecencyList α)
  | .pushFront v => (l.pushFrontChecked? v).map fun (i, l) => (.pushed i, l)
  | .moveToFront i => (l.moveToFrontChecked? i).map fun l => (.moved, l)
  | .remove i => (l.removeChecked? i).map fun (v, l) => (.removed v, l)

/-- Carries out commands in order. -/
def performAll (l : RecencyList α) : List (Command α) → List (Answer α) × RecencyList α
  | [] => ([], l)
  | command :: commands =>
    let (answer, l) := l.perform command
    let (answers, l) := l.performAll commands
    (answer :: answers, l)

/-- Carries out commands in order with every index tested. -/
def performAllChecked? (l : RecencyList α) :
    List (Command α) → Option (List (Answer α) × RecencyList α)
  | [] => some ([], l)
  | command :: commands =>
    match l.performChecked? command with
    | none => none
    | some (answer, l) => (l.performAllChecked? commands).map fun (answers, l) => (answer :: answers, l)

/-- **No command stops.** -/
theorem Arranges.performChecked?_eq (h : l.Arranges xs) (command : Command α) :
    l.performChecked? command = some (l.perform command) := by
  cases command with
  | pushFront v => exact congrArg (Option.map _) (h.pushFrontChecked?_eq v)
  | moveToFront i => exact congrArg (Option.map _) (h.moveToFrontChecked?_eq i)
  | remove i => exact congrArg (Option.map _) (h.removeChecked?_eq i)

/-! ### Plain lists -/

/-- **What a command does to a plain list** of positions and values, and what it gives. -/
inductive ListStep : List (Nat × α) → Command α → Answer α → List (Nat × α) → Prop
  /-- A new value comes first, at a position that is not in use. -/
  | push {xs : List (Nat × α)} {i : Nat} {v : α} (hfresh : i ∉ positions xs) :
    ListStep xs (.pushFront v) (.pushed i) ((i, v) :: xs)
  /-- A pair comes first. -/
  | move {xs ys : List (Nat × α)} {i : Nat} {v : α} :
    ListStep (xs ++ (i, v) :: ys) (.moveToFront i) .moved ((i, v) :: (xs ++ ys))
  /-- There is nothing to move. -/
  | keep {xs : List (Nat × α)} {i : Nat} (hdead : i ∉ positions xs) :
    ListStep xs (.moveToFront i) .moved xs
  /-- A pair leaves. -/
  | take {xs ys : List (Nat × α)} {i : Nat} {v : α} :
    ListStep (xs ++ (i, v) :: ys) (.remove i) (.removed (some v)) (xs ++ ys)
  /-- There is nothing to remove. -/
  | miss {xs : List (Nat × α)} {i : Nat} (hdead : i ∉ positions xs) :
    ListStep xs (.remove i) (.removed none) xs

/-- What commands do to a plain list, one after the other. -/
inductive ListRun : List (Nat × α) → List (Command α) → List (Answer α) → List (Nat × α) → Prop
  | nothing (xs : List (Nat × α)) : ListRun xs [] [] xs
  | step {xs ys zs : List (Nat × α)} {command : Command α} {answer : Answer α}
      {commands : List (Command α)} {answers : List (Answer α)} :
    ListStep xs command answer ys → ListRun ys commands answers zs →
      ListRun xs (command :: commands) (answer :: answers) zs

/-- At a dead position nothing is moved. -/
theorem moveToFront_of_dead (h : l.Arranges xs) (hi : i ∉ positions xs) : l.moveToFront i = l := by
  unfold moveToFront unlink?
  rw [h.dead i hi]
  exact ite_self l

/-- **A command does to the arranged list what it does to a plain one.** -/
theorem Arranges.perform_listStep (h : l.Arranges xs) (command : Command α) :
    ∃ ys, (l.perform command).2.Arranges ys ∧ ListStep xs command (l.perform command).1 ys := by
  cases command with
  | pushFront v =>
    obtain ⟨hfresh, hpushed⟩ := pushFront_arranges h v
    exact ⟨_, hpushed, .push hfresh⟩
  | moveToFront i =>
    by_cases hi : i ∈ positions xs
    · obtain ⟨ys, v, zs, rfl, -⟩ := h.split_of_mem hi
      exact ⟨_, moveToFront_arranges h, .move⟩
    · refine ⟨xs, ?_, .keep hi⟩
      show (l.moveToFront i).Arranges xs
      rw [moveToFront_of_dead h hi]
      exact h
  | remove i =>
    by_cases hi : i ∈ positions xs
    · obtain ⟨ys, v, zs, rfl, -⟩ := h.split_of_mem hi
      obtain ⟨hvalue, hremoved⟩ := remove_arranges h
      refine ⟨_, hremoved, ?_⟩
      show ListStep _ _ (.removed (l.remove i).1) _
      rw [hvalue]
      exact .take
    · have hdead := remove_of_dead (h.dead i hi)
      refine ⟨xs, ?_, ?_⟩
      · show (l.remove i).2.Arranges xs
        rw [hdead]
        exact h
      · show ListStep xs _ (.removed (l.remove i).1) xs
        rw [hdead]
        exact .miss hi

/-- **So does a run of commands,** and none of them stops. -/
theorem Arranges.performAll_listRun (h : l.Arranges xs) (commands : List (Command α)) :
    l.performAllChecked? commands = some (l.performAll commands) ∧
      ∃ ys, (l.performAll commands).2.Arranges ys ∧
        ListRun xs commands (l.performAll commands).1 ys := by
  induction commands generalizing l xs with
  | nil => exact ⟨rfl, xs, h, .nothing xs⟩
  | cons command commands ih =>
    obtain ⟨ys, hys, hstep⟩ := h.perform_listStep command
    obtain ⟨hchecked, zs, hzs, hrun⟩ := ih hys
    refine ⟨?_, zs, hzs, .step hstep hrun⟩
    rw [performAllChecked?, h.performChecked?_eq]
    dsimp only
    rw [hchecked]
    rfl

/-! ### What can be seen of a list -/

/-- At most `steps` positions with their values, from a position towards the newer ones. -/
def walkBack (l : RecencyList α) : Nat → Option Nat → List (Nat × α)
  | 0, _ => []
  | _, none => []
  | steps + 1, some i =>
    match l.node? i with
    | none => []
    | some n => (i, n.value) :: l.walkBack steps n.newer

/-- The walk back along a segment gives its entries, the last one first. -/
theorem Linked.walkBack {older : Option Nat} (h : l.Linked none xs older) (steps : Nat)
    (hsteps : xs.length ≤ steps) : l.walkBack steps (back xs) = xs.reverse := by
  induction xs using List.reverseRecOn generalizing older steps with
  | nil => cases steps <;> rfl
  | append_singleton xs p ih =>
    obtain ⟨hbefore, hnode, -⟩ := (linked_append l none older).1 h
    rw [List.length_append, List.length_singleton] at hsteps
    obtain ⟨steps, rfl⟩ : ∃ n, steps = n + 1 := Nat.exists_eq_succ_of_ne_zero (by omega)
    have hback : back (xs ++ [p]) = some p.1 := by simp [back_append, back_cons]
    rw [Option.or_none] at hnode
    rw [hback, List.reverse_append]
    simp only [RecencyList.walkBack, hnode]
    exact congrArg (p :: ·) (ih hbefore steps (by omega))

/-- **The links are in order.**  Both ways through the list end and meet the same live places, each once; the
free places are the others, each once; and the size counts the live ones. -/
structure WellFormed (l : RecencyList α) : Prop where
  forwards : ∀ steps, l.size ≤ steps → l.walk steps l.newest = l.entries
  backwards : ∀ steps, l.size ≤ steps → l.walkBack steps l.oldest = l.entries.reverse
  nodup : (positions l.entries).Nodup
  live : ∀ i, (l.node? i).isSome ↔ i ∈ positions l.entries
  free_nodup : l.free.Nodup
  mem_free : ∀ i, i ∈ l.free ↔ i < l.nodes.size ∧ l.node? i = none
  size : ((List.range l.nodes.size).filter fun i => (l.node? i).isSome).length = l.size

/-- **What can be asked of a list is read off a plain one.** -/
structure Mirrors (l : RecencyList α) (xs : List (Nat × α)) : Prop where
  size : l.size = xs.length
  newest : l.newest = xs.head?.map Prod.fst
  oldest : l.oldest = xs.getLast?.map Prod.fst
  get? : ∀ i v, l.get? i = some v ↔ (i, v) ∈ xs
  newer? : ∀ ys i v zs, xs = ys ++ (i, v) :: zs → l.newer? i = ys.getLast?.map Prod.fst
  newer?_dead : ∀ i, i ∉ positions xs → l.newer? i = none

namespace Arranges

theorem mirrors (h : l.Arranges xs) : l.Mirrors xs where
  size := h.size
  newest := h.newest
  oldest := h.oldest
  get? _ _ := h.get?_eq_some_iff
  newer? ys i v zs hsplit := by
    subst hsplit
    obtain ⟨-, hnode, -⟩ := (linked_append l none none).1 h.linked
    unfold RecencyList.newer?
    rw [hnode]
    exact Option.or_none
  newer?_dead i hi := by
    unfold RecencyList.newer?
    rw [h.dead i hi]
    rfl

/-- The live places are as many as the size says. -/
theorem length_live (h : l.Arranges xs) :
    ((List.range l.nodes.size).filter fun i => (l.node? i).isSome).length = l.size := by
  have hperm : ((List.range l.nodes.size).filter fun i => (l.node? i).isSome).Perm (positions xs) := by
    refine (List.perm_ext_iff_of_nodup (List.nodup_range.filter _) h.nodup).2 fun i => ?_
    rw [List.mem_filter, List.mem_range, h.isSome_node?_iff]
    exact and_iff_right_of_imp h.lt_size
  rw [hperm.length_eq, h.size, positions, List.length_map]

theorem wellFormed (h : l.Arranges xs) : l.WellFormed where
  forwards steps hsteps := by
    rw [h.size] at hsteps
    rw [h.walk_eq steps hsteps, h.entries_eq]
  backwards steps hsteps := by
    rw [h.size] at hsteps
    rw [h.oldest, h.linked.walkBack steps hsteps, h.entries_eq]
  nodup := by
    rw [h.entries_eq]
    exact h.nodup
  live i := by
    rw [h.entries_eq]
    exact h.isSome_node?_iff
  free_nodup := h.free_nodup
  mem_free i := by
    rw [h.mem_free, ← h.isSome_node?_iff, Bool.not_eq_true, Option.isSome_eq_false_iff,
      Option.isNone_iff_eq_none]
  size := h.length_live

end Arranges

/-- **Commands act on a plain list.**  Whatever values are pushed and whatever positions are named, live ones,
freed ones or ones outside the arena: no index lies outside it, no surgery on the links ends half done, and
the commands answer and leave what they answer and leave with a plain list of positions and values.  There a
pushed value comes first at a position not in use, a live position that is moved comes first with its value,
one that is removed leaves and gives its value, and all other pairs stay; a dead position is left alone.  The
links stay in order throughout, and what is read off them is read off that list. -/
theorem commands_act_on_a_plain_list (commands : List (Command α)) :
    ∃ answers l, (empty : RecencyList α).performAllChecked? commands = some (answers, l) ∧
      (empty : RecencyList α).performAll commands = (answers, l) ∧
      ListRun [] commands answers l.entries ∧ l.WellFormed ∧ l.Mirrors l.entries := by
  obtain ⟨hchecked, xs, h, hrun⟩ := Arranges.performAll_listRun empty_arranges commands
  refine ⟨_, _, hchecked, rfl, ?_, h.wellFormed, ?_⟩
  · rw [h.entries_eq]
    exact hrun
  · rw [h.entries_eq]
    exact h.mirrors

/-- A position that was freed is used again, and is dead in between. -/
example :
    let commands : List (Command Char) :=
      [.pushFront 'a', .pushFront 'b', .remove 0, .moveToFront 0, .pushFront 'c', .moveToFront 1]
    ((empty : RecencyList Char).performAll commands).2.entries = [(1, 'b'), (0, 'c')] := by
  decide

end JsonFilter.Cache.RecencyList
