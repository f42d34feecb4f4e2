import JsonFilter.Cache.ProgramCache

/-!
# The cache does not look at its programs

A cache counts, orders, leases and sweeps entries, and it hands programs out, but nothing that it does
depends on what a program is.  This file says so once for every operation: whatever is put in the place
of the programs, the operation does to the cache with the new programs what it does to the other one
(`ProgramCache.map`).  So two caches that differ in their programs only go the same way (`Twin`).
-/

namespace JsonFilter.Cache

/-! ### Recency lists -/

section Lists

variable {α β : Type}

/-- Another value, with the same neighbours. -/
def Node.map (f : α → β) (n : Node α) : Node β := ⟨f n.value, n.newer, n.older⟩

namespace RecencyList

/-- Other values at the same positions and in the same order. -/
def map (f : α → β) (l : RecencyList α) : RecencyList β where
  nodes := l.nodes.map (Option.map (Node.map f))
  free := l.free
  newest := l.newest
  oldest := l.oldest
  size := l.size

variable (f : α → β) (l : RecencyList α)

theorem node?_map (i : Nat) : (l.map f).node? i = (l.node? i).map (Node.map f) := by
  unfold node? map
  rw [Array.getElem?_map, Option.join_map_eq_map_join]

theorem get?_map (i : Nat) : (l.map f).get? i = (l.get? i).map f := by
  unfold get?
  rw [node?_map, Option.map_map, Option.map_map]
  rfl

theorem newer?_map (i : Nat) : (l.map f).newer? i = l.newer? i := by
  unfold newer?
  rw [node?_map]
  cases l.node? i <;> rfl

variable {f}

theorem updateNode_map {g : Node α → Node α} {g' : Node β → Node β}
    (h : ∀ n, g' (n.map f) = (g n).map f) (i : Nat) :
    (l.map f).updateNode i g' = (l.updateNode i g).map f := by
  have hnodes : (l.nodes.map (Option.map (Node.map f))).modify i (Option.map g') =
      (l.nodes.modify i (Option.map g)).map (Option.map (Node.map f)) := by
    refine Array.ext_getElem? fun j => ?_
    rw [Array.getElem?_modify, Array.getElem?_map, Array.getElem?_map, Array.getElem?_modify]
    split
    · rcases l.nodes[j]? with _ | _ | n
      · rfl
      · rfl
      · exact congrArg (some ∘ some) (h n)
    · rfl
  unfold updateNode map
  rw [hnodes]

theorem modify_map {g : α → α} {g' : β → β} (h : ∀ a, g' (f a) = f (g a)) (i : Nat) :
    (l.map f).modify i g' = (l.modify i g).map f :=
  updateNode_map l (fun n => congrArg (Node.mk · n.newer n.older) (h n.value)) i

variable (f)

theorem setOlder_map (i target : Option Nat) :
    (l.map f).setOlder i target = (l.setOlder i target).map f := by
  cases i with
  | none => rfl
  | some i =>
    refine updateNode_map l (fun n => ?_) i
    rfl

theorem setNewer_map (i target : Option Nat) :
    (l.map f).setNewer i target = (l.setNewer i target).map f := by
  cases i with
  | none => rfl
  | some i =>
    refine updateNode_map l (fun n => ?_) i
    rfl

theorem unlink?_map (i : Nat) : (l.map f).unlink? i = (l.unlink? i).map (map f) := by
  unfold unlink?
  rw [node?_map, Option.map_map, Option.map_map]
  refine Option.map_congr fun n _ => ?_
  show ((l.map f).setOlder n.newer n.older).setNewer n.older n.newer = _
  rw [setOlder_map, setNewer_map]
  rfl

theorem setFront_map (i : Nat) : (l.map f).setFront i = (l.setFront i).map f := by
  have hlinked : ∀ head, ((l.map f).updateNode head fun n => { n with newer := some i }) =
      (l.updateNode head fun n => { n with newer := some i }).map f := by
    intro head
    refine updateNode_map l (fun n => ?_) head
    rfl
  have hnewest : (l.map f).newest = l.newest := rfl
  unfold setFront
  rw [hnewest]
  cases l.newest with
  | none => rfl
  | some head =>
    dsimp only
    rw [hlinked]
    rfl

/-- The same for a node that is new and makes the list longer. -/
theorem setFront_withSize_map (i size : Nat) :
    ({ (l.map f).setFront i with size } : RecencyList β) = map f { l.setFront i with size } := by
  rw [setFront_map]
  rfl

theorem pushFront_map (a : α) :
    (l.map f).pushFront (f a) = Prod.map id (map f) (l.pushFront a) := by
  have hfree : (l.map f).free = l.free := rfl
  unfold pushFront
  rw [hfree]
  cases l.free with
  | nil =>
    let stored : RecencyList α :=
      { l with nodes := l.nodes.push (some ⟨a, none, l.newest⟩), free := [] }
    have hstored : stored.map f =
        { l.map f with nodes := (l.map f).nodes.push (some ⟨f a, none, l.newest⟩), free := [] } :=
      congrArg (RecencyList.mk · [] l.newest l.oldest l.size) Array.map_push
    have hsize : l.nodes.size = (l.map f).nodes.size := Array.size_map.symm
    have hdone := setFront_withSize_map f stored l.nodes.size (l.size + 1)
    rw [hstored] at hdone
    refine Prod.ext hsize.symm (Eq.trans ?_ hdone)
    rw [hsize]
    rfl
  | cons i free =>
    let stored : RecencyList α :=
      { l with nodes := l.nodes.setIfInBounds i (some ⟨a, none, l.newest⟩), free }
    have hstored : stored.map f =
        { l.map f with
          nodes := (l.map f).nodes.setIfInBounds i (some ⟨f a, none, l.newest⟩), free } :=
      congrArg (RecencyList.mk · free l.newest l.oldest l.size) Array.map_setIfInBounds
    have hdone := setFront_withSize_map f stored i (l.size + 1)
    rw [hstored] at hdone
    exact Prod.ext rfl hdone

theorem moveToFront_map (i : Nat) : (l.map f).moveToFront i = (l.moveToFront i).map f := by
  have hnewest : (l.map f).newest = l.newest := rfl
  unfold moveToFront
  rw [hnewest, unlink?_map]
  split
  · rfl
  · cases l.unlink? i with
    | none => rfl
    | some u =>
      have hlinks : ((u.map f).updateNode i fun n => { n with newer := none, older := u.newest }) =
          (u.updateNode i fun n => { n with newer := none, older := u.newest }).map f := by
        refine updateNode_map u (fun n => ?_) i
        rfl
      show ((u.map f).updateNode i fun n => { n with newer := none, older := u.newest }).setFront i = _
      rw [hlinks, setFront_map]

theorem remove_map (i : Nat) :
    (l.map f).remove i = Prod.map (Option.map f) (map f) (l.remove i) := by
  unfold remove
  rw [node?_map, unlink?_map]
  cases l.node? i with
  | none => rfl
  | some n =>
    cases l.unlink? i with
    | none => rfl
    | some u =>
      have hnodes : (u.map f).nodes.setIfInBounds i none =
          (u.nodes.setIfInBounds i none).map (Option.map (Node.map f)) := by
        rw [Array.map_setIfInBounds]
        rfl
      dsimp only [Option.map]
      rw [hnodes]
      rfl

theorem walk_map (steps : Nat) (i : Option Nat) :
    (l.map f).walk steps i = (l.walk steps i).map (Prod.map id f) := by
  induction steps generalizing i with
  | zero => cases i <;> rfl
  | succ steps ih =>
    cases i with
    | none => rfl
    | some i =>
      dsimp only [walk]
      rw [node?_map]
      cases l.node? i with
      | none => rfl
      | some n => exact congrArg (_ :: ·) (ih n.older)

theorem entries_map : (l.map f).entries = l.entries.map (Prod.map id f) := by
  have hsize : (l.map f).nodes.size = l.nodes.size := Array.size_map
  unfold entries
  rw [hsize]
  exact walk_map f l l.nodes.size l.newest

theorem toList_map : (l.map f).toList = l.toList.map f := by
  unfold toList
  rw [entries_map, List.map_map, List.map_map]
  rfl

end RecencyList
end Lists

/-! ### Caches -/

section Caches

variable {K P Q : Type}

/-- An entry with another program. -/
def Entry.map (f : P → Q) (e : Entry K P) : Entry K Q := ⟨e.number, e.key, f e.program, e.locked⟩

/-- A slot with another program. -/
def Slot.map (f : P → Q) (s : Slot K P) : Slot K Q := ⟨s.entry.map f, s.refs, s.uses, s.compileTime⟩

namespace ProgramCache

/-- **Other programs** in the place of those of a cache, the retired ones included. -/
def map (f : P → Q) (c : ProgramCache K P) : ProgramCache K Q where
  policy := c.policy
  capacity := c.capacity
  index := c.index
  recency := c.recency.map (Slot.map f)
  counts := c.counts
  retired := c.retired.map f

variable (f : P → Q) (c : ProgramCache K P)

/-! ### What can be seen of a cache -/

theorem slots_map : (c.map f).slots = c.slots.map (Slot.map f) := c.recency.toList_map (Slot.map f)

theorem keys_map : (c.map f).keys = c.keys := by
  unfold keys
  rw [slots_map, List.map_map]
  rfl

theorem stats_map : (c.map f).stats = c.stats := by
  have hbusy : ((c.map f).slots.filter fun s => 0 < s.refs).length =
      (c.slots.filter fun s => 0 < s.refs).length := by
    rw [slots_map, List.filter_map, List.length_map]
    rfl
  unfold stats
  rw [hbusy]
  rfl

theorem isBusyAt_map (i : Nat) : (c.map f).isBusyAt i = c.isBusyAt i := by
  have hget : (c.map f).recency.get? i = (c.recency.get? i).map (Slot.map f) :=
    c.recency.get?_map (Slot.map f) i
  unfold isBusyAt
  rw [hget]
  cases c.recency.get? i <;> rfl

theorem idlePositions_map : (c.map f).idlePositions = c.idlePositions := by
  have hentries : (c.map f).recency.entries = c.recency.entries.map (Prod.map id (Slot.map f)) :=
    c.recency.entries_map (Slot.map f)
  unfold idlePositions
  rw [hentries, List.filter_map, List.map_map]
  rfl

/-! ### Single entries -/

theorem retire_map (gone : List (Entry K P)) :
    (c.map f).retire (gone.map (Entry.map f)) = (c.retire gone).map f := by
  have hretired : c.retired.map f ++ (gone.map (Entry.map f)).map Entry.program =
      (c.retired ++ gone.map Entry.program).map f := by
    rw [List.map_append, List.map_map, List.map_map]
    rfl
  unfold retire
  exact congrArg (ProgramCache.mk c.policy c.capacity c.index _ c.counts) hretired

/-- A changed slot with another program. -/
theorem modify_map {g : Slot K P → Slot K P} {g' : Slot K Q → Slot K Q}
    (h : ∀ s, g' (s.map f) = (g s).map f) (i : Nat) :
    ({ c.map f with recency := (c.map f).recency.modify i g' } : ProgramCache K Q) =
      map f { c with recency := c.recency.modify i g } := by
  have hrecency : (c.recency.map (Slot.map f)).modify i g' =
      (c.recency.modify i g).map (Slot.map f) := c.recency.modify_map h i
  exact congrArg (ProgramCache.mk c.policy c.capacity c.index · c.counts _) hrecency

theorem leaseAt_map (i : Nat) : (c.map f).leaseAt i = Prod.map id (map f) (c.leaseAt i) := by
  have hmoved : (c.map f).recency.moveToFront i =
      (c.recency.moveToFront i).map (Slot.map f) := c.recency.moveToFront_map (Slot.map f) i
  unfold leaseAt
  dsimp only
  rw [hmoved, RecencyList.get?_map]
  cases (c.recency.moveToFront i).get? i with
  | none => rfl
  | some s =>
    refine Prod.ext rfl ?_
    exact modify_map f { c with recency := c.recency.moveToFront i } (fun _ => rfl) i

theorem publish_map (key : K) (program : P) (compileTime : Duration) :
    (c.map f).publish key (f program) compileTime =
      Prod.map id (map f) (c.publish key program compileTime) := by
  let slot : Slot K P :=
    { entry := ⟨c.counts.inserts, key, program, false⟩, refs := 1, uses := 1, compileTime }
  have hpushed : (c.map f).recency.pushFront (slot.map f) =
      Prod.map id (RecencyList.map (Slot.map f)) (c.recency.pushFront slot) :=
    c.recency.pushFront_map (Slot.map f) slot
  show (Lease.mk _ key, ({ c.map f with
    recency := ((c.map f).recency.pushFront (slot.map f)).2
    counts := _
    index := (key, ((c.map f).recency.pushFront (slot.map f)).1) :: _ } : ProgramCache K Q)) = _
  rw [hpushed]
  rfl

section Keyed

variable [DecidableEq K]

/-! ### Leases -/

theorem acquire_map (key : K) : (c.map f).acquire key = Prod.map id (map f) (c.acquire key) := by
  have hposition : (c.map f).position? key = c.position? key := rfl
  unfold acquire
  rw [hposition]
  cases c.position? key with
  | none => rfl
  | some i =>
    dsimp only
    rw [leaseAt_map]
    rcases c.leaseAt i with ⟨_ | lease, c'⟩ <;> rfl

theorem release_map (lease : Lease K) : (c.map f).release lease = (c.release lease).map f := by
  have hposition : (c.map f).position? lease.key = c.position? lease.key := rfl
  unfold release
  rw [hposition]
  cases c.position? lease.key with
  | none => rfl
  | some i =>
    refine modify_map f c (fun s => ?_) i
    show (if s.entry.number = lease.number then _ else _) = _
    split <;> rfl

/-! ### Sweeping -/

theorem removeAt_map (i : Nat) :
    (c.map f).removeAt i = Prod.map (Option.map (Entry.map f)) (map f) (c.removeAt i) := by
  have hremoved : (c.map f).recency.remove i = Prod.map (Option.map (Slot.map f))
      (RecencyList.map (Slot.map f)) (c.recency.remove i) := c.recency.remove_map (Slot.map f) i
  unfold removeAt
  rw [hremoved]
  rcases c.recency.remove i with ⟨_ | s, recency⟩ <;> rfl

theorem sweepFrom_map (steps : Nat) (i : Option Nat) :
    sweepFrom steps i (c.map f) =
      Prod.map (List.map (Entry.map f)) (map f) (sweepFrom steps i c) := by
  induction steps generalizing i c with
  | zero => rfl
  | succ steps ih =>
    cases i with
    | none => rfl
    | some i =>
      have hnewer : (c.map f).recency.newer? i = c.recency.newer? i :=
        c.recency.newer?_map (Slot.map f) i
      have hsize : (c.map f).size = c.size := rfl
      have hcapacity : (c.map f).capacity = c.capacity := rfl
      have hpolicy : (c.map f).policy = c.policy := rfl
      unfold sweepFrom
      rw [hnewer, hsize, hcapacity, hpolicy, isBusyAt_map, removeAt_map]
      split
      · rfl
      · split
        · cases c.policy with
          | stopAtBusy => rfl
          | skipBusy => exact ih c _
        · rcases c.removeAt i with ⟨_ | entry, c'⟩
          · exact ih c' _
          · have hrest := ih
              { c' with counts := { c'.counts with evictions := c'.counts.evictions + 1 } }
              (c.recency.newer? i)
            have hgone := congrArg (fun swept => entry.map f :: swept.1) hrest
            have hleft := congrArg Prod.snd hrest
            exact Prod.ext hgone hleft

theorem sweep_map :
    (c.map f).sweep = Prod.map (List.map (Entry.map f)) (map f) c.sweep :=
  sweepFrom_map f c c.size c.recency.oldest

theorem evict_map : (c.map f).evict = Prod.map id (map f) c.evict := by
  unfold evict
  rw [sweep_map]
  exact Prod.ext (List.length_map _) (retire_map f c.sweep.2 c.sweep.1)

theorem removeAll_map (positions : List Nat) :
    removeAll positions (c.map f) =
      Prod.map (List.map (Entry.map f)) (map f) (removeAll positions c) := by
  induction positions generalizing c with
  | nil => rfl
  | cons i rest ih =>
    unfold removeAll
    rw [removeAt_map]
    rcases c.removeAt i with ⟨_ | entry, c'⟩
    · exact ih c'
    · dsimp only [Prod.map, Option.map]
      rw [ih]
      rfl

theorem clear_map : (c.map f).clear = Prod.map id (map f) c.clear := by
  unfold clear
  rw [idlePositions_map, removeAll_map]
  generalize removeAll c.idlePositions c = removed
  exact Prod.ext (List.length_map _) (retire_map f removed.2 removed.1)

/-! ### Inserting -/

theorem publishAndSweep_map (key : K) (program : P) (compileTime : Duration) :
    (c.map f).publishAndSweep key (f program) compileTime =
      Prod.map id (map f) (c.publishAndSweep key program compileTime) := by
  unfold publishAndSweep
  rw [publish_map]
  dsimp only [Prod.map]
  rw [evict_map]
  rfl

theorem insert_map (key : K) (program : P) (compileTime : Duration) :
    (c.map f).insert key (f program) compileTime =
      Prod.map id (map f) (c.insert key program compileTime) := by
  have hposition : (c.map f).position? key = c.position? key := rfl
  unfold insert
  rw [hposition]
  cases c.position? key with
  | none => exact publishAndSweep_map f c key program compileTime
  | some i =>
    dsimp only
    rw [leaseAt_map]
    rcases c.leaseAt i with ⟨_ | lease, c'⟩
    · exact publishAndSweep_map f
        { c' with index := c'.index.filter fun p => p.1 ≠ key } key program compileTime
    · have hretired : c'.retired.map f ++ [f program] = (c'.retired ++ [program]).map f := by
        rw [List.map_append]
        rfl
      exact congrArg (fun retired => (lease, { c'.map f with retired })) hretired

/-! ### Locks -/

theorem leased?_map (lease : Lease K) :
    (c.map f).leased? lease = (c.leased? lease).map (Prod.map id (Entry.map f)) := by
  have hget : ∀ i, (c.map f).recency.get? i = (c.recency.get? i).map (Slot.map f) :=
    c.recency.get?_map (Slot.map f)
  have hposition : (c.map f).position? lease.key = c.position? lease.key := rfl
  unfold leased?
  rw [hposition]
  cases c.position? lease.key with
  | none => rfl
  | some i =>
    show ((c.map f).recency.get? i).bind _ = ((c.recency.get? i).bind _).map _
    rw [hget]
    cases c.recency.get? i with
    | none => rfl
    | some s =>
      show (if s.entry.number = lease.number then _ else _) = Option.map _ (if _ then _ else _)
      split <;> rfl

theorem updateLeased_map {g : Entry K P → Entry K P} {g' : Entry K Q → Entry K Q}
    (h : ∀ e, g' (e.map f) = (g e).map f) (lease : Lease K) :
    (c.map f).updateLeased lease g' = (c.updateLeased lease g).map f := by
  unfold updateLeased
  rw [leased?_map]
  cases c.leased? lease with
  | none => rfl
  | some leased =>
    refine modify_map f c (fun s => ?_) leased.1
    exact congrArg (Slot.mk · s.refs s.uses s.compileTime) (h s.entry)

theorem tryLock_map (lease : Lease K) :
    (c.map f).tryLock lease = (c.tryLock lease).map (Prod.map f (map f)) := by
  have hlocked : (c.map f).updateLeased lease (fun e => { e with locked := true }) =
      (c.updateLeased lease fun e => { e with locked := true }).map f := by
    refine updateLeased_map f c (fun e => ?_) lease
    rfl
  unfold tryLock
  rw [leased?_map]
  cases c.leased? lease with
  | none => rfl
  | some leased =>
    dsimp only [Option.map]
    rw [hlocked]
    show (if leased.2.locked then _ else _) = _
    split <;> rfl

theorem unlock_map (lease : Lease K) (program : P) :
    (c.map f).unlock lease (f program) = (c.unlock lease program).map f := by
  refine updateLeased_map f c (fun e => ?_) lease
  rfl

end Keyed

/-! ### Caches that differ in their programs only -/

/-- **Two caches differ in their programs only**, which may be of different kinds. -/
def Twin (c : ProgramCache K P) (d : ProgramCache K Q) : Prop :=
  c.map (fun _ => ()) = d.map fun _ => ()

namespace Twin

variable {c : ProgramCache K P} {d : ProgramCache K Q}

/-- What an operation does to a cache without its programs, it does to both of two twins. -/
theorem of_map {α : Type} {p : α × ProgramCache K P} {q : α × ProgramCache K Q}
    {u : α × ProgramCache K Unit} (hp : u = Prod.map id (map fun _ => ()) p)
    (hq : u = Prod.map id (map fun _ => ()) q) : p.1 = q.1 ∧ p.2.Twin q.2 := by
  have hsame := hp.symm.trans hq
  exact ⟨congrArg Prod.fst hsame, congrArg Prod.snd hsame⟩

theorem keys (h : c.Twin d) : c.keys = d.keys := by
  rw [← keys_map (fun _ => ()) c, h, keys_map]

theorem stats (h : c.Twin d) : c.stats = d.stats := by
  rw [← stats_map (fun _ => ()) c, h, stats_map]

/-- Caches without entries are twins. -/
theorem empty (capacity : Nat) (policy : SweepPolicy) :
    (ProgramCache.empty capacity policy : ProgramCache K P).Twin
      (ProgramCache.empty capacity policy : ProgramCache K Q) := by
  unfold Twin map RecencyList.map ProgramCache.empty RecencyList.empty
  rw [Array.map_empty, Array.map_empty]
  rfl

theorem withCapacity (h : c.Twin d) (capacity : Nat) :
    ({ c with capacity } : ProgramCache K P).Twin { d with capacity } := by
  have hresized := congrArg (fun e : ProgramCache K Unit => { e with capacity }) h
  exact hresized

variable [DecidableEq K]

theorem acquire (h : c.Twin d) (key : K) :
    (c.acquire key).1 = (d.acquire key).1 ∧ (c.acquire key).2.Twin (d.acquire key).2 :=
  of_map (acquire_map _ c key) (h ▸ acquire_map _ d key)

theorem insert (h : c.Twin d) (key : K) (program : P) (program' : Q) (compileTime : Duration) :
    (c.insert key program compileTime).1 = (d.insert key program' compileTime).1 ∧
      (c.insert key program compileTime).2.Twin (d.insert key program' compileTime).2 :=
  of_map (insert_map _ c key program compileTime) (h ▸ insert_map _ d key program' compileTime)

theorem evict (h : c.Twin d) : c.evict.2.Twin d.evict.2 :=
  (of_map (evict_map _ c) (h ▸ evict_map _ d)).2

theorem clear (h : c.Twin d) : c.clear.2.Twin d.clear.2 :=
  (of_map (clear_map _ c) (h ▸ clear_map _ d)).2

theorem release (h : c.Twin d) (lease : Lease K) : (c.release lease).Twin (d.release lease) := by
  unfold Twin
  rw [← release_map, ← release_map, h]

theorem unlock (h : c.Twin d) (lease : Lease K) (program : P) (program' : Q) :
    (c.unlock lease program).Twin (d.unlock lease program') := by
  unfold Twin
  rw [← unlock_map, ← unlock_map, h]

/-- An entry is locked in both caches or in neither. -/
theorem tryLock_cases (h : c.Twin d) (lease : Lease K) :
    c.tryLock lease = none ∧ d.tryLock lease = none ∨
      ∃ program c' program' d', c.tryLock lease = some (program, c') ∧
        d.tryLock lease = some (program', d') ∧ c'.Twin d' := by
  have hsame := tryLock_map (fun _ : P => ()) c lease
  rw [h, tryLock_map] at hsame
  cases hc : c.tryLock lease with
  | none =>
    rw [hc] at hsame
    exact .inl ⟨rfl, Option.map_eq_none_iff.1 hsame⟩
  | some locked =>
    rw [hc] at hsame
    obtain ⟨locked', hd, htwin⟩ := Option.map_eq_some_iff.1 hsame
    exact .inr ⟨_, _, _, _, rfl, hd, (congrArg Prod.snd htwin).symm⟩

end Twin
end ProgramCache
end Caches
end JsonFilter.Cache
