import JsonFilter.Cache.ProgramCache
import JsonFilter.Proofs.Cache.RecencyOrder

/-!
# The index and the recency list agree

A cache stores every entry twice: its slot sits in the recency list, and the index says at which
position.  All operations change the two separately.  This file shows that they never disagree.

## The invariant

`Keeps c xs` says that the cache `c` keeps the slots of `xs` at their positions, the most recently used
first: the recency list arranges `xs`, no key occurs twice, and the index is a rearrangement of the
pairs of a key and a position (`places`).  Every operation has a lemma that says which list is kept
after it.

* **`Keeps.leaseAt`** — the slot moves to the front and counts one more lease and use.
* **`Keeps.modifyAt`** — a slot changes in its place.
* **`Keeps.removeAt`** — the slot is gone from both.
* **`Keeps.publish`** — a new slot comes first.

## Removals

A sweep and a clearing both take out idle slots, one after the other.  `Sheds c gone c'` says that the
slots `gone`, all of them idle, were taken out and that the others kept their order.
-/

namespace JsonFilter.Cache

open RecencyList (Arranges positions)

variable {K P : Type}

/-! ### Finding a pair in a list of pairs -/

/-- Where no first component occurs twice, looking up is being a member. -/
theorem lookup_eq_some_iff_mem [DecidableEq K] {β : Type} {l : List (K × β)} {k : K} {b : β}
    (hnodup : (l.map Prod.fst).Nodup) : l.lookup k = some b ↔ (k, b) ∈ l := by
  induction l with
  | nil => simp
  | cons p l ih =>
    obtain ⟨k', b'⟩ := p
    obtain ⟨hfresh, hrest⟩ := List.nodup_cons.1 hnodup
    rw [List.lookup_cons]
    by_cases hk : k = k'
    · subst hk
      have habsent : (k, b) ∉ l := fun hmem => hfresh (List.mem_map.2 ⟨_, hmem, rfl⟩)
      simp [habsent, eq_comm]
    · have hne : (k == k') = false := beq_false_of_ne hk
      rw [hne]
      simp [hk, ih hrest]

/-! ### The invariant -/

/-- The lease on an entry. -/
def Entry.lease (e : Entry K P) : Lease K := ⟨e.number, e.key⟩

namespace ProgramCache

/-- The keys of some slots with their positions. -/
def places (xs : List (Nat × Slot K P)) : List (K × Nat) := xs.map fun p => (p.2.entry.key, p.1)

/-- The keys of some slots. -/
def keysOf (xs : List (Nat × Slot K P)) : List K := xs.map fun p => p.2.entry.key

/-- **The joint invariant of index and recency list.**  The cache keeps some slots at their
positions, the most recently used first. -/
structure Keeps (c : ProgramCache K P) (xs : List (Nat × Slot K P)) : Prop where
  arranges : c.recency.Arranges xs
  keys_nodup : (keysOf xs).Nodup
  index_perm : c.index.Perm (places xs)

/-- The index and the recency list agree. -/
def Consistent (c : ProgramCache K P) : Prop := c.Keeps c.recency.entries

variable {c : ProgramCache K P} {xs ys : List (Nat × Slot K P)} {i : Nat} {s : Slot K P}

/-- A cache without entries keeps nothing. -/
theorem empty_keeps (capacity : Nat) (policy : SweepPolicy) :
    (empty capacity policy : ProgramCache K P).Keeps [] :=
  ⟨RecencyList.empty_arranges, List.nodup_nil, List.Perm.nil⟩

namespace Keeps

/-- What is kept is what can be seen. -/
theorem entries_eq (h : c.Keeps xs) : c.recency.entries = xs := h.arranges.entries_eq

theorem consistent (h : c.Keeps xs) : c.Consistent := by
  unfold Consistent
  rw [h.entries_eq]
  exact h

theorem slots_eq (h : c.Keeps xs) : c.slots = xs.map Prod.snd := by
  unfold slots RecencyList.toList
  rw [h.entries_eq]

theorem keys_eq (h : c.Keeps xs) : c.keys = keysOf xs := by
  unfold keys
  rw [h.slots_eq, List.map_map]
  rfl

theorem size_eq (h : c.Keeps xs) : c.size = xs.length := h.arranges.size

/-- The keys of the index are those of the slots. -/
theorem index_keys_perm (h : c.Keeps xs) : (c.index.map Prod.fst).Perm (keysOf xs) := by
  have hperm := h.index_perm.map Prod.fst
  rw [places, List.map_map] at hperm
  exact hperm

/-- What lies elsewhere than in the recency list and the index does not matter. -/
theorem congr {c' : ProgramCache K P} (h : c.Keeps xs) (hrecency : c'.recency = c.recency)
    (hindex : c'.index = c.index) : c'.Keeps xs := by
  refine ⟨?_, h.keys_nodup, ?_⟩
  · rw [hrecency]
    exact h.arranges
  · rw [hindex]
    exact h.index_perm

/-- Two slots with one key are one slot at one position. -/
theorem eq_of_key_eq (h : c.Keeps xs) {p q : Nat × Slot K P} (hp : p ∈ xs) (hq : q ∈ xs)
    (hkey : p.2.entry.key = q.2.entry.key) : p = q :=
  List.inj_on_of_nodup_map h.keys_nodup hp hq hkey

/-! ### What the single changes do -/

/-- **A lease moves the slot to the front** and is counted there. -/
theorem leaseAt (h : c.Keeps (xs ++ (i, s) :: ys)) :
    (c.leaseAt i).1 = some s.entry.lease ∧ (c.leaseAt i).2.Keeps ((i, s.use) :: (xs ++ ys)) := by
  have hmoved := RecencyList.moveToFront_arranges h.arranges
  have hget : (c.recency.moveToFront i).get? i = some s :=
    hmoved.get?_eq_some_iff.2 List.mem_cons_self
  have hfront : (c.recency.moveToFront i).Arranges ([] ++ (i, s) :: (xs ++ ys)) := hmoved
  have hused := RecencyList.modify_arranges hfront Slot.use
  have hkeys : (keysOf (xs ++ (i, s) :: ys)).Perm (keysOf ((i, s.use) :: (xs ++ ys))) :=
    List.perm_middle.map _
  have hplaces : (places (xs ++ (i, s) :: ys)).Perm (places ((i, s.use) :: (xs ++ ys))) :=
    List.perm_middle.map _
  unfold ProgramCache.leaseAt
  dsimp only
  rw [hget]
  exact ⟨rfl, hused, hkeys.nodup_iff.1 h.keys_nodup, h.index_perm.trans hplaces⟩

/-- **A slot changes in its place** if its key does not change. -/
theorem modifyAt (h : c.Keeps (xs ++ (i, s) :: ys)) (f : Slot K P → Slot K P)
    (hkey : (f s).entry.key = s.entry.key) :
    Keeps { c with recency := c.recency.modify i f } (xs ++ (i, f s) :: ys) := by
  have hkeys : keysOf (xs ++ (i, f s) :: ys) = keysOf (xs ++ (i, s) :: ys) := by
    simp [keysOf, hkey]
  have hplaces : places (xs ++ (i, f s) :: ys) = places (xs ++ (i, s) :: ys) := by
    simp [places, hkey]
  refine ⟨RecencyList.modify_arranges h.arranges f, ?_, ?_⟩
  · rw [hkeys]
    exact h.keys_nodup
  · rw [hplaces]
    exact h.index_perm

/-- The slot of an entry that was just published. -/
def published (number : Nat) (key : K) (program : P) (compileTime : Duration) : Slot K P :=
  { entry := { number, key, program, locked := false }, refs := 1, uses := 1, compileTime }

/-- **A new slot comes first,** in the list and in the index. -/
theorem publish (h : c.Keeps xs) {key : K} (hkey : key ∉ keysOf xs) (program : P)
    (compileTime : Duration) :
    (c.publish key program compileTime).1 = ⟨c.counts.inserts, key⟩ ∧
      ∃ i, (c.publish key program compileTime).2.Keeps
        ((i, published c.counts.inserts key program compileTime) :: xs) := by
  let slot : Slot K P := published c.counts.inserts key program compileTime
  obtain ⟨-, harranges⟩ := RecencyList.pushFront_arranges h.arranges slot
  exact ⟨rfl, _, harranges, List.nodup_cons.2 ⟨hkey, h.keys_nodup⟩, h.index_perm.cons _⟩

variable [DecidableEq K]

/-- **A removed slot is gone from the list and from the index.** -/
theorem removeAt (h : c.Keeps (xs ++ (i, s) :: ys)) :
    (c.removeAt i).1 = some s.entry ∧ (c.removeAt i).2.Keeps (xs ++ ys) := by
  obtain ⟨hvalue, harranges⟩ := RecencyList.remove_arranges h.arranges
  have hnodup : (keysOf ((i, s) :: (xs ++ ys))).Nodup :=
    (List.perm_middle.map _).nodup_iff.1 h.keys_nodup
  obtain ⟨hfresh, hrest⟩ := List.nodup_cons.1 hnodup
  have hindex : (c.index.filter fun p => p.1 ≠ s.entry.key).Perm (places (xs ++ ys)) := by
    have hperm := (h.index_perm.trans (List.perm_middle.map _)).filter fun p => p.1 ≠ s.entry.key
    have hkept : (places (xs ++ ys)).filter (fun p => p.1 ≠ s.entry.key) = places (xs ++ ys) := by
      refine List.filter_eq_self.2 fun p hp => ?_
      obtain ⟨q, hq, rfl⟩ := List.mem_map.1 hp
      have hne : q.2.entry.key ≠ s.entry.key := fun heq =>
        hfresh (List.mem_map.2 ⟨q, hq, heq⟩)
      exact decide_eq_true hne
    rw [List.map_cons, List.filter_cons_of_neg (by simp)] at hperm
    exact hperm.trans (List.Perm.of_eq hkept)
  unfold ProgramCache.removeAt
  cases hremove : c.recency.remove i with
  | mk value recency =>
    rw [hremove] at hvalue harranges
    subst hvalue
    exact ⟨rfl, harranges, hrest, hindex⟩

/-- Where there is no slot, nothing is removed. -/
theorem removeAt_of_get?_eq_none (h : c.recency.get? i = none) : c.removeAt i = (none, c) := by
  have hnode : c.recency.node? i = none := by simpa [RecencyList.get?] using h
  unfold ProgramCache.removeAt
  rw [RecencyList.remove_of_dead hnode]

/-! ### What the index knows -/

/-- **The index knows the position of every key,** and of no other. -/
theorem position?_eq_some_iff (h : c.Keeps xs) {key : K} :
    c.position? key = some i ↔ ∃ s, (i, s) ∈ xs ∧ s.entry.key = key := by
  have hnodup : (c.index.map Prod.fst).Nodup := h.index_keys_perm.nodup_iff.2 h.keys_nodup
  unfold position?
  rw [lookup_eq_some_iff_mem hnodup, h.index_perm.mem_iff, places, List.mem_map]
  constructor
  · rintro ⟨⟨j, s⟩, hmem, heq⟩
    cases heq
    exact ⟨s, hmem, rfl⟩
  · rintro ⟨s, hmem, rfl⟩
    exact ⟨(i, s), hmem, rfl⟩

theorem position?_eq_none_iff (h : c.Keeps xs) {key : K} :
    c.position? key = none ↔ key ∉ keysOf xs := by
  rw [Option.eq_none_iff_forall_ne_some]
  constructor
  · intro hnone hmem
    obtain ⟨⟨i, s⟩, hmem, hkey⟩ := List.mem_map.1 hmem
    exact hnone i (h.position?_eq_some_iff.2 ⟨s, hmem, hkey⟩)
  · rintro hfresh i hi
    obtain ⟨s, hmem, rfl⟩ := h.position?_eq_some_iff.1 hi
    exact hfresh (List.mem_map_of_mem hmem)

/-- The position of a key splits the list that is kept. -/
theorem split_of_position? (h : c.Keeps xs) {key : K} (hi : c.position? key = some i) :
    ∃ ys s zs, xs = ys ++ (i, s) :: zs ∧ s.entry.key = key := by
  obtain ⟨s, hmem, hkey⟩ := h.position?_eq_some_iff.1 hi
  obtain ⟨ys, zs, rfl⟩ := List.append_of_mem hmem
  exact ⟨ys, s, zs, rfl, hkey⟩

end Keeps

/-! ### Taking out idle slots -/

/-- **Idle slots leave.**  Some slots without leases were taken out of a cache; the others stayed as
they were and in their order. -/
structure Sheds (c : ProgramCache K P) (gone : List (Slot K P)) (c' : ProgramCache K P) : Prop where
  consistent : c'.Consistent
  perm : c.slots.Perm (gone ++ c'.slots)
  sublist : c'.recency.entries.Sublist c.recency.entries
  idle : ∀ s ∈ gone, s.refs = 0
  inserts : c'.counts.inserts = c.counts.inserts
  retired : c'.retired = c.retired

namespace Sheds

variable {c c₁ c₂ : ProgramCache K P} {gone gone' : List (Slot K P)}

theorem refl (h : c.Consistent) : c.Sheds [] c :=
  ⟨h, List.Perm.refl _, List.Sublist.refl _, fun _ hs => absurd hs List.not_mem_nil, rfl, rfl⟩

theorem trans (h : c.Sheds gone c₁) (h' : c₁.Sheds gone' c₂) : c.Sheds (gone ++ gone') c₂ where
  consistent := h'.consistent
  perm := by
    rw [List.append_assoc]
    exact h.perm.trans (h'.perm.append_left gone)
  sublist := h'.sublist.trans h.sublist
  idle s hs := (List.mem_append.1 hs).elim (h.idle s) (h'.idle s)
  inserts := h'.inserts.trans h.inserts
  retired := h'.retired.trans h.retired

/-- Counting evictions is no change of the slots. -/
theorem count (h : c.Sheds gone c₁) (counts : Counts) (hinserts : counts.inserts = c₁.counts.inserts) :
    c.Sheds gone { c₁ with counts := counts } :=
  ⟨Keeps.congr h.consistent rfl rfl, h.perm, h.sublist, h.idle, hinserts.trans h.inserts,
    h.retired⟩

/-- No slot becomes busy. -/
theorem isBusyAt_eq_false (h : c.Sheds gone c₁) (hc : c.Consistent) (hidle : c.isBusyAt i = false) :
    c₁.isBusyAt i = false := by
  unfold isBusyAt
  cases hget : c₁.recency.get? i with
  | none => rfl
  | some s =>
    have hmem := h.sublist.mem (h.consistent.arranges.get?_eq_some_iff.1 hget)
    unfold isBusyAt at hidle
    rwa [hc.arranges.get?_eq_some_iff.2 hmem] at hidle

end Sheds

variable [DecidableEq K]

/-- Taking out a single idle slot. -/
theorem removeAt_sheds (h : c.Keeps (xs ++ (i, s) :: ys)) (hidle : s.refs = 0) :
    c.Sheds [s] (c.removeAt i).2 := by
  obtain ⟨-, hkeeps⟩ := h.removeAt
  have hframe : (c.removeAt i).2.counts = c.counts ∧ (c.removeAt i).2.retired = c.retired := by
    unfold removeAt
    split <;> exact ⟨rfl, rfl⟩
  refine ⟨hkeeps.consistent, ?_, ?_, ?_, congrArg Counts.inserts hframe.1, hframe.2⟩
  · rw [h.slots_eq, hkeeps.slots_eq]
    exact (List.perm_middle.map Prod.snd)
  · rw [h.entries_eq, hkeeps.entries_eq]
    exact List.Sublist.append_left (List.sublist_cons_self _ _) _
  · intro s' hs'
    rw [List.mem_singleton.1 hs']
    exact hidle

/-- What a removal at any position does, if there is no busy slot at it. -/
theorem removeAt_cases (h : c.Consistent) (hidle : c.isBusyAt i = false) :
    c.removeAt i = (none, c) ∨
      ∃ s, (c.removeAt i).1 = some s.entry ∧ c.Sheds [s] (c.removeAt i).2 := by
  cases hget : c.recency.get? i with
  | none => exact .inl (Keeps.removeAt_of_get?_eq_none hget)
  | some s =>
    obtain ⟨ys, zs, hsplit⟩ := h.arranges.split hget
    unfold Consistent at h
    rw [hsplit] at h
    have hrefs : s.refs = 0 := by
      unfold isBusyAt at hidle
      rw [hget] at hidle
      simpa using hidle
    exact .inr ⟨s, h.removeAt.1, removeAt_sheds h hrefs⟩

/-- **A sweep only takes out idle slots,** wherever it begins. -/
theorem sweepFrom_sheds (h : c.Consistent) (steps : Nat) (start : Option Nat) :
    ∃ gone, gone.map Slot.entry = (sweepFrom steps start c).1 ∧
      c.Sheds gone (sweepFrom steps start c).2 := by
  fun_induction sweepFrom steps start c with
  | case1 => exact ⟨[], rfl, Sheds.refl h⟩
  | case2 => exact ⟨[], rfl, Sheds.refl h⟩
  | case3 => exact ⟨[], rfl, Sheds.refl h⟩
  | case4 => exact ⟨[], rfl, Sheds.refl h⟩
  | case5 steps i c hfull next hbusy hpolicy ih => exact ih h
  | case6 steps i c hfull next hbusy c' hnone ih =>
    rcases removeAt_cases h (Bool.eq_false_iff.2 hbusy) with hsame | ⟨s, hsome, -⟩
    · obtain rfl : c' = c := congrArg Prod.snd (hnone.symm.trans hsame)
      exact ih h
    · rw [hnone] at hsome
      cases hsome
  | case7 steps i c hfull next hbusy entry c' hsome counted more c'' hmore ih =>
    rcases removeAt_cases h (Bool.eq_false_iff.2 hbusy) with hsame | ⟨s, hentry, hsheds⟩
    · rw [hsome] at hsame
      cases hsame
    · rw [hsome] at hentry hsheds
      cases hentry
      have hcounted : c.Sheds [s] counted := hsheds.count _ rfl
      obtain ⟨gone, hgone, hrest⟩ := ih hcounted.consistent
      rw [hmore] at hgone hrest
      exact ⟨s :: gone, congrArg (s.entry :: ·) hgone, hcounted.trans hrest⟩

/-- **Taking out all entries at idle positions** takes out nothing else. -/
theorem removeAll_sheds (h : c.Consistent) (idle : List Nat)
    (hidle : ∀ i ∈ idle, c.isBusyAt i = false) :
    ∃ gone, gone.map Slot.entry = (removeAll idle c).1 ∧ c.Sheds gone (removeAll idle c).2 := by
  induction idle generalizing c with
  | nil => exact ⟨[], rfl, Sheds.refl h⟩
  | cons i idle ih =>
    obtain ⟨hi, hrest⟩ := List.forall_mem_cons.1 hidle
    rcases removeAt_cases h hi with hsame | ⟨s, hentry, hsheds⟩
    · unfold removeAll
      rw [hsame]
      exact ih h hrest
    · unfold removeAll
      cases hremove : c.removeAt i with
      | mk entry c' =>
        rw [hremove] at hentry hsheds
        subst hentry
        obtain ⟨gone, hgone, hmore⟩ :=
          ih hsheds.consistent fun j hj => hsheds.isBusyAt_eq_false h (hrest j hj)
        exact ⟨s :: gone, congrArg (s.entry :: ·) hgone, hsheds.trans hmore⟩

end ProgramCache
end JsonFilter.Cache
