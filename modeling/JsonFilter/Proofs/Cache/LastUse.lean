import JsonFilter.Proofs.Cache.Sweeping

/-!
# The keys stand in the order of their last use

The recency list of a cache is a chain of links through an arena whose places are used again and again.
This file says what can be seen of it without the arena: a plain list of keys, in the order in which they
were used last.

## The history

A hit and an insertion use a key, and nothing else does (`usedBy`).  `uses` lists the keys that a run has
used, the last one first.  Each key once, at its latest use, cut down to the keys that are still there:
that is the list of keys of the cache (`Remembers`).

## The steps

A step that uses a key puts it in front of keys that keep their order, and any other step only takes keys
out (`perform_keys`).  Both kinds of steps carry the history on (`Remembers.use`, `Remembers.shed`).
Whoever only looks at a cache, at its keys, one slot or its counts, gets no new cache.

* **`keys_in_order_of_last_use`** — the list of keys after any run, and what every operation does to it.
-/

namespace JsonFilter.Cache.ProgramCache

variable {K P : Type} {c c' : ProgramCache K P} {s : Slot K P} {key : K}

/-! ### Lists without repetitions -/

section Lists

variable {α : Type} [DecidableEq α] {l l' history : List α} {a : α}

/-- A part of a list without repetitions is found again by filtering. -/
theorem filter_mem_of_sublist (h : l'.Sublist l) (hnodup : l.Nodup) :
    l.filter (fun x => decide (x ∈ l')) = l' := by
  induction h with
  | slnil => rfl
  | @cons l' l a hsub ih =>
    obtain ⟨hfresh, hrest⟩ := List.nodup_cons.1 hnodup
    have hnot : a ∉ l' := fun hmem => hfresh (hsub.mem hmem)
    rw [List.filter_cons_of_neg (by simpa using hnot)]
    exact ih hrest
  | @cons_cons l' l a hsub ih =>
    obtain ⟨hfresh, hrest⟩ := List.nodup_cons.1 hnodup
    have hskip : l.filter (fun x => decide (x ∈ a :: l')) = l.filter (fun x => decide (x ∈ l')) := by
      refine List.filter_congr fun x hx => ?_
      have hne : x ≠ a := fun heq => hfresh (heq ▸ hx)
      simp [hne]
    rw [List.filter_cons_of_pos (by simp), hskip, ih hrest]

/-- Taking elements out before or after the repetitions makes no difference. -/
theorem filter_eraseDups (p : α → Bool) (l : List α) :
    l.eraseDups.filter p = (l.filter p).eraseDups := by
  match l with
  | [] => rfl
  | a :: l =>
    have hshorter : (l.filter fun x => !x == a).length < (a :: l).length :=
      Nat.lt_succ_of_le (List.length_filter_le _ l)
    have ih := filter_eraseDups p (l.filter fun x => !x == a)
    rw [List.eraseDups_cons]
    by_cases ha : p a = true
    · rw [List.filter_cons_of_pos ha, List.filter_cons_of_pos ha, List.eraseDups_cons, ih,
        List.filter_filter, List.filter_filter]
      simp only [Bool.and_comm]
    · rw [List.filter_cons_of_neg ha, List.filter_cons_of_neg ha, ih, List.filter_filter]
      refine congrArg List.eraseDups (List.filter_congr fun x _ => ?_)
      by_cases hx : x = a
      · subst hx
        simp [ha]
      · simp [hx]
termination_by l.length
decreasing_by exact hshorter

end Lists

/-! ### Uses -/

section Uses

variable [DecidableEq K]

/-- **The key that an operation uses**: the one that it finds and leases, or the one that it inserts. -/
def usedBy (c : ProgramCache K P) : Operation K P → Option K
  | .acquire key => (c.acquire key).1.map fun _ => key
  | .insert key _ _ => some key
  | _ => none

/-- **The keys that a run uses**, the last one first. -/
def uses (c : ProgramCache K P) : List (Operation K P) → List K
  | [] => []
  | operation :: operations =>
    (c.perform operation).uses operations ++ (c.usedBy operation).toList

/-- **The history decides the order**: the keys are those of the history that are still there, each of
them at its latest use. -/
def Remembers (c : ProgramCache K P) (history : List K) : Prop :=
  c.keys = history.eraseDups.filter fun key => decide (key ∈ c.keys)

namespace Remembers

variable {history : List K}

/-- Keys that leave are forgotten. -/
theorem shed (h : c.Remembers history) (hnodup : c.keys.Nodup) (hsub : c'.keys.Sublist c.keys) :
    c'.Remembers history := by
  have hkept := filter_mem_of_sublist hsub hnodup
  unfold Remembers at h ⊢
  rw [h, List.filter_filter] at hkept
  rw [← hkept]
  refine List.filter_congr fun key _ => ?_
  rw [hkept]
  by_cases hkey : key ∈ c'.keys
  · simp [hkey, hsub.mem hkey]
  · simp [hkey]

/-- A key that is used comes first, before keys that keep their order. -/
theorem use (h : c.Remembers history) (hnodup : c.keys.Nodup) {kept : List K}
    (hkeys : c'.keys = key :: kept) (hsub : kept.Sublist (c.keys.erase key)) :
    c'.Remembers (key :: history) := by
  have hfresh : key ∉ kept := fun hmem => (hnodup.not_mem_erase) (hsub.mem hmem)
  have hall : kept.Sublist c.keys := hsub.trans List.erase_sublist
  have hkept := filter_mem_of_sublist hall hnodup
  unfold Remembers at h ⊢
  rw [h, List.filter_filter] at hkept
  rw [hkeys, List.eraseDups_cons, List.filter_cons_of_pos (by simp), ← filter_eraseDups,
    List.filter_filter]
  refine congrArg (key :: ·) (hkept.symm.trans (List.filter_congr fun other _ => ?_))
  by_cases hother : other ∈ kept
  · have hne : other ≠ key := fun heq => hfresh (heq ▸ hother)
    simp [hother, hne, hall.mem hother]
  · by_cases heq : other = key
    · subst heq
      simp [hother]
    · simp [hother, heq]

end Remembers

end Uses

/-! ### What an operation does to the keys -/

/-- Where slots are taken out, keys are. -/
theorem Sheds.keys_sublist {gone : List (Slot K P)} (h : c.Sheds gone c') :
    c'.keys.Sublist c.keys := by
  have hslots : c'.slots.Sublist c.slots := h.sublist.map Prod.snd
  exact hslots.map fun s => s.entry.key

/-- A new entry comes first. -/
theorem publish_keys (h : c.Consistent) (hkey : key ∉ c.keys) (program : P)
    (compileTime : Duration) : (c.publish key program compileTime).2.keys = key :: c.keys := by
  rw [Keeps.keys_eq h] at hkey ⊢
  obtain ⟨-, i, hkeeps⟩ := Keeps.publish h hkey program compileTime
  rw [hkeeps.keys_eq]
  rfl

section Steps

variable [DecidableEq K]

/-- The slot of a key is the one that has it. -/
theorem Consistent.slot?_eq_some_iff (h : c.Consistent) :
    c.slot? key = some s ↔ s ∈ c.slots ∧ s.entry.key = key := by
  constructor
  · intro hslot
    obtain ⟨i, hi, hget⟩ := Option.bind_eq_some_iff.1 hslot
    obtain ⟨t, hmem, rfl⟩ := (Keeps.position?_eq_some_iff h).1 hi
    have hgett := h.arranges.get?_eq_some_iff.2 hmem
    rw [hget] at hgett
    cases hgett
    exact ⟨List.mem_map_of_mem hmem, rfl⟩
  · rintro ⟨hs, rfl⟩
    obtain ⟨i, hi, hget⟩ := h.position?_of_mem hs
    unfold slot?
    rw [hi]
    exact hget

/-- A slot that is replaced is found as the new one, and the slots of all other keys stay. -/
theorem Replaces.slot? {s s' : Slot K P} (h : c.Consistent) (hr : c.Replaces s s' c') :
    c'.slot? s.entry.key = some s' ∧ ∀ other, other ≠ s.entry.key → c'.slot? other = c.slot? other := by
  have hsame : s'.entry.key = s.entry.key := congrArg Lease.key hr.lease
  obtain ⟨rest, hperm, hperm'⟩ := hr.perm
  refine ⟨hr.consistent.slot?_eq_some_iff.2 ⟨hperm'.mem_iff.2 List.mem_cons_self, hsame⟩, ?_⟩
  intro other hne
  refine Option.ext fun t => ?_
  rw [hr.consistent.slot?_eq_some_iff, h.slot?_eq_some_iff, hperm.mem_iff, hperm'.mem_iff]
  refine and_congr_left fun hother => ?_
  have hold : t ≠ s := fun heq => hne (heq ▸ hother).symm
  have hnew : t ≠ s' := fun heq => hne (hother.symm.trans ((congrArg (·.entry.key) heq).trans hsame))
  rw [List.mem_cons, List.mem_cons, or_iff_right hold, or_iff_right hnew]

/-- A sweep only takes keys out. -/
theorem evict_sublist (h : c.Consistent) : c.evict.2.keys.Sublist c.keys := by
  obtain ⟨gone, -, hsheds⟩ := sweepFrom_sheds h c.size c.recency.oldest
  exact hsheds.keys_sublist

/-- A clearing only takes keys out. -/
theorem clear_sublist (h : c.Consistent) : c.clear.2.keys.Sublist c.keys := by
  obtain ⟨gone, -, hsheds⟩ := removeAll_sheds h c.idlePositions h.isBusyAt_idlePositions
  exact hsheds.keys_sublist

/-- A published entry outlasts the sweep that makes room for it: it is leased. -/
theorem insert_fresh_keys (h : c.Consistent) (hkey : key ∉ c.keys) (program : P)
    (compileTime : Duration) :
    ∃ kept, (c.insert key program compileTime).2.keys = key :: kept ∧ kept.Sublist c.keys := by
  have hpublishes := publish_publishes h hkey program compileTime
  have hsub := evict_sublist hpublishes.consistent
  obtain ⟨gone, hretires⟩ := evict_retires hpublishes.consistent
  have hstays : key ∈ (c.publish key program compileTime).2.evict.2.keys := by
    have hslot : Keeps.published c.counts.inserts key program compileTime ∈
        gone ++ (c.publish key program compileTime).2.evict.2.slots :=
      hretires.perm.mem_iff.1 (hpublishes.perm.mem_iff.2 List.mem_cons_self)
    obtain hgone | hmem := List.mem_append.1 hslot
    · cases hretires.idle _ hgone
    · exact key_mem_keys hmem
  rw [publish_keys h hkey] at hsub
  unfold insert
  rw [h.position?_eq_none_iff.2 hkey]
  show ∃ kept, (c.publish key program compileTime).2.evict.2.keys = key :: kept ∧ _
  obtain hall | hrest := List.sublist_cons_iff.1 hsub
  · exact absurd (hall.mem hstays) hkey
  · exact hrest

/-- **A duplicate is given up.**  The program that was there first stays, comes first and counts one
lease and one use more, and no entry leaves. -/
theorem insert_duplicate (h : c.Consistent) (hs : s ∈ c.slots) (program : P)
    (compileTime : Duration) :
    let c' := (c.insert s.entry.key program compileTime).2
    c'.keys = s.entry.key :: c.keys.erase s.entry.key ∧ c.Replaces s s.use c' ∧
      c'.counts = c.counts ∧ c'.retired = c.retired ++ [program] := by
  obtain ⟨i, hi, hget⟩ := h.position?_of_mem hs
  obtain ⟨xs, ys, hsplit⟩ := h.arranges.split hget
  have hkeeps : c.Keeps (xs ++ (i, s) :: ys) := hsplit ▸ h
  obtain ⟨hlease, hreplaces, hcounts, hretired⟩ := leaseAt_replaces hkeeps
  have hkeys := hkeeps.leaseAt_keys
  unfold insert
  rw [hi]
  dsimp only
  cases hleaseAt : c.leaseAt i with
  | mk lease c' =>
    rw [hleaseAt] at hlease hreplaces hcounts hretired hkeys
    subst hlease
    refine ⟨hkeys, hreplaces.congr rfl rfl rfl, hcounts, ?_⟩
    show c'.retired ++ [program] = _
    rw [hretired]

/-- **An operation puts the key that it uses first and lets the others keep their order**; one that uses
no key only takes keys out. -/
theorem perform_keys (h : c.Consistent) (operation : Operation K P) :
    (∃ key kept, c.usedBy operation = some key ∧ (c.perform operation).keys = key :: kept ∧
        kept.Sublist (c.keys.erase key)) ∨
      c.usedBy operation = none ∧ (c.perform operation).keys.Sublist c.keys := by
  have hsame : ∀ {c' : ProgramCache K P}, c'.keys = c.keys → c'.keys.Sublist c.keys :=
    fun heq => heq ▸ List.Sublist.refl _
  cases operation with
  | acquire key =>
    have hused : c.usedBy (.acquire key) = (c.acquire key).1.map fun _ => key := rfl
    rcases acquire_cases h key with ⟨-, hmiss⟩ | ⟨s, hs, rfl, hlease, -, -⟩
    · rw [hmiss] at hused
      refine .inr ⟨hused, ?_⟩
      show (c.acquire key).2.keys.Sublist c.keys
      rw [hmiss]
      exact List.Sublist.refl _
    · rw [hlease] at hused
      exact .inl ⟨_, _, hused, acquire_keys h (key_mem_keys hs), List.Sublist.refl _⟩
  | insert key program compileTime =>
    by_cases hkey : key ∈ c.keys
    · obtain ⟨s, hs, rfl⟩ := List.mem_map.1 hkey
      exact .inl ⟨_, _, rfl, (insert_duplicate h hs program compileTime).1, List.Sublist.refl _⟩
    · obtain ⟨kept, hkeys, hsub⟩ := insert_fresh_keys h hkey program compileTime
      refine .inl ⟨key, kept, rfl, hkeys, ?_⟩
      rwa [List.erase_of_not_mem hkey]
  | release lease => exact .inr ⟨rfl, hsame (release_keys h lease)⟩
  | tryLock lease =>
    refine .inr ⟨rfl, ?_⟩
    show (((c.tryLock lease).map Prod.snd).getD c).keys.Sublist c.keys
    cases hlock : c.tryLock lease with
    | none => exact List.Sublist.refl _
    | some p => exact hsame (tryLock_keys h hlock)
  | unlock lease program =>
    exact .inr ⟨rfl, hsame (updateLeased_keys h lease _ fun _ => rfl)⟩
  | evict => exact .inr ⟨rfl, evict_sublist h⟩
  | resize capacity =>
    refine .inr ⟨rfl, ?_⟩
    show (((c.resize capacity).toOption.map Prod.snd).getD c).keys.Sublist c.keys
    cases hresize : c.resize capacity with
    | error e => exact List.Sublist.refl _
    | ok resized =>
      obtain ⟨-, rfl⟩ := resize_eq_ok hresize
      exact evict_sublist (h.congr rfl rfl)
  | clear => exact .inr ⟨rfl, clear_sublist h⟩

/-- **An operation carries the history on.** -/
theorem Remembers.step {history : List K} (hr : c.Remembers history) (h : c.Consistent)
    (operation : Operation K P) :
    (c.perform operation).Remembers ((c.usedBy operation).toList ++ history) := by
  rcases perform_keys h operation with ⟨key, kept, hused, hkeys, hsub⟩ | ⟨hused, hsub⟩
  · rw [hused]
    exact hr.use h.keys_nodup hkeys hsub
  · rw [hused]
    exact hr.shed h.keys_nodup hsub

/-- **So does a run.** -/
theorem Remembers.run {history : List K} (hr : c.Remembers history) (h : c.Consistent)
    (operations : List (Operation K P)) :
    (c.performAll operations).Remembers (c.uses operations ++ history) := by
  induction operations generalizing c history with
  | nil => exact hr
  | cons operation operations ih =>
    rw [uses, List.append_assoc]
    exact ih (hr.step h operation) (perform_consistent h operation)

end Steps

/-! ### The list that can be seen -/

/-- **The keys of a cache stand in the order of their last use.**  After any run of operations on an
empty cache, its keys are the keys that were found and leased or inserted, each once and at its latest
use, the latest first, as far as they are still there.  A lease given back leaves them as they are, and so
does a key that is not found, which changes nothing but the count of the misses; a lock, a sweep, a
clearing and a change of the capacity let those that stay keep their order.  A new key comes first,
before those of the others that stay.  A program for a key that is there is given up: the program that
was there first stays, with its key in front and one lease more; all other slots, the number of entries
and the counts stay as they are. -/
theorem keys_in_order_of_last_use [DecidableEq K] (capacity : Nat) (policy : SweepPolicy)
    (operations : List (Operation K P)) :
    let start : ProgramCache K P := empty capacity policy
    let c := start.performAll operations
    c.keys = (start.uses operations).eraseDups.filter c.contains ∧ c.keys.Nodup ∧
      (∀ key, c.contains key = true ↔ key ∈ c.keys) ∧
      (∀ lease, (c.release lease).keys = c.keys) ∧
      (∀ operation, c.usedBy operation = none → (c.perform operation).keys.Sublist c.keys) ∧
      (∀ key, c.contains key = false →
        c.acquire key =
          (none, { c with counts := { c.counts with misses := c.counts.misses + 1 } })) ∧
      (∀ key, c.contains key = true →
        (c.acquire key).1.isSome ∧ (c.acquire key).2.keys = key :: c.keys.erase key) ∧
      (∀ key program compileTime, c.contains key = false →
        ∃ kept, (c.insert key program compileTime).2.keys = key :: kept ∧ kept.Sublist c.keys) ∧
      ∀ key program compileTime, c.contains key = true →
        let c' := (c.insert key program compileTime).2
        c'.keys = key :: c.keys.erase key ∧ c'.size = c.size ∧ c'.counts = c.counts ∧
          (∃ s, c.slot? key = some s ∧ c'.slot? key = some s.use) ∧
          ∀ other, other ≠ key → c'.slot? other = c.slot? other := by
  intro start c
  have hempty : start.Consistent := empty_consistent capacity policy
  have h : c.Consistent := performAll_consistent hempty operations
  have hcontains : ∀ key, c.contains key = true ↔ key ∈ c.keys := fun key => h.contains_iff
  have habsent : ∀ key, c.contains key = false → key ∉ c.keys := fun key hkey hmem => by
    rw [(hcontains key).2 hmem] at hkey
    cases hkey
  refine ⟨?_, h.keys_nodup, hcontains, release_keys h, ?_, ?_, ?_, ?_, ?_⟩
  · have hstart : start.Remembers [] := (empty_keeps capacity policy).keys_eq
    have hremembers := hstart.run hempty operations
    rw [List.append_nil] at hremembers
    refine hremembers.trans (List.filter_congr fun key _ => ?_)
    rw [Bool.eq_iff_iff, decide_eq_true_iff, hcontains]
  · intro operation hunused
    rcases perform_keys h operation with ⟨key, kept, hused, -⟩ | ⟨-, hsub⟩
    · rw [hunused] at hused
      cases hused
    · exact hsub
  · intro key hkey
    rcases acquire_cases h key with ⟨-, hmiss⟩ | ⟨s, hs, rfl, -⟩
    · exact hmiss
    · exact absurd (key_mem_keys hs) (habsent _ hkey)
  · intro key hkey
    have hmem := (hcontains key).1 hkey
    refine ⟨?_, acquire_keys h hmem⟩
    rcases acquire_cases h key with ⟨hnot, -⟩ | ⟨s, -, -, hlease, -⟩
    · exact absurd hmem hnot
    · rw [hlease]
      rfl
  · exact fun key program compileTime hkey =>
      insert_fresh_keys h (habsent key hkey) program compileTime
  · intro key program compileTime hkey c'
    obtain ⟨s, hs, rfl⟩ := List.mem_map.1 ((hcontains key).1 hkey)
    obtain ⟨hkeys, hreplaces, hcounts, -⟩ := insert_duplicate h hs program compileTime
    obtain ⟨hslot, hothers⟩ := hreplaces.slot? h
    refine ⟨hkeys, ?_, hcounts, ⟨s, h.slot?_eq_some_iff.2 ⟨hs, rfl⟩, hslot⟩, hothers⟩
    have hmem := key_mem_keys hs
    have hpos := List.length_pos_of_mem hmem
    rw [hreplaces.consistent.size_eq, h.size_eq, hkeys, List.length_cons,
      List.length_erase_of_mem hmem]
    omega

end JsonFilter.Cache.ProgramCache
