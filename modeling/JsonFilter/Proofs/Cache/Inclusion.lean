import JsonFilter.Proofs.Cache.Sweeping

/-!
# A larger cache holds what a smaller one holds

Some rules of eviction have an anomaly: with more room they can miss more often.  Removing the entries
that were used the longest ago has none.  This file follows two caches of different capacities through
the same visits, one of which may hit where the other one misses and sweeps.

## Visits

A `visit` asks for a key, inserts its program if the key is not there, and gives the lease back at once.
Between two visits nobody holds a lease, so that a visit does to the list of keys just what `usedFirst`
says (`visit_leaves`), whatever the sweep policy is.

## The prefix

`usedFirst` of a prefix of a list is a prefix of `usedFirst` of the list (`usedFirst_take`).

* **`larger_cache_includes_smaller`** — after any visits the keys of the smaller cache are the first ones
  of the larger cache, and what hits the smaller one hits the larger one.
-/

namespace JsonFilter.Cache

/-! ### Lists -/

section Lists

variable {K : Type} [DecidableEq K] {keys : List K} {key : K}

/-- A list of keys after one of them is used, where there is room for so many: it comes first, and if it
is new, the last ones make room for it. -/
def usedFirst (room : Nat) (keys : List K) (key : K) : List K :=
  key :: if key ∈ keys then keys.erase key else keys.take (room - 1)

/-- An element among the first ones may be taken out before or after the cut. -/
theorem erase_take (n : Nat) (h : key ∈ keys.take n) :
    (keys.take n).erase key = (keys.erase key).take (n - 1) := by
  induction keys generalizing n with
  | nil => simp at h
  | cons k keys ih =>
    cases n with
    | zero => simp at h
    | succ n =>
      rw [List.take_succ_cons] at h ⊢
      by_cases hk : k = key
      · subst hk
        rw [List.erase_cons_head, List.erase_cons_head]
        rfl
      · have hmem : key ∈ keys.take n := (List.mem_cons.1 h).resolve_left (Ne.symm hk)
        obtain ⟨n, rfl⟩ : ∃ m, n = m + 1 := by
          cases n with
          | zero => simp at hmem
          | succ m => exact ⟨m, rfl⟩
        have hbeq : ¬(k == key) = true := by simpa using hk
        rw [List.erase_cons_tail hbeq, List.erase_cons_tail hbeq, ih _ hmem]
        rfl

/-- An element behind the cut may be taken out, and one more is cut off. -/
theorem take_erase (n : Nat) (h : key ∉ keys.take n) :
    (keys.erase key).take (n - 1) = keys.take (n - 1) := by
  induction keys generalizing n with
  | nil => rfl
  | cons k keys ih =>
    cases n with
    | zero => rfl
    | succ n =>
      rw [List.take_succ_cons, List.mem_cons, not_or] at h
      have hbeq : ¬(k == key) = true := fun heq => h.1 (eq_of_beq heq).symm
      rw [List.erase_cons_tail hbeq]
      cases n with
      | zero => rfl
      | succ n =>
        have hrest := ih (n + 1) h.2
        rw [Nat.add_sub_cancel] at hrest
        rw [Nat.add_sub_cancel, List.take_succ_cons, List.take_succ_cons, hrest]

/-- **A use keeps a prefix a prefix.** -/
theorem usedFirst_take {small large : Nat} (hpos : 0 < small) (hle : small ≤ large) (keys : List K)
    (key : K) :
    usedFirst small (keys.take small) key = (usedFirst large keys key).take small := by
  obtain ⟨small, rfl⟩ : ∃ n, small = n + 1 := ⟨small - 1, by omega⟩
  unfold usedFirst
  rw [List.take_succ_cons]
  refine congrArg (key :: ·) ?_
  by_cases hsmall : key ∈ keys.take (small + 1)
  · -- both have it
    rw [if_pos hsmall, if_pos (List.mem_of_mem_take hsmall)]
    exact erase_take (small + 1) hsmall
  · rw [if_neg hsmall, List.take_take, Nat.add_sub_cancel, Nat.min_eq_left (Nat.le_succ small)]
    by_cases hlarge : key ∈ keys
    · -- only the larger one has it
      rw [if_pos hlarge]
      exact (take_erase (small + 1) hsmall).symm
    · rw [if_neg hlarge, List.take_take, Nat.min_eq_left (by omega)]

end Lists

/-! ### Visits -/

/-- A key that is asked for, with the program that it compiles to and the time that this takes. -/
structure Visit (K P : Type) where
  key : K
  program : P
  compileTime : Duration
deriving DecidableEq, Repr

namespace ProgramCache

variable {K P : Type} [DecidableEq K]

/-- **A visit**: the key is leased, after its program was inserted if it was not there, and the lease is
given back.  Tells whether the key was there. -/
def visit (c : ProgramCache K P) (v : Visit K P) : Bool × ProgramCache K P :=
  match c.acquire v.key with
  | (some lease, c) => (true, c.release lease)
  | (none, c) =>
    let (lease, c) := c.insert v.key v.program v.compileTime
    (false, c.release lease)

/-- The cache after some visits. -/
def visitAll (c : ProgramCache K P) (visits : List (Visit K P)) : ProgramCache K P :=
  visits.foldl (fun c v => (c.visit v).2) c

variable {c : ProgramCache K P}

/-- **What a visit leaves**, if nobody holds a lease. -/
theorem visit_leaves (h : Sound c []) (hroom : 0 < c.capacity) (v : Visit K P) :
    ((c.visit v).1 = true ↔ v.key ∈ c.keys) ∧ Sound (c.visit v).2 [] ∧
      (c.visit v).2.capacity = c.capacity ∧
      (c.visit v).2.keys = usedFirst c.capacity c.keys v.key := by
  unfold visit usedFirst
  rcases acquire_cases h.consistent v.key with ⟨hkey, hmiss⟩ | ⟨s, hs, hkey, hlease, hr, -⟩
  · have hmissed : Sound { c with counts := { c.counts with misses := c.counts.misses + 1 } } [] :=
      h.congr rfl rfl rfl
    have hkeys := insert_keys hmissed.consistent hkey v.program v.compileTime
      (fun s hs => (hmissed.at_rest hs).1) hroom
    have hcapacity := insert_capacity
      { c with counts := { c.counts with misses := c.counts.misses + 1 } } v.key v.program v.compileTime
    rw [hmiss, if_neg hkey]
    dsimp only
    rcases insert_cases hmissed.consistent v.key v.program v.compileTime with
      ⟨s, hs, hfound, -⟩ | ⟨-, hlease, c', gone, hp, -, hr⟩
    · exact absurd (hfound ▸ key_mem_keys hs) hkey
    · rw [hlease]
      have hleased : Sound _ [⟨0, ⟨c.counts.inserts, v.key⟩, false⟩] := (hmissed.publish hp).retire hr
      refine ⟨⟨nofun, fun hmem => absurd hmem hkey⟩, hleased.release, ?_, ?_⟩
      · exact (release_capacity _ _).trans hcapacity
      · exact (release_keys hleased.consistent _).trans hkeys
  · have hmem : v.key ∈ c.keys := hkey ▸ key_mem_keys hs
    have hkeys := acquire_keys h.consistent hmem
    have hcapacity := acquire_capacity c v.key
    have hleased : Sound _ [⟨0, s.entry.lease, false⟩] := h.use hr
    rw [if_pos hmem]
    cases hacquire : c.acquire v.key with
    | mk lease c' =>
      rw [hacquire] at hlease hkeys hcapacity hleased
      subst hlease
      refine ⟨⟨fun _ => hmem, fun _ => rfl⟩, hleased.release, ?_, ?_⟩
      · exact (release_capacity _ _).trans hcapacity
      · exact (release_keys hleased.consistent _).trans hkeys

/-- **Two caches of different capacities through the same visits.** -/
theorem visitAll_take {a b : ProgramCache K P} (ha : Sound a []) (hb : Sound b [])
    (hpos : 0 < a.capacity) (hle : a.capacity ≤ b.capacity)
    (hkeys : a.keys = b.keys.take a.capacity) (visits : List (Visit K P)) :
    Sound (a.visitAll visits) [] ∧ Sound (b.visitAll visits) [] ∧
      (a.visitAll visits).capacity = a.capacity ∧ (b.visitAll visits).capacity = b.capacity ∧
      (a.visitAll visits).keys = (b.visitAll visits).keys.take a.capacity := by
  induction visits generalizing a b with
  | nil => exact ⟨ha, hb, rfl, rfl, hkeys⟩
  | cons v visits ih =>
    obtain ⟨-, ha', hsmall, hfirst⟩ := visit_leaves ha hpos v
    obtain ⟨-, hb', hlarge, hsecond⟩ := visit_leaves hb (Nat.lt_of_lt_of_le hpos hle) v
    have hstep : (a.visit v).2.keys = (b.visit v).2.keys.take (a.visit v).2.capacity := by
      rw [hfirst, hsecond, hsmall, hkeys]
      exact usedFirst_take hpos hle b.keys v.key
    have hrest := ih ha' hb' (hsmall ▸ hpos) (hsmall ▸ hlarge ▸ hle) hstep
    rw [hsmall, hlarge] at hrest
    exact hrest

/-- **A larger cache holds what a smaller one holds.**  Two empty caches are visited in the same way, one
after the other key, and one of them has room for more entries.  After any visits the keys of the smaller
one are the first keys of the larger one, as many as the smaller one has room for, if there are so many.
So a visit that finds its key in the smaller cache finds it in the larger one, too.  The sweep policies
play no part in it. -/
theorem larger_cache_includes_smaller {small large : Nat} (hpos : 1 ≤ small) (hle : small ≤ large)
    (policy policy' : SweepPolicy) (visits : List (Visit K P)) :
    let a := (empty small policy : ProgramCache K P).visitAll visits
    let b := (empty large policy' : ProgramCache K P).visitAll visits
    a.keys = b.keys.take (min small b.size) ∧
      ∀ v, (a.visit v).1 = true → (b.visit v).1 = true := by
  intro a b
  have hstart : (empty small policy : ProgramCache K P).keys =
      (empty large policy' : ProgramCache K P).keys.take small := by
    rw [(empty_keeps small policy).keys_eq, (empty_keeps large policy').keys_eq]
    exact List.take_nil.symm
  obtain ⟨ha, hb, hsmall, hlarge, hkeys⟩ := visitAll_take (Sound.empty small policy)
    (Sound.empty large policy') (P := P) hpos hle hstart visits
  have hfirsts : a.keys = b.keys.take small := hkeys
  refine ⟨?_, fun v hit => ?_⟩
  · have hsize : b.size = b.keys.length := hb.consistent.size_eq
    rw [hfirsts, hsize, List.take_eq_take_iff]
    omega
  · have hroom : 0 < a.capacity := hsmall ▸ hpos
    have hroom' : 0 < b.capacity := hlarge ▸ Nat.lt_of_lt_of_le hpos hle
    have hmem := (visit_leaves ha hroom v).1.1 hit
    rw [hfirsts] at hmem
    exact (visit_leaves hb hroom' v).1.2 (List.mem_of_mem_take hmem)

/-- Room for one entry and for two: after the keys 1, 2 and 3 only the larger cache holds the key 2. -/
theorem larger_cache_includes_smaller_of_two :
    let visits : List (Visit Nat Nat) := [⟨1, 10, .zero⟩, ⟨2, 20, .zero⟩, ⟨3, 30, .zero⟩]
    let a := (empty 1 .skipBusy).visitAll visits
    let b := (empty 2 .skipBusy).visitAll visits
    a.keys = [3] ∧ b.keys = [3, 2] ∧ a.keys = b.keys.take (min 1 b.size) := by
  intro visits a b
  have hincluded := larger_cache_includes_smaller (show 1 ≤ 1 by decide) (show 1 ≤ 2 by decide)
    .skipBusy .skipBusy visits
  exact ⟨by decide, by decide, hincluded.1⟩

end ProgramCache
end JsonFilter.Cache
