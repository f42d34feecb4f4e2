import JsonFilter.Proofs.Cache.Leases

/-!
# Every program is torn down once

A program that was handed to the cache is owned by it from then on: it is cached under its key, or it
came too late for its key, or it was removed.  This file shows that at each moment of each run it is in
exactly one of these places, so that no program is torn down twice, too early or never.

## Tickets

Programs may be equal and may change while they are driven.  To tell them apart, the cache is run on
programs with tickets (`Handed`): the first program handed in has ticket 0, the next one has ticket 1, and
driving a program leaves its ticket (`Action.stamp`).

## The ledger

A `Ledger` is a shared cache of such programs together with an account of the programs that it has
dropped, apart for insertions whose key was there and for removals.  An action drops what the cache
has retired during it (`droppedBy`).

* **`step_moves`** — an action moves programs from one place to another; only idle ones leave the cache.
* **`Balanced`** — the tickets cached and the tickets dropped are all tickets, each of them once.
* **`every_program_is_in_one_place`** — the balance after any run, and what follows from it.
-/

namespace JsonFilter.Cache

open ProgramCache

variable {K P : Type}

/-! ### Programs with tickets -/

/-- A program that was handed to the cache, with the ticket that it got for that. -/
structure Handed (P : Type) where
  ticket : Nat
  program : P

/-- An action on programs with tickets; the next program that is handed in has the given ticket. -/
def Action.stamp (ticket : Nat) : Action K P → Action K (Handed P)
  | .acquire client key => .acquire client key
  | .insert client key program compileTime => .insert client key ⟨ticket, program⟩ compileTime
  | .release client lease => .release client lease
  | .lock client lease => .lock client lease
  | .unlock client lease change =>
    .unlock client lease fun handed => { handed with program := change handed.program }
  | .evict => .evict
  | .resize capacity => .resize capacity
  | .clear => .clear

/-- The tickets of some programs. -/
def ticketsOf (programs : List (Handed P)) : List Nat := programs.map Handed.ticket

theorem ticketsOf_append (programs programs' : List (Handed P)) :
    ticketsOf (programs ++ programs') = ticketsOf programs ++ ticketsOf programs' :=
  List.map_append

theorem ticketsOf_programsOf (slots : List (Slot K (Handed P))) :
    ticketsOf (programsOf slots) = slots.map fun s => s.entry.program.ticket :=
  List.map_map

/-- A shared cache with an account of the programs that were handed in and dropped. -/
structure Ledger (K P : Type) where
  shared : SharedCache K (Handed P)
  /-- How many programs were handed in. -/
  handed : Nat
  /-- The programs that came too late for their keys. -/
  duplicates : List (Handed P)
  /-- The programs whose entries were removed. -/
  removed : List (Handed P)

namespace Ledger

/-- Nothing was handed in yet. -/
def start (capacity : Nat) (policy : SweepPolicy) : Ledger K P :=
  ⟨SharedCache.start capacity policy, 0, [], []⟩

/-- The programs of the entries, the most recently used first. -/
def cached (l : Ledger K P) : List (Handed P) := programsOf l.shared.cache.slots

/-- The programs that were dropped between two states of a shared cache. -/
def droppedBy (before after : SharedCache K (Handed P)) : List (Handed P) :=
  after.cache.retired.drop before.cache.retired.length

/-- What is dropped is what stands behind the old account. -/
theorem droppedBy_eq {before after : SharedCache K (Handed P)} {dropped : List (Handed P)}
    (h : after.cache.retired = before.cache.retired ++ dropped) :
    droppedBy before after = dropped := by
  unfold droppedBy
  rw [h, List.drop_left]

/-- Replacing a slot leaves the tickets if it leaves the ticket of the slot. -/
theorem tickets_of_replaces {c c' : ProgramCache K (Handed P)} {s s' : Slot K (Handed P)}
    (hr : c.Replaces s s' c') (hticket : s'.entry.program.ticket = s.entry.program.ticket) :
    (ticketsOf (programsOf c'.slots)).Perm (ticketsOf (programsOf c.slots)) := by
  rw [ticketsOf_programsOf, ticketsOf_programsOf]
  exact hr.map_perm _ hticket

/-- Driving a program leaves its ticket. -/
theorem ticket_of_stamp_eq_unlock {action : Action K P} {ticket client : Nat} {lease : Lease K}
    {change : Handed P → Handed P} (h : action.stamp ticket = .unlock client lease change)
    (handed : Handed P) : (change handed).ticket = handed.ticket := by
  cases action with
  | unlock client lease change' =>
    obtain ⟨-, -, rfl⟩ := Action.unlock.inj h
    rfl
  | _ => cases h

/-- Only an insertion hands a program in, with the next ticket. -/
theorem of_stamp_eq_insert {action : Action K P} {ticket client : Nat} {key : K}
    {handed : Handed P} {compileTime : Duration}
    (h : action.stamp ticket = .insert client key handed compileTime) :
    handed.ticket = ticket ∧ action = .insert client key handed.program compileTime := by
  cases action with
  | insert client key program compileTime =>
    obtain ⟨rfl, rfl, rfl, rfl⟩ := Action.insert.inj h
    exact ⟨rfl, rfl⟩
  | _ => cases h

variable [DecidableEq K]

/-- The ledger after an action. -/
def step (l : Ledger K P) (action : Action K P) : Ledger K P :=
  let shared := l.shared.step (action.stamp l.handed)
  let dropped := droppedBy l.shared shared
  match action with
  | .insert _ key _ _ =>
    if key ∈ l.shared.cache.keys then
      ⟨shared, l.handed + 1, l.duplicates ++ dropped, l.removed⟩
    else ⟨shared, l.handed + 1, l.duplicates, l.removed ++ dropped⟩
  | _ => ⟨shared, l.handed, l.duplicates, l.removed ++ dropped⟩

/-- The ledger after a run. -/
def run (l : Ledger K P) (actions : List (Action K P)) : Ledger K P := actions.foldl step l

/-! ### The balance -/

/-- **The balance of a ledger.**  The tickets cached and the tickets dropped are all tickets that were
given, each of them once, and what was dropped is what the cache has retired. -/
structure Balanced (l : Ledger K P) : Prop where
  sound : Sound l.shared.cache l.shared.holdings
  tickets : (ticketsOf l.cached ++ ticketsOf l.duplicates ++ ticketsOf l.removed).Perm
    (List.range l.handed)
  retired : l.shared.cache.retired.Perm (l.duplicates ++ l.removed)

variable {l : Ledger K P}

theorem start_balanced (capacity : Nat) (policy : SweepPolicy) :
    (start capacity policy : Ledger K P).Balanced := by
  have hslots : (ProgramCache.empty capacity policy : ProgramCache K (Handed P)).slots = [] :=
    (empty_keeps capacity policy).slots_eq
  refine ⟨Sound.empty capacity policy, ?_, List.Perm.nil⟩
  show (ticketsOf (programsOf (ProgramCache.slots _)) ++ [] ++ []).Perm (List.range 0)
  rw [show (start capacity policy : Ledger K P).shared.cache = ProgramCache.empty capacity policy
    from rfl, hslots]
  exact List.Perm.nil

/-! ### What an action moves -/

theorem shared_step (l : Ledger K P) (action : Action K P) :
    (l.step action).shared = l.shared.step (action.stamp l.handed) := by
  cases action with
  | insert client key program compileTime =>
    dsimp only [step]
    split <;> rfl
  | _ => rfl

/-- **The account of an action**: some programs come too late, some slots are gone, and a new ticket may
be given. -/
structure Moves (l : Ledger K P) (late : List (Handed P)) (gone : List (Slot K (Handed P)))
    (l' : Ledger K P) : Prop where
  duplicates : l'.duplicates = l.duplicates ++ late
  removed : l'.removed = l.removed ++ programsOf gone
  retired : l'.shared.cache.retired = l.shared.cache.retired ++ late ++ programsOf gone
  tickets : ∃ new, List.range l'.handed = List.range l.handed ++ new ∧
    (ticketsOf l.cached ++ new).Perm
      (ticketsOf late ++ ticketsOf (programsOf gone) ++ ticketsOf l'.cached)
  /-- Nobody has a lease on what is gone. -/
  idle : ∀ s ∈ gone, s ∈ l.shared.cache.slots ∧ s.entry.lease ∉ leasesOf l.shared.holdings

/-- An action that hands nothing in accounts for what it drops as removed. -/
theorem step_of_program?_eq_none {action : Action K P}
    (h : (action.stamp l.handed).program? = none) :
    l.step action = ⟨l.shared.step (action.stamp l.handed), l.handed, l.duplicates,
      l.removed ++ droppedBy l.shared (l.shared.step (action.stamp l.handed))⟩ := by
  cases action with
  | insert client key program compileTime => cases h
  | _ => rfl

/-- An insertion whose key is there drops its own program and no other. -/
theorem step_insert_of_mem_keys (h : Sound l.shared.cache l.shared.holdings) {client : Nat} {key : K}
    {program : P} {compileTime : Duration} (hkey : key ∈ l.shared.cache.keys) :
    let l' := l.step (.insert client key program compileTime)
    l'.duplicates = l.duplicates ++ [⟨l.handed, program⟩] ∧ l'.removed = l.removed ∧
      (ticketsOf l'.cached).Perm (ticketsOf l.cached) := by
  obtain ⟨-, hout⟩ :=
    SharedCache.step_outcome h (.insert client key ⟨l.handed, program⟩ compileTime)
  cases hout with
  | duplicate _ hr hretired =>
    dsimp only [step, Action.stamp]
    rw [if_pos hkey, droppedBy_eq hretired]
    exact ⟨rfl, rfl, tickets_of_replaces hr rfl⟩
  | published hfresh _ _ _ => exact absurd hkey hfresh
  | same hinsert _ _ => cases hinsert
  | counted hinsert _ _ _ => cases hinsert
  | removed hinsert _ => cases hinsert

/-- **Every action moves programs** from one place to another and loses none. -/
theorem step_moves (h : Sound l.shared.cache l.shared.holdings) (action : Action K P) :
    ∃ late gone, l.Moves late gone (l.step action) := by
  obtain ⟨-, hout⟩ := SharedCache.step_outcome h (action.stamp l.handed)
  -- an idle slot of the cache has no leases outside
  have hidle : ∀ s ∈ l.shared.cache.slots, s.refs = 0 →
      s ∈ l.shared.cache.slots ∧ s.entry.lease ∉ leasesOf l.shared.holdings := by
    intro s hs hrefs
    rw [h.refs s hs] at hrefs
    exact ⟨hs, List.count_eq_zero.1 hrefs⟩
  have hnone : ∀ gone, (action.stamp l.handed).program? = none →
      (l.shared.step (action.stamp l.handed)).cache.retired =
        l.shared.cache.retired ++ programsOf gone →
      (ticketsOf l.cached).Perm (ticketsOf (programsOf gone) ++
        ticketsOf (programsOf (l.shared.step (action.stamp l.handed)).cache.slots)) →
      (∀ s ∈ gone, s ∈ l.shared.cache.slots ∧ s.entry.lease ∉ leasesOf l.shared.holdings) →
      ∃ late gone, l.Moves late gone (l.step action) := by
    intro gone hinsert hretired htickets hgone
    rw [step_of_program?_eq_none hinsert, droppedBy_eq hretired]
    refine ⟨[], gone, (List.append_nil _).symm, rfl, ?_, ⟨[], (List.append_nil _).symm, ?_⟩, hgone⟩
    · rw [List.append_nil]
      exact hretired
    · rw [List.append_nil]
      exact htickets
  have hkept : (action.stamp l.handed).program? = none →
      (l.shared.step (action.stamp l.handed)).cache.retired = l.shared.cache.retired →
      (ticketsOf (programsOf (l.shared.step (action.stamp l.handed)).cache.slots)).Perm
        (ticketsOf l.cached) →
      ∃ late gone, l.Moves late gone (l.step action) := by
    intro hinsert hretired htickets
    refine hnone [] hinsert (hretired.trans (List.append_nil _).symm) htickets.symm ?_
    exact fun s hs => absurd hs List.not_mem_nil
  generalize hstamp : action.stamp l.handed = stamped at hout hnone hkept
  cases hout with
  | same hinsert hslots hretired =>
    refine hkept hinsert hretired ?_
    rw [hslots]
    exact List.Perm.refl _
  | counted hinsert hr hprogram hretired =>
    exact hkept hinsert hretired (tickets_of_replaces hr (congrArg Handed.ticket hprogram))
  | driven hr hprogram hretired =>
    refine hkept rfl hretired (tickets_of_replaces hr ?_)
    rw [hprogram]
    exact ticket_of_stamp_eq_unlock hstamp _
  | @duplicate client key handed compileTime _ s hkey hr hretired =>
    obtain ⟨hticket, rfl⟩ := of_stamp_eq_insert hstamp
    dsimp only [step]
    rw [hstamp, if_pos hkey, droppedBy_eq hretired]
    refine ⟨[handed], [], rfl, (List.append_nil _).symm, ?_, ⟨[l.handed], List.range_succ, ?_⟩, ?_⟩
    · exact hretired.trans (List.append_nil _).symm
    · have hsame := (tickets_of_replaces hr rfl).symm.append_right [l.handed]
      show (ticketsOf l.cached ++ [l.handed]).Perm (handed.ticket :: _)
      rw [hticket]
      exact hsame.trans List.perm_append_comm
    · exact fun s hs => absurd hs List.not_mem_nil
  | @published client key handed compileTime c₁ _ gone hkey hp hretired hr =>
    obtain ⟨hticket, rfl⟩ := of_stamp_eq_insert hstamp
    have hall := hr.retired
    rw [hretired] at hall
    dsimp only [step]
    rw [hstamp, if_neg hkey, droppedBy_eq hall]
    refine ⟨[], gone, (List.append_nil _).symm, rfl, ?_, ⟨[l.handed], List.range_succ, ?_⟩, ?_⟩
    · rw [List.append_nil]
      exact hall
    · have hadded := (hp.perm.map fun s => s.entry.program).map Handed.ticket
      have hleft := (hr.perm.map fun s => s.entry.program).map Handed.ticket
      rw [List.map_append, List.map_append] at hleft
      have hnew : (ticketsOf l.cached ++ [l.handed]).Perm (handed.ticket :: ticketsOf l.cached) := by
        rw [hticket]
        exact List.perm_append_singleton _ _
      exact hnew.trans (hadded.symm.trans hleft)
    · intro s hs
      -- the slot that was just published has a lease already
      have hmem := hp.perm.mem_iff.1 (hr.perm.mem_iff.2 (List.mem_append_left _ hs))
      refine hidle s ((List.mem_cons.1 hmem).resolve_left ?_) (hr.idle s hs)
      rintro rfl
      cases hr.idle _ hs
  | @removed _ _ gone hinsert hr =>
    refine hnone gone hinsert hr.retired ?_ fun s hs => ?_
    · have htickets := (hr.perm.map fun s => s.entry.program).map Handed.ticket
      rw [List.map_append, List.map_append] at htickets
      exact htickets
    · exact hidle s (hr.perm.mem_iff.2 (List.mem_append_left _ hs)) (hr.idle s hs)

/-! ### Runs -/

/-- **What is moved stays in the balance.** -/
theorem Balanced.moves (h : l.Balanced) {l' : Ledger K P} {late : List (Handed P)}
    {gone : List (Slot K (Handed P))} (hm : l.Moves late gone l')
    (hsound : Sound l'.shared.cache l'.shared.holdings) : l'.Balanced := by
  obtain ⟨new, hrange, hmoved⟩ := hm.tickets
  refine ⟨hsound, ?_, ?_⟩
  · rw [List.perm_iff_count]
    intro t
    have hbefore := h.tickets.count_eq t
    have hcount := hmoved.count_eq t
    rw [hm.duplicates, hm.removed, hrange]
    simp only [ticketsOf_append, List.count_append] at hbefore hcount ⊢
    omega
  · have hlate : (l.shared.cache.retired ++ late).Perm (l.duplicates ++ late ++ l.removed) := by
      refine (h.retired.append_right late).trans ?_
      rw [List.append_assoc, List.append_assoc]
      exact List.perm_append_comm.append_left _
    rw [hm.retired, hm.duplicates, hm.removed, ← List.append_assoc]
    exact hlate.append_right _

/-- **Every action preserves the balance.** -/
theorem step_balanced (h : l.Balanced) (action : Action K P) : (l.step action).Balanced := by
  obtain ⟨late, gone, hm⟩ := step_moves h.sound action
  refine h.moves hm ?_
  rw [shared_step]
  exact (SharedCache.step_outcome h.sound _).1

/-- **Every run preserves the balance.** -/
theorem run_balanced (h : l.Balanced) (actions : List (Action K P)) : (l.run actions).Balanced := by
  induction actions generalizing l with
  | nil => exact h
  | cons action actions ih => exact ih (step_balanced h action)

/-- The tickets given are as many as the programs handed in. -/
theorem handed_run (l : Ledger K P) (actions : List (Action K P)) :
    (l.run actions).handed = l.handed + (actions.filterMap Action.program?).length := by
  induction actions generalizing l with
  | nil => rfl
  | cons action actions ih =>
    show ((l.step action).run actions).handed = _
    rw [ih]
    cases action with
    | insert client key program compileTime =>
      have hstep : (l.step (.insert client key program compileTime)).handed = l.handed + 1 := by
        dsimp only [step]
        split <;> rfl
      rw [hstep]
      simp only [List.filterMap_cons, Action.program?, List.length_cons]
      omega
    | _ => rfl

/-- **Every program is in one place.**  After any interleaving of the actions of any number of clients on
an empty cache, the programs that were handed in are those cached, those that came too late for their
keys and those removed, each of them once; the last two kinds are what was dropped.  An insertion whose
key is there drops its own program and nothing else, within the same action; what an action removes are
programs of cached entries without leases.  No program is dropped whose entry is still cached or on
whose entry a lease is outside. -/
theorem every_program_is_in_one_place (capacity : Nat) (policy : SweepPolicy)
    (actions : List (Action K P)) :
    let l := (start capacity policy : Ledger K P).run actions
    l.handed = (actions.filterMap Action.program?).length ∧
      (ticketsOf l.cached ++ ticketsOf l.duplicates ++ ticketsOf l.removed).Perm
        (List.range l.handed) ∧
      l.shared.cache.retired.Perm (l.duplicates ++ l.removed) ∧
      (ticketsOf l.shared.cache.retired).Nodup ∧
      (∀ client key program compileTime, key ∈ l.shared.cache.keys →
        let l' := l.step (.insert client key program compileTime)
        l'.duplicates = l.duplicates ++ [⟨l.handed, program⟩] ∧ l'.removed = l.removed ∧
          (ticketsOf l'.cached).Perm (ticketsOf l.cached)) ∧
      (∀ action, ∃ gone, (l.step action).removed = l.removed ++ programsOf gone ∧
        ∀ s ∈ gone, s ∈ l.shared.cache.slots ∧ s.entry.lease ∉ leasesOf l.shared.holdings) ∧
      (∀ s ∈ l.shared.cache.slots, s.entry.program.ticket ∉ ticketsOf l.shared.cache.retired) ∧
      (∀ holding ∈ l.shared.holdings, ∃ s ∈ l.shared.cache.slots, s.entry.lease = holding.lease ∧
        s.entry.program.ticket ∉ ticketsOf l.shared.cache.retired) := by
  intro l
  have h : l.Balanced := run_balanced (start_balanced capacity policy) actions
  have hretired : (ticketsOf l.shared.cache.retired).Perm
      (ticketsOf l.duplicates ++ ticketsOf l.removed) := by
    rw [← ticketsOf_append]
    exact h.retired.map Handed.ticket
  have hnodup : (ticketsOf l.cached ++ (ticketsOf l.duplicates ++ ticketsOf l.removed)).Nodup := by
    rw [← List.append_assoc]
    exact h.tickets.nodup_iff.2 List.nodup_range
  obtain ⟨-, hdropped, hdisjoint⟩ := List.nodup_append.1 hnodup
  have hcached : ∀ s ∈ l.shared.cache.slots,
      s.entry.program.ticket ∉ ticketsOf l.shared.cache.retired := by
    intro s hs hmem
    have hticket : s.entry.program.ticket ∈ ticketsOf l.cached := by
      unfold cached
      rw [ticketsOf_programsOf]
      exact List.mem_map_of_mem hs
    exact hdisjoint _ hticket _ (hretired.mem_iff.1 hmem) rfl
  refine ⟨?_, h.tickets, h.retired, hretired.nodup_iff.2 hdropped, ?_, ?_, hcached, ?_⟩
  · show ((start capacity policy : Ledger K P).run actions).handed = _
    rw [handed_run]
    exact Nat.zero_add _
  · exact fun client key program compileTime hkey => step_insert_of_mem_keys h.sound hkey
  · intro action
    obtain ⟨late, gone, hm⟩ := step_moves h.sound action
    exact ⟨gone, hm.removed, hm.idle⟩
  · intro holding hmem
    obtain ⟨s, hs, hlease⟩ := h.sound.cached holding.lease (List.mem_map_of_mem hmem)
    exact ⟨s, hs, hlease, hcached s hs⟩

end Ledger
end JsonFilter.Cache
