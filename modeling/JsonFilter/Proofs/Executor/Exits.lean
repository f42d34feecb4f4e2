import JsonFilter.Proofs.Cache.Sweeping
import JsonFilter.Proofs.Executor.Transparency

/-!
# Every exit gives back what was taken

An evaluation ends in many ways: with a value, without one, with a filter that does not compile, an
input that cannot be read, an error, a timeout or a fault of the engine.  This file shows that each of
them leaves the cache with no lease and no lock of its own, whatever engine there is.

## Traffic

`Traffic` is an executor in use by everybody: requests are worked on step by step, and clients do with
the cache what they like, under the leases that they hold.  The leases inside and outside are those that
the cache counts (`Traffic.step_sound`), so that a cache is at rest when nobody holds one.

## An evaluation from a cache at rest

`Stage.Shows` says what can be seen of the cache at every stage of an evaluation that began at rest.
A filter that does not compile leaves a miss and nothing else; every other exit leaves the key of the
filter first, before the keys that were there (`Request.evaluate_exit`).

The capacity is a soft bound: a sweep may end at an entry in use, and giving back a lease sweeps
nothing.  So there are caches at rest with too many entries, and a hit leaves them so.

* **`exits_give_back`** — what any sequence of evaluations and changes of the capacity leaves.
* **`overfull_at_rest`** — a cache that stays too full though nobody uses it.
-/

namespace JsonFilter

open Cache

variable {P : Type}

/-! ### Traffic -/

/-- An executor with the requests that it works on and the leases in the hands of clients. -/
structure Traffic (P : Type) where
  service : Service P
  holdings : List (Holding FilterKey)

/-- What happens next to an executor that everybody uses. -/
inductive Event (P : Type) where
  | move (move : Move)
  /-- A client does something with the cache. -/
  | client (action : Action FilterKey P)

/-- Whether a client changes the capacity of the cache behind the back of the executor. -/
def Event.Resizes : Event P → Prop
  | .client (.resize _) => True
  | _ => False

namespace Traffic

/-- All requests begin, and no client has a lease. -/
def start (x : Executor P) (requests : List Request) : Traffic P := ⟨.start x requests, []⟩

/-- The executor. -/
def executor (t : Traffic P) : Executor P := t.service.executor

/-- All leases that are outside the cache. -/
def leases (t : Traffic P) : List (Holding FilterKey) :=
  Service.holdingsOf t.service.calls ++ t.holdings

/-- The traffic after an event. -/
def step (t : Traffic P) : Event P → Traffic P
  | .move move => { t with service := t.service.step move }
  | .client action =>
    let w := (⟨t.executor.cache, t.holdings⟩ : SharedCache FilterKey P).step action
    ⟨{ t.service with executor := { t.executor with cache := w.cache } }, w.holdings⟩

/-- The traffic after a run. -/
def run (t : Traffic P) (events : List (Event P)) : Traffic P := events.foldl step t

end Traffic

/-! ### The leases of everybody -/

namespace Request

variable {r : Request} {x : Executor P} {stage : Stage P} {others : List (Holding FilterKey)}

/-- **A step keeps the leases counted**, whatever the engine does. -/
theorem advance_sound (h : Sound x.cache (stage.holding?.toList ++ others)) :
    Sound (r.advance x stage).1.cache ((r.advance x stage).2.holding?.toList ++ others) := by
  have hlock : ∀ {lease : Lease FilterKey}, Sound x.cache (⟨0, lease, false⟩ :: others) →
      x.cache.tryLock lease = none ∨ ∃ program c', x.cache.tryLock lease = some (program, c') ∧
        Sound c' (⟨0, lease, true⟩ :: others) := by
    intro lease h
    rcases h.lock with ⟨hnone, -⟩ | ⟨s, -, -, c', hsome, -, -, hlocked⟩
    · exact .inl hnone
    · exact .inr ⟨_, c', hsome, hlocked⟩
  cases stage with
  | acquiring =>
    dsimp only [advance]
    rcases ProgramCache.acquire_cases h.consistent r.key with
      ⟨-, hmiss⟩ | ⟨s, -, -, hlease, hr, -⟩
    · rw [hmiss]
      exact h.congr rfl rfl rfl
    · cases hacquire : x.cache.acquire r.key with
      | mk lease c' =>
        rw [hacquire] at hlease hr
        subst hlease
        exact h.use hr
  | compiling =>
    dsimp only [advance]
    split <;> exact h
  | inserting program =>
    dsimp only [advance]
    rcases ProgramCache.insert_cases h.consistent r.key program .zero with
      ⟨s, -, -, hlease, hr, -⟩ | ⟨-, hlease, c', gone, hp, -, hr⟩
    · rw [hlease]
      exact h.use hr
    · rw [hlease]
      exact (h.publish hp).retire hr
  | leased lease | waiting lease =>
    dsimp only [advance]
    rcases hlock h with hnone | ⟨program, c', hsome, hlocked⟩
    · rw [hnone]
      exact h
    · rw [hsome]
      exact hlocked
  | locked lease program =>
    dsimp only [advance]
    split <;> exact h
  | driving lease program input => exact h
  | unlocking lease program answer =>
    obtain ⟨s, -, -, -, hunlock⟩ := h.unlock
    exact (hunlock program).2.2
  | releasing lease answer => exact h.release
  | finished answer => exact h

end Request

/-! ### The capacity -/

/-- A step of an evaluation leaves the capacity. -/
theorem Request.advance_capacity (r : Request) (x : Executor P) (stage : Stage P) :
    (r.advance x stage).1.cache.capacity = x.cache.capacity := by
  have hlock : ∀ {lease : Lease FilterKey} {program : P} {c : ProgramCache FilterKey P},
      x.cache.tryLock lease = some (program, c) → c.capacity = x.cache.capacity :=
    ProgramCache.tryLock_capacity
  cases stage with
  | acquiring =>
    have hcapacity := ProgramCache.acquire_capacity x.cache r.key
    dsimp only [advance]
    split <;> rename_i hacquire <;> rw [hacquire] at hcapacity <;> exact hcapacity
  | compiling | locked =>
    dsimp only [advance]
    split <;> rfl
  | inserting program => exact ProgramCache.insert_capacity x.cache r.key program .zero
  | leased lease | waiting lease =>
    dsimp only [advance]
    split
    · rename_i hsome
      exact hlock hsome
    · rfl
  | driving | finished => rfl
  | unlocking lease program answer => exact ProgramCache.updateLeased_capacity x.cache lease _
  | releasing lease answer => exact ProgramCache.release_capacity x.cache lease

/-- **A change of the capacity**: zero is refused, and anything else is raised to the least capacity
and swept to. -/
theorem Executor.run_setCapacity (requested : Nat) (x : Executor P) :
    (setCapacity requested).run.run x =
      if requested = 0 then (.ok (.error (.capacity .nonPositive)), x)
      else
        let capacity := x.config.effectiveCapacity requested
        (.ok (.ok capacity),
          { x with cache := ({ x.cache with capacity } : ProgramCache FilterKey P).evict.2 }) := by
  unfold setCapacity
  split
  · rfl
  · rename_i hrequested
    have hget : (get : Session P (Executor P)).run.run x = (.ok x, x) := rfl
    have hpos : x.config.effectiveCapacity requested ≠ 0 := by
      have := x.config.effectiveCapacity_pos requested (Nat.pos_of_ne_zero hrequested)
      omega
    rw [run_bind, hget]
    unfold ProgramCache.resize
    dsimp only
    rw [if_neg hpos]
    rfl

namespace Traffic

variable {t : Traffic P}

/-- **Everybody keeps the leases counted.** -/
theorem step_sound (h : Sound t.executor.cache t.leases) (event : Event P) :
    Sound (t.step event).executor.cache (t.step event).leases := by
  cases event with
  | move move =>
    cases move with
    | advance i =>
      rcases Service.step_advance_cases t.service i with
        ⟨-, hstep⟩ | ⟨before, call, after, hcalls, -, hstep⟩
      · have hsame : t.step (.move (.advance i)) = t := by
          show (⟨t.service.step (.advance i), t.holdings⟩ : Traffic P) = t
          rw [hstep]
        rw [hsame]
        exact h
      · have hleases : ∀ stage : Stage P,
            (Service.holdingsOf (before ++ ⟨call.request, stage⟩ :: after) ++ t.holdings).Perm
              (stage.holding?.toList ++ (Service.holdingsOf (before ++ after) ++ t.holdings)) := by
          intro stage
          rw [← List.append_assoc]
          exact (Service.holdingsOf_perm before after ⟨call.request, stage⟩).append_right _
        have hbefore : Sound t.executor.cache (call.stage.holding?.toList ++
            (Service.holdingsOf (before ++ after) ++ t.holdings)) := by
          refine h.perm ?_
          rw [leases, hcalls]
          exact hleases call.stage
        show Sound (t.service.step (.advance i)).executor.cache
          (Service.holdingsOf (t.service.step (.advance i)).calls ++ t.holdings)
        rw [hstep]
        exact (Request.advance_sound hbefore).perm (hleases _).symm
    | evict =>
      obtain ⟨gone, hr⟩ := ProgramCache.evict_retires h.consistent
      exact h.retire hr
    | clear =>
      obtain ⟨gone, hr⟩ := ProgramCache.clear_retires h.consistent
      exact h.retire hr
    | setCapacity requested =>
      show Sound ((Executor.setCapacity requested).run.run t.executor).2.cache t.leases
      rw [Executor.run_setCapacity]
      split
      · exact h
      · have hresized : Sound { t.executor.cache with
            capacity := t.executor.config.effectiveCapacity requested } t.leases :=
          h.congr rfl rfl rfl
        obtain ⟨gone, hr⟩ := ProgramCache.evict_retires hresized.consistent
        exact hresized.retire hr
  | client action =>
    let w : SharedCache FilterKey P := ⟨t.executor.cache, t.holdings⟩
    show Sound (w.step action).cache (Service.holdingsOf t.service.calls ++ (w.step action).holdings)
    rcases w.step_append (Service.holdingsOf t.service.calls) action with hsame | hframe
    · rw [hsame]
      exact h
    · have hall : Sound t.executor.cache (t.holdings ++ Service.holdingsOf t.service.calls) :=
        h.perm List.perm_append_comm
      have hstep := (SharedCache.step_outcome (w :=
        ⟨t.executor.cache, t.holdings ++ Service.holdingsOf t.service.calls⟩) hall action).1
      rw [hframe] at hstep
      exact hstep.perm List.perm_append_comm

/-- **The capacity** stays, or is set by somebody to something positive; the executor itself respects
the least capacity of its settings, which nobody changes. -/
theorem step_capacity (t : Traffic P) (event : Event P) :
    (t.step event).executor.config = t.executor.config ∧
      ((t.step event).executor.cache.capacity = t.executor.cache.capacity ∨
        ∃ capacity, 0 < capacity ∧ (t.step event).executor.cache.capacity = capacity ∧
          (¬event.Resizes → t.executor.config.leastCapacity ≤ capacity)) := by
  cases event with
  | move move =>
    refine ⟨(t.service.step_frame move).2.1, ?_⟩
    cases move with
    | advance i =>
      show (t.service.step (.advance i)).executor.cache.capacity = _ ∨ _
      rcases Service.step_advance_cases t.service i with
        ⟨-, hstep⟩ | ⟨before, call, after, -, -, hstep⟩
      · exact .inl (by rw [hstep]; rfl)
      · rw [hstep]
        exact .inl (Request.advance_capacity call.request t.executor call.stage)
    | evict => exact .inl (ProgramCache.evict_capacity t.executor.cache)
    | clear => exact .inl (ProgramCache.clear_capacity t.executor.cache)
    | setCapacity requested =>
      show ((Executor.setCapacity requested).run.run t.executor).2.cache.capacity = _ ∨
        ∃ capacity, 0 < capacity ∧
          ((Executor.setCapacity requested).run.run t.executor).2.cache.capacity = capacity ∧ _
      rw [Executor.run_setCapacity]
      split
      · exact .inl rfl
      · rename_i hrequested
        refine .inr ⟨t.executor.config.effectiveCapacity requested,
          t.executor.config.effectiveCapacity_pos requested (Nat.pos_of_ne_zero hrequested),
          ProgramCache.evict_capacity _, fun _ => ?_⟩
        exact Nat.le_max_right _ _
  | client action =>
    refine ⟨rfl, ?_⟩
    rcases SharedCache.step_capacity ⟨t.executor.cache, t.holdings⟩ action with
      hsame | ⟨capacity, rfl, hpos, hcapacity⟩
    · exact .inl hsame
    · exact .inr ⟨capacity, hpos, hcapacity, fun hnot => absurd trivial hnot⟩

/-- **What holds of every executor in use.** -/
theorem run_keeps (hsound : Sound t.executor.cache t.leases) (hroom : 0 < t.executor.cache.capacity)
    (hleast : t.executor.config.leastCapacity ≤ t.executor.cache.capacity)
    (events : List (Event P)) :
    Sound (t.run events).executor.cache (t.run events).leases ∧
      0 < (t.run events).executor.cache.capacity ∧
      (t.run events).executor.config = t.executor.config ∧
      ((∀ event ∈ events, ¬event.Resizes) →
        t.executor.config.leastCapacity ≤ (t.run events).executor.cache.capacity) := by
  induction events using List.reverseRecOn with
  | nil => exact ⟨hsound, hroom, rfl, fun _ => hleast⟩
  | append_singleton events event ih =>
    obtain ⟨hsound', hroom', hconfig', hleast'⟩ := ih
    have hrun : t.run (events ++ [event]) = (t.run events).step event := by
      unfold run
      rw [List.foldl_append]
      rfl
    obtain ⟨hconfig, hcapacity⟩ := (t.run events).step_capacity event
    rw [hrun]
    refine ⟨step_sound hsound' event, ?_, hconfig.trans hconfig', fun hnone => ?_⟩
    · rcases hcapacity with hsame | ⟨capacity, hpos, hset, -⟩
      · rw [hsame]
        exact hroom'
      · rw [hset]
        exact hpos
    · rcases hcapacity with hsame | ⟨capacity, -, hset, hrespects⟩
      · rw [hsame]
        exact hleast' fun e he => hnone e (List.mem_append_left _ he)
      · rw [hset, ← hconfig']
        exact hrespects (hnone event (by simp))

end Traffic

/-! ### Calls one after another -/

/-- What a single client asks of an executor, one after another. -/
inductive Command where
  | evaluate (request : Request)
  | setCapacity (requested : Nat)
deriving DecidableEq, Repr

namespace Executor

/-- What an evaluation ends with. -/
def answer (x : Executor P) (r : Request) : Answer :=
  ((evaluate r.json r.filter r.terms).run.run x).1

/-- What a change of the capacity ends with. -/
def reply (x : Executor P) (requested : Nat) : Except Interruption (Except ExecError Nat) :=
  ((setCapacity requested).run.run x).1

/-- The executor after a command. -/
def obey (x : Executor P) : Command → Executor P
  | .evaluate r => ((evaluate r.json r.filter r.terms).run.run x).2
  | .setCapacity requested => ((setCapacity requested).run.run x).2

/-- The executor after some commands. -/
def obeyAll (x : Executor P) (commands : List Command) : Executor P := commands.foldl obey x

/-- **Nobody holds a lease**, and there is room for an entry. -/
structure AtRest (x : Executor P) : Prop where
  sound : Sound x.cache []
  room : 0 < x.cache.capacity

/-- The executor after a miss. -/
def missed (x : Executor P) : Executor P :=
  { x with cache := { x.cache with
      counts := { x.cache.counts with misses := x.cache.counts.misses + 1 } } }

end Executor

/-! ### An evaluation from a cache at rest -/

/-- The keys of a cache at rest after an evaluation: the evaluated one comes first; if it is new, the
oldest ones make room for it. -/
def keysAfter (c : ProgramCache FilterKey P) (key : FilterKey) : List FilterKey :=
  key :: if key ∈ c.keys then c.keys.erase key else c.keys.take (c.capacity - 1)

/-- The filter does not compile. -/
def FailsToCompile (answer : Answer) : Prop := ∃ e, answer = .ok (.error (.compile e))

/-- The answer of an evaluation that has got its program and its lock. -/
def Served (answer : Answer) : Prop := ¬FailsToCompile answer ∧ answer ≠ .error .stuck

/-- The end of a run is an answer of the program. -/
theorem RunEnd.answer_served (ending : RunEnd) (budget : Option Duration) :
    Served (ending.answer budget) := by
  cases ending with
  | crashed message => exact ⟨nofun, nofun⟩
  | result first =>
    refine ⟨fun ⟨e, he⟩ => ?_, nofun⟩
    cases first with
    | ok value => cases he
    | error fault => cases fault <;> cases he

/-- **What can be seen at a stage** of an evaluation that began at rest with the executor `x`. -/
def Stage.Shows (x : Executor P) (r : Request) (y : Executor P) : Stage P → Prop
  | .acquiring => y = x
  | .compiling => r.key ∉ x.cache.keys ∧ y = x.missed
  | .inserting _ => r.key ∉ x.cache.keys ∧ y = x.missed
  | .leased _ => y.cache.keys = keysAfter x.cache r.key
  | .waiting _ => y.cache.keys = keysAfter x.cache r.key
  | .locked _ _ => y.cache.keys = keysAfter x.cache r.key
  | .driving _ _ _ => y.cache.keys = keysAfter x.cache r.key
  | .unlocking _ _ answer => Served answer ∧ y.cache.keys = keysAfter x.cache r.key
  | .releasing _ answer => Served answer ∧ y.cache.keys = keysAfter x.cache r.key
  | .finished answer =>
    FailsToCompile answer ∧ y = x.missed ∨ Served answer ∧ y.cache.keys = keysAfter x.cache r.key

namespace Request

variable {r : Request} {x y : Executor P} {stage : Stage P}

/-- **A step shows what it should.** -/
theorem advance_shows (hrest : x.AtRest)
    (hsound : Sound y.cache (stage.holding?.toList ++ [])) (h : stage.Shows x r y) :
    (r.advance y stage).2.Shows x r (r.advance y stage).1 := by
  have hlock : ∀ {lease : Lease FilterKey} {program : P} {c : ProgramCache FilterKey P},
      y.cache.keys = keysAfter x.cache r.key → y.cache.tryLock lease = some (program, c) →
        c.keys = keysAfter x.cache r.key := fun hkeys hsome =>
    (ProgramCache.tryLock_keys hsound.consistent hsome).trans hkeys
  cases stage with
  | acquiring =>
    obtain rfl : y = x := h
    dsimp only [advance]
    rcases ProgramCache.acquire_cases hrest.sound.consistent r.key with
      ⟨hkey, hmiss⟩ | ⟨s, hs, hkey, hlease, -, -⟩
    · rw [hmiss]
      exact ⟨hkey, rfl⟩
    · have hmem : r.key ∈ y.cache.keys := hkey ▸ ProgramCache.key_mem_keys hs
      have hkeys := ProgramCache.acquire_keys hrest.sound.consistent hmem
      cases hacquire : y.cache.acquire r.key with
      | mk lease c' =>
        rw [hacquire] at hlease hkeys
        subst hlease
        show c'.keys = _
        rw [hkeys, keysAfter, if_pos hmem]
  | compiling =>
    obtain ⟨hkey, rfl⟩ := h
    dsimp only [advance]
    split
    · exact .inl ⟨⟨_, rfl⟩, rfl⟩
    · exact ⟨hkey, rfl⟩
  | inserting program =>
    obtain ⟨hkey, rfl⟩ := h
    have hkeys := ProgramCache.insert_keys (c := x.missed.cache) hsound.consistent hkey program .zero
      (fun s hs => (hrest.sound.at_rest hs).1) hrest.room
    show (x.missed.cache.insert r.key program .zero).2.keys = _
    rw [hkeys, keysAfter, if_neg hkey]
    rfl
  | leased lease | waiting lease =>
    dsimp only [advance]
    split
    · rename_i hsome
      exact hlock h hsome
    · exact h
  | locked lease program =>
    dsimp only [advance]
    split
    · exact ⟨⟨nofun, nofun⟩, h⟩
    · exact h
  | driving lease program input => exact ⟨RunEnd.answer_served _ _, h⟩
  | unlocking lease program answer =>
    obtain ⟨hserved, hkeys⟩ := h
    refine ⟨hserved, ?_⟩
    rw [← hkeys]
    exact ProgramCache.updateLeased_keys hsound.consistent lease _ fun _ => rfl
  | releasing lease answer =>
    obtain ⟨hserved, hkeys⟩ := h
    refine .inr ⟨hserved, ?_⟩
    rw [← hkeys]
    exact ProgramCache.release_keys hsound.consistent lease
  | finished answer => exact h

/-- **Steps in a row**, from a cache at rest. -/
theorem iterate_shows (hrest : x.AtRest) (r : Request)
    (steps : Nat) :
    let q := r.advanceAlone^[steps] (x, .acquiring)
    Sound q.1.cache (q.2.holding?.toList ++ []) ∧ q.2.Shows x r q.1 ∧
      q.1.cache.capacity = x.cache.capacity ∧ q.1.config = x.config ∧ q.2.work ≤ 9 - steps := by
  induction steps with
  | zero => exact ⟨hrest.sound, rfl, rfl, rfl, Nat.le_refl 9⟩
  | succ steps ih =>
    rw [Function.iterate_succ_apply']
    generalize r.advanceAlone^[steps] (x, .acquiring) = q at ih ⊢
    obtain ⟨y, stage⟩ := q
    obtain ⟨hsound, hshows, hcapacity, hconfig, hwork⟩ := ih
    dsimp only at hsound hshows hcapacity hconfig hwork
    refine ⟨advance_sound hsound, advance_shows hrest hsound hshows, ?_, ?_, ?_⟩
    · exact (r.advance_capacity y stage).trans hcapacity
    · exact (r.advance_frame y stage).2.trans hconfig
    · show (r.advance y stage).2.work ≤ _
      rcases advance_work (r := r) hsound with ⟨hidle, hstage⟩ | hless
      · cases stage with
        | waiting lease => exact absurd hidle List.not_mem_nil
        | finished answer => exact Nat.zero_le _
        | _ => exact hidle.elim
      · omega

/-- **An evaluation from a cache at rest** leaves it at rest.  It leaves a miss and nothing else if the
filter does not compile, and otherwise the key of the filter first. -/
theorem evaluate_exit (hrest : x.AtRest) (r : Request) :
    Sound (x.obey (.evaluate r)).cache [] ∧
      (x.obey (.evaluate r)).cache.capacity = x.cache.capacity ∧
      (x.obey (.evaluate r)).config = x.config ∧
      (FailsToCompile (x.answer r) ∧ x.obey (.evaluate r) = x.missed ∨
        Served (x.answer r) ∧ (x.obey (.evaluate r)).cache.keys = keysAfter x.cache r.key) := by
  obtain ⟨hsound, hshows, hcapacity, hconfig, hwork⟩ := iterate_shows hrest r 9
  have hsteps := evaluate_eq_iterate r x 0
  rw [Nat.zero_add] at hsteps
  generalize r.advanceAlone^[9] (x, .acquiring) = q
    at hsound hshows hcapacity hconfig hwork hsteps
  obtain ⟨y, stage⟩ := q
  obtain ⟨answer, rfl⟩ := Stage.eq_finished_of_work_eq_zero (Nat.le_zero.1 hwork)
  have hanswer : x.answer r = answer := congrArg Prod.fst hsteps
  have hafter : x.obey (.evaluate r) = y := congrArg Prod.snd hsteps
  rw [hanswer, hafter]
  exact ⟨hsound, hcapacity, hconfig, hshows⟩

end Request

/-! ### What a command leaves -/

namespace Executor

variable {x : Executor P}

/-- **A change of the capacity from a cache at rest** keeps as many of the newest keys as there is room
for. -/
theorem setCapacity_exit (hrest : x.AtRest) {requested : Nat} (hpos : 0 < requested) :
    x.reply requested = .ok (.ok (x.config.effectiveCapacity requested)) ∧
      Sound (x.obey (.setCapacity requested)).cache [] ∧
      (x.obey (.setCapacity requested)).cache.capacity = x.config.effectiveCapacity requested ∧
      (x.obey (.setCapacity requested)).config = x.config ∧
      (x.obey (.setCapacity requested)).cache.keys =
        x.cache.keys.take (x.config.effectiveCapacity requested) := by
  have hrun := run_setCapacity requested x
  rw [if_neg (Nat.pos_iff_ne_zero.1 hpos)] at hrun
  have hreply : x.reply requested = _ := congrArg Prod.fst hrun
  have hafter : x.obey (.setCapacity requested) = _ := congrArg Prod.snd hrun
  have hresized : Sound
      { x.cache with capacity := x.config.effectiveCapacity requested } [] :=
    hrest.sound.congr rfl rfl rfl
  obtain ⟨gone, hr⟩ := ProgramCache.evict_retires hresized.consistent
  rw [hreply, hafter]
  refine ⟨rfl, hresized.retire hr, ProgramCache.evict_capacity _, rfl, ?_⟩
  exact ProgramCache.evict_keys hresized.consistent fun s hs => (hrest.sound.at_rest hs).1

/-- **A rejected change of the capacity** changes nothing. -/
theorem setCapacity_zero (x : Executor P) :
    x.reply 0 = .ok (.error (.capacity .nonPositive)) ∧ x.obey (.setCapacity 0) = x := by
  have hrun := run_setCapacity 0 x
  rw [if_pos rfl] at hrun
  exact ⟨congrArg Prod.fst hrun, congrArg Prod.snd hrun⟩

/-- How long the list of keys is after an evaluation. -/
theorem length_keysAfter {c : ProgramCache FilterKey P} (hroom : 0 < c.capacity) (key : FilterKey) :
    (key ∈ c.keys → (keysAfter c key).length = c.keys.length) ∧
      (key ∉ c.keys → (keysAfter c key).length ≤ c.capacity) := by
  constructor
  · intro hmem
    have hpos : 0 < c.keys.length := List.length_pos_of_mem hmem
    rw [keysAfter, if_pos hmem, List.length_cons, List.length_erase_of_mem hmem]
    omega
  · intro hnot
    rw [keysAfter, if_neg hnot, List.length_cons, List.length_take]
    omega

/-- **What an evaluation leaves**: a miss and nothing else, if the filter does not compile, and otherwise
its key first. -/
theorem AtRest.evaluate_leaves (h : x.AtRest) (r : Request) :
    x.answer r ≠ .error .stuck ∧
      (FailsToCompile (x.answer r) → x.obey (.evaluate r) = x.missed) ∧
      (¬FailsToCompile (x.answer r) →
        (x.obey (.evaluate r)).cache.contains r.key = true ∧
          (x.obey (.evaluate r)).cache.keys.head? = some r.key ∧
          (r.key ∉ x.cache.keys →
            (x.obey (.evaluate r)).cache.size ≤ (x.obey (.evaluate r)).cache.capacity)) := by
  obtain ⟨hsound, hcapacity, -, hexit⟩ := Request.evaluate_exit h r
  rcases hexit with ⟨⟨e, he⟩, hmissed⟩ | ⟨⟨hcompiles, hfree⟩, hkeys⟩
  · refine ⟨fun hstuck => ?_, fun _ => hmissed, fun hnot => absurd ⟨e, he⟩ hnot⟩
    rw [he] at hstuck
    cases hstuck
  · refine ⟨hfree, fun hfails => absurd hfails hcompiles, fun _ => ⟨?_, ?_, fun hnew => ?_⟩⟩
    · rw [hsound.consistent.contains_iff, hkeys]
      exact List.mem_cons_self
    · rw [hkeys]
      rfl
    · rw [hsound.consistent.size_eq, hkeys, hcapacity]
      exact (length_keysAfter h.room r.key).2 hnew

/-- **What a change of the capacity leaves**: no more entries than it allows. -/
theorem AtRest.setCapacity_leaves (h : x.AtRest) {requested : Nat} (hpos : 0 < requested) :
    x.reply requested = .ok (.ok (x.config.effectiveCapacity requested)) ∧
      (x.obey (.setCapacity requested)).cache.capacity = x.config.effectiveCapacity requested ∧
      (x.obey (.setCapacity requested)).cache.size ≤
        (x.obey (.setCapacity requested)).cache.capacity := by
  obtain ⟨hreply, hsound, hcapacity, -, hkeys⟩ := setCapacity_exit h hpos
  refine ⟨hreply, hcapacity, ?_⟩
  rw [hsound.consistent.size_eq, hkeys, hcapacity]
  exact List.length_take_le _ _

/-- **A command leaves an executor at rest**, with its settings and at least the least capacity, and
with the entries that it had or no more than there is room for. -/
theorem AtRest.obey (h : x.AtRest) (command : Command) :
    (x.obey command).AtRest ∧ (x.obey command).config = x.config ∧
      (x.config.leastCapacity ≤ x.cache.capacity →
        x.config.leastCapacity ≤ (x.obey command).cache.capacity) ∧
      ((x.obey command).cache.size ≤ (x.obey command).cache.capacity ∨
        (x.obey command).cache.size = x.cache.size ∧
          (x.obey command).cache.capacity = x.cache.capacity) := by
  cases command with
  | evaluate r =>
    obtain ⟨hsound, hcapacity, hconfig, hexit⟩ := Request.evaluate_exit h r
    refine ⟨⟨hsound, hcapacity ▸ h.room⟩, hconfig, fun hleast => hcapacity ▸ hleast, ?_⟩
    rw [hcapacity, hsound.consistent.size_eq, h.sound.consistent.size_eq]
    rcases hexit with ⟨-, hmissed⟩ | ⟨-, hkeys⟩
    · rw [hmissed]
      exact .inr ⟨rfl, rfl⟩
    · rw [hkeys]
      obtain ⟨hhit, hmiss⟩ := length_keysAfter h.room r.key
      by_cases hmem : r.key ∈ x.cache.keys
      · exact .inr ⟨hhit hmem, rfl⟩
      · exact .inl (hmiss hmem)
  | setCapacity requested =>
    rcases Nat.eq_zero_or_pos requested with rfl | hpos
    · rw [(setCapacity_zero x).2]
      exact ⟨h, rfl, id, .inr ⟨rfl, rfl⟩⟩
    · obtain ⟨-, hsound, hcapacity, hconfig, -⟩ := setCapacity_exit h hpos
      refine ⟨⟨hsound, ?_⟩, hconfig, fun _ => ?_, .inl (h.setCapacity_leaves hpos).2.2⟩
      · rw [hcapacity]
        exact x.config.effectiveCapacity_pos requested hpos
      · rw [hcapacity]
        exact Nat.le_max_right _ _

/-- **Commands one after another** leave an executor at rest, too. -/
theorem AtRest.obeyAll (h : x.AtRest) (commands : List Command) :
    (x.obeyAll commands).AtRest ∧ (x.obeyAll commands).config = x.config ∧
      (x.config.leastCapacity ≤ x.cache.capacity →
        x.config.leastCapacity ≤ (x.obeyAll commands).cache.capacity) := by
  induction commands generalizing x with
  | nil => exact ⟨h, rfl, id⟩
  | cons command commands ih =>
    obtain ⟨hrest, hconfig, hleast, -⟩ := h.obey command
    obtain ⟨hrest', hconfig', hleast'⟩ := ih hrest
    rw [hconfig] at hleast'
    exact ⟨hrest', hconfig'.trans hconfig, fun hle => hleast' (hleast hle)⟩

/-- A new executor has an empty cache with the capacity of its settings. -/
theorem create_cache {engine : Engine P} {config : Config} {x : Executor P}
    (h : create engine config = .ok x) :
    x.config = config ∧ 0 < config.cacheCapacity ∧
      x.cache = .empty (config.effectiveCapacity config.cacheCapacity) config.sweepPolicy := by
  have hpos : config.validate = .ok () → 0 < config.cacheCapacity := by
    intro hvalid
    unfold Config.validate at hvalid
    split at hvalid
    · cases hvalid
    · rename_i hne
      exact Nat.pos_of_ne_zero hne
  unfold create at h
  cases hvalid : config.validate with
  | error e =>
    rw [hvalid] at h
    cases h
  | ok valid =>
    rw [hvalid] at h
    cases h
    exact ⟨rfl, hpos hvalid, rfl⟩

/-- An executor that everybody uses is at rest whenever nobody holds a lease. -/
theorem atRest_of_leases_eq_nil {engine : Engine P} {config : Config} {x : Executor P}
    (hx : create engine config = .ok x) (requests : List Request) (events : List (Event P))
    (hleases : ((Traffic.start x requests).run events).leases = []) :
    ((Traffic.start x requests).run events).executor.AtRest ∧
      ((Traffic.start x requests).run events).executor.config = config ∧
      ((∀ event ∈ events, ¬event.Resizes) → config.leastCapacity ≤
        ((Traffic.start x requests).run events).executor.cache.capacity) := by
  obtain ⟨hconfig, hpos, hcache⟩ := create_cache hx
  have hcapacity : x.cache.capacity = config.effectiveCapacity config.cacheCapacity := by
    rw [hcache]
    rfl
  have hnone : (Traffic.start x requests).leases = [] := by
    have hcalls : Service.holdingsOf (Service.start x requests).calls = [] := by
      refine List.filterMap_eq_nil_iff.2 fun call hcall => ?_
      obtain ⟨r, -, rfl⟩ := List.mem_map.1 hcall
      rfl
    show Service.holdingsOf (Service.start x requests).calls ++ [] = []
    rw [hcalls]
    rfl
  have hsound : Sound x.cache (Traffic.start x requests).leases := by
    rw [hnone, hcache]
    exact Sound.empty _ _
  have hroom : 0 < x.cache.capacity := by
    rw [hcapacity]
    exact config.effectiveCapacity_pos _ hpos
  have hleast : x.config.leastCapacity ≤ x.cache.capacity := by
    rw [hcapacity, hconfig]
    exact Nat.le_max_right _ _
  obtain ⟨hsound', hroom', hconfig', hleast'⟩ :=
    Traffic.run_keeps (t := Traffic.start x requests) hsound hroom hleast events
  rw [hleases] at hsound'
  have hsettings : (Traffic.start x requests).executor.config = config := hconfig
  rw [hsettings] at hconfig' hleast'
  exact ⟨⟨hsound', hroom'⟩, hconfig', hleast'⟩

end Executor

/-- **Every exit gives back what was taken.**  Everybody uses an executor until nobody holds a lease, and
then a single client evaluates filters and changes the capacity, one after another.  After each of these
commands no entry has a lease or a lock, the capacity is at least the least one of the settings, unless a
client has set it lower, and there are no more entries than the capacity allows, if there were no more
before; a command that leaves too many entries has changed neither their number nor the capacity.  A
filter that does not compile leaves a miss and nothing else.  Every other evaluation gets its program and
its lock, and leaves its key cached and first; if the key is new, there are no more entries then than the
capacity allows.  A capacity of zero is refused and changes nothing; any other one takes effect, raised to
the least one, and the entries are swept to it. -/
theorem exits_give_back (engine : Engine P) {config : Config} {x₀ : Executor P}
    (hx : Executor.create engine config = .ok x₀) (requests : List Request)
    (events : List (Event P)) (hleases : ((Traffic.start x₀ requests).run events).leases = [])
    (commands : List Command) (command : Command) :
    let x := ((Traffic.start x₀ requests).run events).executor.obeyAll commands
    let y := x.obey command
    (∀ s ∈ y.cache.slots, s.refs = 0 ∧ s.entry.locked = false) ∧
      0 < y.cache.capacity ∧
      ((∀ event ∈ events, ¬event.Resizes) → config.leastCapacity ≤ y.cache.capacity) ∧
      (x.cache.size ≤ x.cache.capacity → y.cache.size ≤ y.cache.capacity) ∧
      (y.cache.size ≤ y.cache.capacity ∨
        y.cache.size = x.cache.size ∧ y.cache.capacity = x.cache.capacity) ∧
      (∀ r, command = .evaluate r →
        x.answer r ≠ .error .stuck ∧ (FailsToCompile (x.answer r) → y = x.missed) ∧
          (¬FailsToCompile (x.answer r) →
            y.cache.contains r.key = true ∧ y.cache.keys.head? = some r.key ∧
              (r.key ∉ x.cache.keys → y.cache.size ≤ y.cache.capacity))) ∧
      (command = .setCapacity 0 →
        x.reply 0 = .ok (.error (.capacity .nonPositive)) ∧ y = x) ∧
      ∀ requested, 0 < requested → command = .setCapacity requested →
        x.reply requested = .ok (.ok (config.effectiveCapacity requested)) ∧
          y.cache.capacity = config.effectiveCapacity requested ∧
          y.cache.size ≤ y.cache.capacity := by
  intro x y
  obtain ⟨hbefore, hconfig₀, hleast₀⟩ :=
    Executor.atRest_of_leases_eq_nil hx requests events hleases
  obtain ⟨hrest, hconfig, hleast⟩ := hbefore.obeyAll commands
  rw [hconfig₀] at hconfig hleast
  obtain ⟨hafter, -, hleast', hsize⟩ := hrest.obey command
  rw [hconfig] at hleast'
  refine ⟨fun s hs => hafter.sound.at_rest hs, hafter.room,
    fun hnone => hleast' (hleast (hleast₀ hnone)), fun hfits => ?_, hsize, ?_, ?_, ?_⟩
  · rcases hsize with hle | ⟨hsame, hcapacity⟩
    · exact hle
    · show (x.obey command).cache.size ≤ (x.obey command).cache.capacity
      rw [hsame, hcapacity]
      exact hfits
  · rintro r rfl
    exact hrest.evaluate_leaves r
  · rintro rfl
    exact Executor.setCapacity_zero x
  · rintro requested hpos rfl
    rw [← hconfig]
    exact hrest.setCapacity_leaves hpos

/-- An engine whose programs give back their input. -/
def Engine.echo : Engine Unit where
  compile _ := .ok ()
  run program input _ := (program, .result (.ok (some input)))

/-- An executor with room for two entries, and for one at least. -/
def Executor.narrow : Executor Unit where
  engine := .echo
  config := { cacheCapacity := 2, minCapacity := some 1 }
  cache := .empty 2 .stopAtBusy

/-- Two entries are leased while the capacity becomes one; then the leases are given back. -/
def overfull : List (Event Unit) :=
  [.client (.insert 1 ⟨".a", false⟩ () .zero), .client (.insert 1 ⟨".b", false⟩ () .zero),
    .move (.setCapacity 1), .client (.release 1 ⟨0, ⟨".a", false⟩⟩),
    .client (.release 1 ⟨1, ⟨".b", false⟩⟩)]

/-- A change of the capacity sweeps a cache at rest that is too full. -/
theorem exits_give_back_overfull :
    let x := ((Traffic.start Executor.narrow []).run overfull).executor
    Executor.create .echo { cacheCapacity := 2, minCapacity := some 1 } = .ok .narrow ∧
      ((Traffic.start Executor.narrow []).run overfull).leases = [] ∧ x.cache.size = 2 ∧
      x.reply 1 = .ok (.ok 1) ∧ (x.obey (.setCapacity 1)).cache.capacity = 1 ∧
      (x.obey (.setCapacity 1)).cache.size ≤ (x.obey (.setCapacity 1)).cache.capacity := by
  intro x
  have hx : Executor.create .echo { cacheCapacity := 2, minCapacity := some 1 } = .ok .narrow := rfl
  have hleases : ((Traffic.start Executor.narrow []).run overfull).leases = [] := by decide
  obtain ⟨-, -, -, -, -, -, -, hset⟩ :=
    exits_give_back .echo hx [] overfull hleases [] (.setCapacity 1)
  exact ⟨hx, hleases, by decide, hset 1 (by decide) rfl⟩

/-- **A cache at rest can be too full**, and a hit leaves it so. -/
theorem overfull_at_rest :
    let x := ((Traffic.start Executor.narrow []).run overfull).executor
    let y := x.obey (.evaluate ⟨"0", ".a", {}⟩)
    Executor.create .echo { cacheCapacity := 2, minCapacity := some 1 } = .ok .narrow ∧
      ((Traffic.start Executor.narrow []).run overfull).leases = [] ∧
      y.cache.keys = [⟨".a", false⟩, ⟨".b", false⟩] ∧ y.cache.capacity < y.cache.size := by
  intro x y
  exact ⟨rfl, by decide, by decide +kernel, by decide +kernel⟩

end JsonFilter
