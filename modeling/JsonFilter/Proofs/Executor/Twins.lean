import JsonFilter.Proofs.Cache.Programs
import JsonFilter.Proofs.Executor.Exits

/-!
# Executors that differ in their programs only

Two executors are twins if their engines accept the same filters and nothing but the programs in their
caches differs; the programs may be of different kinds, and what they do on a run plays no part
(`Executor.Twin`).  A request takes the same steps with both, however its runs end (`Stage.Twin`).  So
nothing that a cache or a lock counts depends on what programs do:

* **`Service.run_twin`** — twins stay twins with any moves of any requests.
* **`Executor.Twin.obeyAll`** — and with any commands of a single client.
-/

namespace JsonFilter

open Cache
open Json (Value)

variable {P Q : Type}

/-! ### Engines and executors -/

/-- **Two engines accept the same filters** and refuse the others with the same complaints. -/
def Engine.AcceptsAs (engine : Engine P) (engine' : Engine Q) : Prop :=
  ∀ key e, engine.compile key = .error e ↔ engine'.compile key = .error e

/-- A filter is refused by both engines or by neither. -/
theorem Engine.AcceptsAs.compile_cases {engine : Engine P} {engine' : Engine Q}
    (h : engine.AcceptsAs engine') (key : FilterKey) :
    (∃ e, engine.compile key = .error e ∧ engine'.compile key = .error e) ∨
      ∃ program program', engine.compile key = .ok program ∧ engine'.compile key = .ok program' := by
  cases hcompile : engine.compile key with
  | error e => exact .inl ⟨e, rfl, (h key e).1 hcompile⟩
  | ok program =>
    cases hcompile' : engine'.compile key with
    | error e =>
      rw [(h key e).2 hcompile'] at hcompile
      cases hcompile
    | ok program' => exact .inr ⟨program, program', rfl, rfl⟩

/-- **Two executors differ in their programs only**, and in what these do on a run. -/
structure Executor.Twin (x : Executor P) (y : Executor Q) : Prop where
  accepts : x.engine.AcceptsAs y.engine
  config : x.config = y.config
  cache : x.cache.Twin y.cache
  locks : x.locks = y.locks

theorem Executor.Twin.withCache {x : Executor P} {y : Executor Q} (h : x.Twin y)
    {c : ProgramCache FilterKey P} {d : ProgramCache FilterKey Q} (hcache : c.Twin d) :
    ({ x with cache := c } : Executor P).Twin { y with cache := d } :=
  { h with cache := hcache }

/-- New executors with the same settings are twins. -/
theorem Executor.twin_of_create {engine : Engine P} {engine' : Engine Q} {config : Config}
    {x : Executor P} {y : Executor Q} (haccepts : engine.AcceptsAs engine')
    (hx : Executor.create engine config = .ok x) (hy : Executor.create engine' config = .ok y) :
    x.Twin y := by
  unfold Executor.create at hx hy
  cases hvalid : config.validate with
  | error e =>
    rw [hvalid] at hx
    cases hx
  | ok valid =>
    rw [hvalid] at hx hy
    cases hx
    cases hy
    exact ⟨haccepts, rfl, .empty _ _, rfl⟩

/-! ### Requests -/

/-- **Two evaluations have come equally far** and differ in their programs and answers only. -/
inductive Stage.Twin : Stage P → Stage Q → Prop where
  | acquiring : Twin .acquiring .acquiring
  | compiling : Twin .compiling .compiling
  | inserting (program program') : Twin (.inserting program) (.inserting program')
  | leased (lease) : Twin (.leased lease) (.leased lease)
  | waiting (lease) : Twin (.waiting lease) (.waiting lease)
  | locked (lease program program') : Twin (.locked lease program) (.locked lease program')
  | driving (lease program program' input) :
    Twin (.driving lease program input) (.driving lease program' input)
  | unlocking (lease program program' answer answer') :
    Twin (.unlocking lease program answer) (.unlocking lease program' answer')
  | releasing (lease answer answer') : Twin (.releasing lease answer) (.releasing lease answer')
  | finished (answer answer') : Twin (.finished answer) (.finished answer')

namespace Request

variable {x : Executor P} {y : Executor Q} {stage : Stage P} {stage' : Stage Q}

/-- A request finds an entry locked by both executors or by neither. -/
theorem tryLock_twin (h : x.Twin y) (lease : Lease FilterKey) :
    x.cache.tryLock lease = none ∧ y.cache.tryLock lease = none ∨
      ∃ program c program' d, x.cache.tryLock lease = some (program, c) ∧
        y.cache.tryLock lease = some (program', d) ∧
        ({ x with cache := c, locks := x.locks.taken } : Executor P).Twin
          { y with cache := d, locks := y.locks.taken } := by
  rcases h.cache.tryLock_cases lease with hnone | ⟨program, c, program', d, hx, hy, hcache⟩
  · exact .inl hnone
  · exact .inr ⟨program, c, program', d, hx, hy,
      { h with cache := hcache, locks := congrArg LockCounts.taken h.locks }⟩

/-- **Twins stay twins with every step** of a request. -/
theorem advance_twin (r : Request) (h : x.Twin y) (hstage : stage.Twin stage') :
    (r.advance x stage).1.Twin (r.advance y stage').1 ∧
      (r.advance x stage).2.Twin (r.advance y stage').2 := by
  cases hstage with
  | acquiring =>
    obtain ⟨hlease, hcache⟩ := h.cache.acquire r.key
    dsimp only [advance]
    rcases hx : x.cache.acquire r.key with ⟨lease?, c⟩
    rcases hy : y.cache.acquire r.key with ⟨lease?', d⟩
    rw [hx, hy] at hlease hcache
    obtain rfl : lease? = lease?' := hlease
    cases lease? with
    | none => exact ⟨h.withCache hcache, .compiling⟩
    | some lease => exact ⟨h.withCache hcache, .leased lease⟩
  | compiling =>
    dsimp only [advance]
    rcases h.accepts.compile_cases r.key with ⟨e, hx, hy⟩ | ⟨program, program', hx, hy⟩
    · rw [hx, hy]
      exact ⟨h, .finished _ _⟩
    · rw [hx, hy]
      exact ⟨h, .inserting program program'⟩
  | inserting program program' =>
    obtain ⟨hlease, hcache⟩ := h.cache.insert r.key program program' .zero
    dsimp only [advance]
    rw [hlease]
    exact ⟨h.withCache hcache, .leased _⟩
  | leased lease =>
    dsimp only [advance]
    rcases tryLock_twin h lease with ⟨hx, hy⟩ | ⟨program, c, program', d, hx, hy, hlocked⟩
    · rw [hx, hy]
      exact ⟨{ h with locks := congrArg LockCounts.waited h.locks }, .waiting lease⟩
    · rw [hx, hy]
      exact ⟨hlocked, .locked lease program program'⟩
  | waiting lease =>
    dsimp only [advance]
    rcases tryLock_twin h lease with ⟨hx, hy⟩ | ⟨program, c, program', d, hx, hy, hlocked⟩
    · rw [hx, hy]
      exact ⟨h, .waiting lease⟩
    · rw [hx, hy]
      exact ⟨hlocked, .locked lease program program'⟩
  | locked lease program program' =>
    dsimp only [advance]
    cases Value.ofText r.json with
    | error e => exact ⟨h, .unlocking lease program program' _ _⟩
    | ok input => exact ⟨h, .driving lease program program' input⟩
  | driving lease program program' input => exact ⟨h, .unlocking lease _ _ _ _⟩
  | unlocking lease program program' answer answer' =>
    exact ⟨h.withCache (h.cache.unlock lease program program'), .releasing lease answer answer'⟩
  | releasing lease answer answer' =>
    exact ⟨h.withCache (h.cache.release lease), .finished answer answer'⟩
  | finished answer answer' => exact ⟨h, .finished answer answer'⟩

theorem iterate_twin (r : Request) (h : x.Twin y) (hstage : stage.Twin stage') (steps : Nat) :
    (r.advanceAlone^[steps] (x, stage)).1.Twin (r.advanceAlone^[steps] (y, stage')).1 := by
  induction steps generalizing x y stage stage' with
  | zero => exact h
  | succ steps ih =>
    obtain ⟨h', hstage'⟩ := advance_twin r h hstage
    rw [Function.iterate_succ_apply, Function.iterate_succ_apply]
    exact ih h' hstage'

end Request

/-! ### Commands -/

namespace Executor

variable {x : Executor P} {y : Executor Q}

theorem Twin.setCapacity (h : x.Twin y) (requested : Nat) :
    ((setCapacity requested).run.run x).2.Twin ((setCapacity requested).run.run y).2 := by
  have hcapacity : x.config.effectiveCapacity requested = y.config.effectiveCapacity requested := by
    rw [h.config]
  rw [run_setCapacity, run_setCapacity, hcapacity]
  split
  · exact h
  · exact h.withCache (h.cache.withCapacity _).evict

/-- **Twins stay twins with every command.** -/
theorem Twin.obey (h : x.Twin y) (command : Command) : (x.obey command).Twin (y.obey command) := by
  cases command with
  | evaluate r =>
    have hx : x.obey (.evaluate r) = (r.advanceAlone^[9] (x, .acquiring)).1 :=
      congrArg Prod.snd (r.evaluate_eq_iterate x 0)
    have hy : y.obey (.evaluate r) = (r.advanceAlone^[9] (y, .acquiring)).1 :=
      congrArg Prod.snd (r.evaluate_eq_iterate y 0)
    rw [hx, hy]
    exact r.iterate_twin h .acquiring 9
  | setCapacity requested => exact h.setCapacity requested

theorem Twin.obeyAll (h : x.Twin y) (commands : List Command) :
    (x.obeyAll commands).Twin (y.obeyAll commands) := by
  induction commands generalizing x y with
  | nil => exact h
  | cons command commands ih => exact ih (h.obey command)

end Executor

/-! ### Services -/

/-- The same request, equally far. -/
def Call.Twin (call : Call P) (call' : Call Q) : Prop :=
  call.request = call'.request ∧ call.stage.Twin call'.stage

namespace Service

/-- **Two services differ in programs and answers only.** -/
structure Twin (v : Service P) (w : Service Q) : Prop where
  executor : v.executor.Twin w.executor
  calls : List.Forall₂ Call.Twin v.calls w.calls

variable {v : Service P} {w : Service Q}

theorem start_twin {x : Executor P} {y : Executor Q} (h : x.Twin y) (requests : List Request) :
    (start x requests).Twin (start y requests) := by
  refine ⟨h, ?_⟩
  unfold start
  rw [List.forall₂_map_left_iff, List.forall₂_map_right_iff]
  exact List.forall₂_same.2 fun r _ => ⟨rfl, .acquiring⟩

/-- The calls at one place. -/
theorem Twin.getElem? (h : v.Twin w) (i : Nat) :
    v.calls[i]? = none ∧ w.calls[i]? = none ∨
      ∃ call call', v.calls[i]? = some call ∧ w.calls[i]? = some call' ∧ call.Twin call' := by
  obtain ⟨hlength, hget⟩ := List.forall₂_iff_get.1 h.calls
  rcases Nat.lt_or_ge i v.calls.length with hi | hi
  · exact .inr ⟨_, _, List.getElem?_eq_getElem hi, List.getElem?_eq_getElem (hlength ▸ hi),
      hget i hi (hlength ▸ hi)⟩
  · exact .inl ⟨List.getElem?_eq_none hi, List.getElem?_eq_none (hlength ▸ hi)⟩

theorem Twin.of_getElem? (h : v.Twin w) {i : Nat} {call : Call P} {call' : Call Q}
    (hv : v.calls[i]? = some call) (hw : w.calls[i]? = some call') : call.Twin call' := by
  rcases h.getElem? i with ⟨hnone, -⟩ | ⟨found, found', hv', hw', hcall⟩
  · rw [hv] at hnone
    cases hnone
  · obtain rfl := Option.some.inj (hv.symm.trans hv')
    obtain rfl := Option.some.inj (hw.symm.trans hw')
    exact hcall

/-- One call is replaced in both services. -/
theorem Twin.set (h : v.Twin w) {call : Call P} {call' : Call Q} (hcall : call.Twin call') (i : Nat) :
    List.Forall₂ Call.Twin (v.calls.set i call) (w.calls.set i call') := by
  obtain ⟨hlength, hget⟩ := List.forall₂_iff_get.1 h.calls
  refine List.forall₂_iff_get.2 ⟨?_, fun j hj hj' => ?_⟩
  · rw [List.length_set, List.length_set, hlength]
  · rw [List.get_eq_getElem, List.get_eq_getElem, List.getElem_set, List.getElem_set]
    split
    · exact hcall
    · rw [List.length_set] at hj hj'
      exact hget j hj hj'

/-- **Twins stay twins with every move.** -/
theorem step_twin (h : v.Twin w) (move : Move) : (v.step move).Twin (w.step move) := by
  cases move with
  | advance i =>
    dsimp only [step]
    rcases h.getElem? i with ⟨hv, hw⟩ | ⟨call, call', hv, hw, hrequest, hstage⟩
    · rw [hv, hw]
      exact h
    · rw [hv, hw]
      dsimp only
      rw [← hrequest]
      obtain ⟨hexecutor, hadvanced⟩ := call.request.advance_twin h.executor hstage
      exact ⟨hexecutor, h.set ⟨rfl, hadvanced⟩ i⟩
  | evict => exact ⟨h.executor.withCache h.executor.cache.evict, h.calls⟩
  | clear => exact ⟨h.executor.withCache h.executor.cache.clear, h.calls⟩
  | setCapacity requested => exact ⟨h.executor.setCapacity requested, h.calls⟩

/-- **Twins stay twins with every run.** -/
theorem run_twin (h : v.Twin w) (moves : List Move) : (v.run moves).Twin (w.run moves) := by
  induction moves generalizing v w with
  | nil => exact h
  | cons move moves ih => exact ih (step_twin h move)

end Service
end JsonFilter
