import JsonFilter.Proofs.Cache.Leases
import JsonFilter.Proofs.Executor.Requests

/-!
# What a step of an evaluation keeps

An evaluation finds a cache that others have filled and will go on to use.  This file shows what it can
rely on there and what it leaves behind with every step.

## The invariant

* `Engine.Fills` — every entry holds the program that its own key compiles to.
* `Sound` — the leases in the hands of the evaluations are those that the cache counts.
* `Stage.Fits` — what an evaluation has got so far is what it would have got without a cache.

## What is proved

* **`advance_keeps`** — a step keeps all of that.
* **`advance_work`** — a step leaves less to do, unless the evaluation is finished or waits for a lock
  that somebody else holds.
-/

namespace JsonFilter

open Cache
open Json (Value)

variable {P : Type}

/-! ### Engines -/

/-- The answer that needs no cache: a fresh compile, the input, and the first value of the run. -/
def Engine.fresh (engine : Engine P) (json : String) (key : FilterKey) (budget : Option Duration) :
    Answer :=
  match engine.compile key with
  | .error e => .ok (.error (.compile e))
  | .ok program =>
    match Value.ofText json with
    | .error e => .ok (.error (.invalidInput e))
    | .ok input => (Executor.drive engine program input budget).2.answer budget

/-- A run leaves the program as it was. -/
def Engine.Steady (engine : Engine P) : Prop :=
  ∀ program input budget, (engine.run program input budget).1 = program

theorem Engine.filters_steady (environment : Value) : (Engine.filters environment).Steady :=
  fun _ _ _ => rfl

theorem Executor.drive_fst {engine : Engine P} (h : engine.Steady) (program : P) (input : Value)
    (budget : Option Duration) : (Executor.drive engine program input budget).1 = program := by
  unfold Executor.drive
  split
  · rfl
  · exact h program input budget

/-- **Every entry holds the program of its own key.** -/
def Engine.Fills (engine : Engine P) (c : ProgramCache FilterKey P) : Prop :=
  ∀ s ∈ c.slots, engine.compile s.entry.key = .ok s.entry.program

namespace Engine.Fills

variable {engine : Engine P} {c c' : ProgramCache FilterKey P} {s s' : Slot FilterKey P}

theorem empty (engine : Engine P) (capacity : Nat) (policy : SweepPolicy) :
    engine.Fills (ProgramCache.empty capacity policy) := by
  have hslots : (ProgramCache.empty capacity policy : ProgramCache FilterKey P).slots = [] :=
    (ProgramCache.empty_keeps capacity policy).slots_eq
  intro s hs
  rw [hslots] at hs
  exact absurd hs List.not_mem_nil

/-- A slot that is replaced keeps its program, or gets the one that its key compiles to. -/
theorem replaces (h : engine.Fills c) (hr : c.Replaces s s' c')
    (hprogram : engine.compile s.entry.key = .ok s'.entry.program) : engine.Fills c' := by
  intro t ht
  rcases hr.eq_or_mem ht with rfl | hmem
  · have hkey : t.entry.key = s.entry.key := congrArg Lease.key hr.lease
    rw [hkey, hprogram]
  · exact h t hmem

theorem publishes (h : engine.Fills c) (hp : c.Publishes s c')
    (hprogram : engine.compile s.entry.key = .ok s.entry.program) : engine.Fills c' := by
  intro t ht
  rcases List.mem_cons.1 (hp.perm.mem_iff.1 ht) with rfl | hmem
  · exact hprogram
  · exact h t hmem

theorem retires (h : engine.Fills c) {gone : List (Slot FilterKey P)} (hr : c.Retires gone c') :
    engine.Fills c' := fun t ht =>
  h t (hr.perm.mem_iff.2 (List.mem_append_right _ ht))

end Engine.Fills

/-! ### Stages -/

namespace Stage

/-- The lease that an evaluation holds.  The cache does not tell clients apart, so that all leases may
stand under one of them. -/
def holding? : Stage P → Option (Holding FilterKey)
  | .leased lease | .waiting lease | .releasing lease _ => some ⟨0, lease, false⟩
  | .locked lease _ | .driving lease _ _ | .unlocking lease _ _ => some ⟨0, lease, true⟩
  | .acquiring | .compiling | .inserting _ | .finished _ => none

/-- **What an evaluation has got so far** is what it would have got without a cache. -/
def Fits (engine : Engine P) (r : Request) (budget : Option Duration) : Stage P → Prop
  | .acquiring => True
  | .compiling => True
  | .inserting program => engine.compile r.key = .ok program
  | .leased lease => lease.key = r.key
  | .waiting lease => lease.key = r.key
  | .locked lease program => lease.key = r.key ∧ engine.compile r.key = .ok program
  | .driving lease program input =>
    lease.key = r.key ∧ engine.compile r.key = .ok program ∧ Value.ofText r.json = .ok input
  | .unlocking lease program answer =>
    lease.key = r.key ∧ engine.compile r.key = .ok program ∧
      answer = engine.fresh r.json r.key budget
  | .releasing _ answer => answer = engine.fresh r.json r.key budget
  | .finished answer => answer = engine.fresh r.json r.key budget

/-- How many steps are left at most, apart from the tries to get a lock. -/
def work : Stage P → Nat
  | .acquiring => 9
  | .compiling => 8
  | .inserting _ => 7
  | .leased _ => 6
  | .waiting _ => 5
  | .locked _ _ => 4
  | .driving _ _ _ => 3
  | .unlocking _ _ _ => 2
  | .releasing _ _ => 1
  | .finished _ => 0

theorem eq_finished_of_work_eq_zero {stage : Stage P} (h : stage.work = 0) :
    ∃ answer, stage = .finished answer := by
  cases stage with
  | finished answer => exact ⟨answer, rfl⟩
  | _ => cases h

/-- Nothing can be done at the moment: all is done, or another one holds the lock. -/
def Idle (others : List (Holding FilterKey)) : Stage P → Prop
  | .waiting lease => lease ∈ drivenOf others
  | .finished _ => True
  | _ => False

end Stage

/-! ### Steps -/

namespace Request

variable {r : Request} {x : Executor P} {stage : Stage P} {others : List (Holding FilterKey)}

/-- A step leaves the engine and the settings. -/
theorem advance_frame (r : Request) (x : Executor P) (stage : Stage P) :
    (r.advance x stage).1.engine = x.engine ∧ (r.advance x stage).1.config = x.config := by
  cases stage <;> dsimp only [advance] <;> (try split) <;> exact ⟨rfl, rfl⟩

/-- **A step keeps what all evaluations rely on,** whatever leases the others hold. -/
theorem advance_keeps (hsteady : x.engine.Steady)
    (hsound : Sound x.cache (stage.holding?.toList ++ others)) (hfills : x.engine.Fills x.cache)
    (hfits : stage.Fits x.engine r (x.budget r.terms)) :
    Sound (r.advance x stage).1.cache ((r.advance x stage).2.holding?.toList ++ others) ∧
      x.engine.Fills (r.advance x stage).1.cache ∧
      (r.advance x stage).2.Fits x.engine r (x.budget r.terms) := by
  -- a lock gives the program that the key of the lease compiles to
  have hlock : ∀ {lease : Lease FilterKey}, lease.key = r.key →
      Sound x.cache (⟨0, lease, false⟩ :: others) →
      x.cache.tryLock lease = none ∨
        ∃ program c', x.cache.tryLock lease = some (program, c') ∧
          Sound c' (⟨0, lease, true⟩ :: others) ∧ x.engine.Fills c' ∧
          x.engine.compile r.key = .ok program := by
    intro lease hkey hsound
    rcases hsound.lock with ⟨hnone, -⟩ | ⟨s, hs, rfl, c', hsome, hr, -, hsound'⟩
    · exact .inl hnone
    · have hprogram := hfills s hs
      exact .inr ⟨_, c', hsome, hsound', hfills.replaces hr hprogram, hkey ▸ hprogram⟩
  cases stage with
  | acquiring =>
    dsimp only [advance]
    rcases ProgramCache.acquire_cases hsound.consistent r.key with
      ⟨-, hmiss⟩ | ⟨s, hs, hkey, hlease, hr, -⟩
    · rw [hmiss]
      exact ⟨hsound.congr rfl rfl rfl, hfills, trivial⟩
    · cases hacquire : x.cache.acquire r.key with
      | mk lease c' =>
        rw [hacquire] at hlease hr
        subst hlease
        exact ⟨hsound.use hr, hfills.replaces hr (hfills s hs), hkey⟩
  | compiling =>
    dsimp only [advance]
    cases hcompile : x.engine.compile r.key with
    | error e =>
      refine ⟨hsound, hfills, ?_⟩
      show _ = x.engine.fresh r.json r.key _
      unfold Engine.fresh
      rw [hcompile]
    | ok program => exact ⟨hsound, hfills, hcompile⟩
  | inserting program =>
    dsimp only [advance]
    rcases ProgramCache.insert_cases hsound.consistent r.key program .zero with
      ⟨s, hs, hkey, hlease, hr, -⟩ | ⟨-, hlease, c', gone, hp, -, hr⟩
    · rw [hlease]
      exact ⟨hsound.use hr, hfills.replaces hr (hfills s hs), hkey⟩
    · rw [hlease]
      exact ⟨(hsound.publish hp).retire hr, (hfills.publishes hp hfits).retires hr, rfl⟩
  | leased lease =>
    dsimp only [advance]
    rcases hlock hfits hsound with hnone | ⟨program, c', hsome, hsound', hfills', hprogram⟩
    · rw [hnone]
      exact ⟨hsound, hfills, hfits⟩
    · rw [hsome]
      exact ⟨hsound', hfills', hfits, hprogram⟩
  | waiting lease =>
    dsimp only [advance]
    rcases hlock hfits hsound with hnone | ⟨program, c', hsome, hsound', hfills', hprogram⟩
    · rw [hnone]
      exact ⟨hsound, hfills, hfits⟩
    · rw [hsome]
      exact ⟨hsound', hfills', hfits, hprogram⟩
  | locked lease program =>
    obtain ⟨hkey, hprogram⟩ := hfits
    dsimp only [advance]
    cases hjson : Value.ofText r.json with
    | error e =>
      refine ⟨hsound, hfills, hkey, hprogram, ?_⟩
      unfold Engine.fresh
      rw [hprogram, hjson]
    | ok input => exact ⟨hsound, hfills, hkey, hprogram, hjson⟩
  | driving lease program input =>
    obtain ⟨hkey, hprogram, hjson⟩ := hfits
    dsimp only [advance]
    refine ⟨hsound, hfills, hkey, ?_, ?_⟩
    · rw [Executor.drive_fst hsteady, hprogram]
    · unfold Engine.fresh
      rw [hprogram, hjson]
  | unlocking lease program answer =>
    obtain ⟨hkey, hprogram, hanswer⟩ := hfits
    obtain ⟨s, -, hlease, -, hunlock⟩ := hsound.unlock
    obtain ⟨hr, -, hsound'⟩ := hunlock program
    subst hlease
    exact ⟨hsound', hfills.replaces hr ((congrArg x.engine.compile hkey).trans hprogram), hanswer⟩
  | releasing lease answer =>
    obtain ⟨s, hs, rfl⟩ := hsound.cached lease List.mem_cons_self
    obtain ⟨hr, -⟩ := ProgramCache.release_replaces hsound.consistent hs
    exact ⟨hsound.release, hfills.replaces hr (hfills s hs), hfits⟩
  | finished answer => exact ⟨hsound, hfills, hfits⟩

/-- **A step leaves less to do,** unless nothing can be done at the moment. -/
theorem advance_work (hsound : Sound x.cache (stage.holding?.toList ++ others)) :
    stage.Idle others ∧ (r.advance x stage).2 = stage ∨
      (r.advance x stage).2.work < stage.work := by
  cases stage with
  | acquiring =>
    dsimp only [advance]
    split
    · exact .inr (show 6 < 9 by omega)
    · exact .inr (show 8 < 9 by omega)
  | compiling =>
    dsimp only [advance]
    split
    · exact .inr (show 0 < 8 by omega)
    · exact .inr (show 7 < 8 by omega)
  | inserting program => exact .inr (show 6 < 7 by omega)
  | leased lease =>
    dsimp only [advance]
    split
    · exact .inr (show 4 < 6 by omega)
    · exact .inr (show 5 < 6 by omega)
  | waiting lease =>
    dsimp only [advance]
    rcases hsound.lock with ⟨hnone, hdriven⟩ | ⟨s, -, -, c', hsome, -⟩
    · rw [hnone]
      exact .inl ⟨hdriven, rfl⟩
    · rw [hsome]
      exact .inr (show 4 < 5 by omega)
  | locked lease program =>
    dsimp only [advance]
    split
    · exact .inr (show 2 < 4 by omega)
    · exact .inr (show 3 < 4 by omega)
  | driving lease program input => exact .inr (show 2 < 3 by omega)
  | unlocking lease program answer => exact .inr (show 1 < 2 by omega)
  | releasing lease answer => exact .inr (show 0 < 1 by omega)
  | finished answer => exact .inl ⟨trivial, rfl⟩

/-- **Steps in a row** keep it as well, and the engine and the settings with it. -/
theorem iterate_keeps (hsteady : x.engine.Steady)
    (hsound : Sound x.cache (stage.holding?.toList ++ others)) (hfills : x.engine.Fills x.cache)
    (hfits : stage.Fits x.engine r (x.budget r.terms)) (steps : Nat) :
    let q := r.advanceAlone^[steps] (x, stage)
    q.1.engine = x.engine ∧ q.1.config = x.config ∧
      Sound q.1.cache (q.2.holding?.toList ++ others) ∧ x.engine.Fills q.1.cache ∧
      q.2.Fits x.engine r (x.budget r.terms) := by
  induction steps with
  | zero => exact ⟨rfl, rfl, hsound, hfills, hfits⟩
  | succ steps ih =>
    rw [Function.iterate_succ_apply']
    generalize r.advanceAlone^[steps] (x, stage) = q at ih ⊢
    obtain ⟨y, stage'⟩ := q
    obtain ⟨hengine, hconfig, hsound', hfills', hfits'⟩ := ih
    dsimp only at hengine hconfig hsound' hfills' hfits'
    obtain ⟨hengine', hconfig'⟩ := r.advance_frame y stage'
    have hbudget := Executor.budget_congr hconfig r.terms
    rw [← hengine] at hsteady hfills' hfits' ⊢
    rw [← hbudget] at hfits' ⊢
    obtain ⟨hsound'', hfills'', hfits''⟩ := advance_keeps hsteady hsound' hfills' hfits'
    exact ⟨hengine', hconfig'.trans hconfig, hsound'', hfills'', hfits''⟩

/-- Where none of the others drives a program, nothing holds an evaluation up. -/
theorem iterate_work (hsteady : x.engine.Steady) (hfree : drivenOf others = [])
    (hsound : Sound x.cache (stage.holding?.toList ++ others)) (hfills : x.engine.Fills x.cache)
    (hfits : stage.Fits x.engine r (x.budget r.terms)) (steps : Nat) :
    (r.advanceAlone^[steps] (x, stage)).2.work ≤ stage.work - steps := by
  induction steps with
  | zero => exact Nat.le_refl _
  | succ steps ih =>
    obtain ⟨-, -, hsound', -⟩ := iterate_keeps hsteady hsound hfills hfits steps
    rw [Function.iterate_succ_apply']
    generalize r.advanceAlone^[steps] (x, stage) = q at ih hsound' ⊢
    obtain ⟨y, stage'⟩ := q
    dsimp only at ih hsound'
    show (r.advance y stage').2.work ≤ _
    rcases advance_work (r := r) hsound' with ⟨hidle, hstage⟩ | hless
    · cases stage' with
      | waiting lease =>
        have hdriven : lease ∈ drivenOf others := hidle
        rw [hfree] at hdriven
        exact absurd hdriven List.not_mem_nil
      | finished answer => exact Nat.zero_le _
      | _ => exact hidle.elim
    · omega

/-- **An evaluation that nobody holds up** gives the answer that needs no cache. -/
theorem evaluate_fst (hsteady : x.engine.Steady) (hfree : drivenOf others = [])
    (hsound : Sound x.cache others) (hfills : x.engine.Fills x.cache) (r : Request) :
    ((Executor.evaluate r.json r.filter r.terms).run.run x).1 =
      x.engine.fresh r.json r.key (x.budget r.terms) := by
  have hsound' : Sound x.cache ((.acquiring : Stage P).holding?.toList ++ others) := hsound
  obtain ⟨-, -, -, -, hfits⟩ := iterate_keeps (r := r) hsteady hsound' hfills trivial 9
  have hwork := iterate_work (r := r) hsteady hfree hsound' hfills trivial 9
  obtain ⟨answer, hanswer⟩ := Stage.eq_finished_of_work_eq_zero (Nat.le_zero.1 hwork)
  rw [hanswer] at hfits
  rw [evaluate_eq_iterate r x 0]
  show (Stage.answer? (r.advanceAlone^[9] (x, .acquiring)).2).getD _ = _
  rw [hanswer]
  exact hfits

end Request
end JsonFilter
