import JsonFilter.Proofs.Executor.Dispatch
import JsonFilter.Proofs.Executor.Lenient
import JsonFilter.Proofs.Template.Awaiting

/-!
# Workers change nothing

Whatever can be asked of an executor can be asked of its workers: evaluations, lenient evaluations and
renderings.  Each of them is written a second time for that, and a rendering on workers goes through its
template in its own way.  This file shows that nobody can tell by the results, nor by the executor that
is left, apart from what the workers count.

## What the workers count

No step of an evaluation looks at these counters or changes them (`advance_counting`), so that an
evaluation on a worker is the one on the spot (`Agrees`).  What is put together from such evaluations
agrees as well, and the two ways through a template are one function of the evaluation.

## Crashes

A crash ends an evaluation on the spot without a result, while a worker reports it as an error.  So the
engine must not crash, and a time budget, if there is one, must not be beyond all clocks.

* **`workers_change_nothing`** — the same results, and the same executor.
-/

namespace JsonFilter

open Json (Value)

variable {P : Type}

/-! ### Engines that do not crash -/

/-- **No run crashes.** -/
def Engine.Calm (engine : Engine P) : Prop :=
  ∀ program input budget message, (engine.run program input budget).2 ≠ .crashed message

theorem Engine.filters_calm (environment : Value) : (Engine.filters environment).Calm :=
  fun _ _ _ _ => nofun

/-- The answer of an evaluation that has not crashed. -/
def Answer.Calm (answer : Answer) : Prop := ∀ message, answer ≠ .error (.crashed message)

theorem Answer.calm_ok (evaluation : Evaluation) : Answer.Calm (.ok evaluation) := fun _ => nofun

/-- What an evaluation has got so far is no crash. -/
def Stage.Calm : Stage P → Prop
  | .unlocking _ _ answer | .releasing _ answer | .finished answer => Answer.Calm answer
  | _ => True

/-- No evaluation of some terms crashes. -/
structure Executor.Calm (x : Executor P) (terms : Terms) : Prop where
  engine : x.engine.Calm
  clock : Executor.clockFault? (x.budget terms) = none

section Calm

variable {x : Executor P} {r : Request} {stage : Stage P}

/-- A run of a calm executor has an answer. -/
theorem Executor.Calm.drive (h : x.Calm r.terms) (program : P) (input : Value) :
    ((Executor.drive x.engine program input (x.budget r.terms)).2.answer (x.budget r.terms)).Calm := by
  have hcalm := h.engine program input (x.budget r.terms)
  unfold Executor.drive
  rw [h.clock]
  dsimp only
  cases hending : (x.engine.run program input (x.budget r.terms)).2 with
  | crashed message => exact absurd hending (hcalm message)
  | result first => exact Answer.calm_ok _

/-- **A step of a calm executor** brings no crash. -/
theorem Request.advance_calm (h : x.Calm r.terms) (hstage : stage.Calm) :
    (r.advance x stage).2.Calm := by
  cases stage with
  | acquiring | leased | waiting =>
    dsimp only [advance]
    split <;> trivial
  | compiling =>
    dsimp only [advance]
    split
    · exact Answer.calm_ok _
    · trivial
  | inserting => trivial
  | locked =>
    dsimp only [advance]
    split
    · exact Answer.calm_ok _
    · trivial
  | driving lease program input => exact h.drive program input
  | unlocking | releasing | finished => exact hstage

/-- A step leaves an executor calm. -/
theorem Executor.Calm.advance {terms : Terms} (h : x.Calm terms) (r : Request) (stage : Stage P) :
    (r.advance x stage).1.Calm terms := by
  obtain ⟨hengine, hconfig⟩ := r.advance_frame x stage
  refine ⟨hengine ▸ h.engine, ?_⟩
  rw [Executor.budget_congr hconfig]
  exact h.clock

/-- **So do all steps,** and there is no crash. -/
theorem Request.iterate_calm (h : x.Calm r.terms) (hstage : stage.Calm) (steps : Nat) :
    (r.advanceAlone^[steps] (x, stage)).1.Calm r.terms ∧
      (r.advanceAlone^[steps] (x, stage)).2.Calm := by
  induction steps generalizing x stage with
  | zero => exact ⟨h, hstage⟩
  | succ steps ih => exact ih (h.advance r stage) (advance_calm h hstage)

/-- **An evaluation by a calm executor** does not crash, and leaves the executor calm. -/
theorem Executor.Calm.evaluate {terms : Terms} (h : x.Calm terms) (json filter : String) :
    Answer.Calm ((Executor.evaluate json filter terms).run.run x).1 ∧
      ((Executor.evaluate json filter terms).run.run x).2.Calm terms := by
  let r : Request := ⟨json, filter, terms⟩
  have hbegins : (Stage.acquiring : Stage P).Calm := trivial
  obtain ⟨hleft, hlast⟩ := Request.iterate_calm (r := r) h hbegins 9
  have hsteps : (Executor.evaluate json filter terms).run.run x = _ := r.evaluate_eq_iterate x 0
  rw [hsteps]
  refine ⟨?_, hleft⟩
  show Answer.Calm ((r.advanceAlone^[9] (x, .acquiring)).2.answer?.getD (.error .stuck))
  cases hanswer : (r.advanceAlone^[9] (x, .acquiring)).2.answer? with
  | none => exact fun _ => nofun
  | some answer =>
    rw [Stage.answer?_eq_some_iff.1 hanswer] at hlast
    exact hlast

end Calm

/-! ### What the workers count -/

/-- An executor whose workers have counted something else. -/
def Executor.counting (x : Executor P) (tasks : Task.Metrics) : Executor P := { x with tasks }

/-- **A step does not look at the counters,** and leaves them. -/
theorem Request.advance_counting (r : Request) (x : Executor P) (stage : Stage P)
    (tasks : Task.Metrics) :
    r.advance (x.counting tasks) stage =
      ((r.advance x stage).1.counting tasks, (r.advance x stage).2) := by
  cases stage with
  | acquiring =>
    dsimp only [advance, Executor.counting]
    rcases x.cache.acquire r.key with ⟨_ | lease, cache⟩ <;> rfl
  | compiling =>
    dsimp only [advance, Executor.counting]
    cases x.engine.compile r.key <;> rfl
  | leased lease | waiting lease =>
    dsimp only [advance, Executor.counting]
    rcases x.cache.tryLock lease with _ | ⟨program, cache⟩ <;> rfl
  | locked lease program =>
    dsimp only [advance]
    cases Value.ofText r.json <;> rfl
  | inserting | driving | unlocking | releasing | finished => rfl

theorem Request.iterate_counting (r : Request) (x : Executor P) (stage : Stage P)
    (tasks : Task.Metrics) (steps : Nat) :
    r.advanceAlone^[steps] (x.counting tasks, stage) =
      ((r.advanceAlone^[steps] (x, stage)).1.counting tasks,
        (r.advanceAlone^[steps] (x, stage)).2) := by
  induction steps generalizing x stage with
  | zero => rfl
  | succ steps ih =>
    have hstep : r.advanceAlone (x.counting tasks, stage) =
        ((r.advanceAlone (x, stage)).1.counting tasks, (r.advanceAlone (x, stage)).2) :=
      r.advance_counting x stage tasks
    rw [Function.iterate_succ_apply, Function.iterate_succ_apply, hstep]
    exact ih _ _

namespace Executor

/-- **Nor does an evaluation.** -/
theorem run_evaluate_counting (json filter : String) (terms : Terms) (x : Executor P)
    (tasks : Task.Metrics) :
    (evaluate json filter terms).run.run (x.counting tasks) =
      (((evaluate json filter terms).run.run x).1,
        ((evaluate json filter terms).run.run x).2.counting tasks) := by
  let r : Request := ⟨json, filter, terms⟩
  have hsteps : (evaluate json filter terms).run.run x = _ := r.evaluate_eq_iterate x 0
  have hcounting : (evaluate json filter terms).run.run (x.counting tasks) = _ :=
    r.evaluate_eq_iterate (x.counting tasks) 0
  rw [hcounting, hsteps, r.iterate_counting]

/-- What is done where something may be caught. -/
theorem run_tryCatch {α : Type} (s : Session P α) (handle : Interruption → Session P α)
    (x : Executor P) :
    (tryCatch s handle).run.run x =
      match s.run.run x with
      | (.ok a, x') => (.ok a, x')
      | (.error e, x') => (handle e).run.run x' := by
  rw [ExceptT.run_tryCatch, StateT.run_bind]
  rcases s.run.run x with ⟨result, x'⟩
  cases result <;> rfl

/-- **An evaluation on a worker** that does not crash is one on the spot.  The worker counts its task
before, and after it unless it is stuck. -/
theorem run_evaluateOnWorker {json filter : String} {terms : Terms} {x : Executor P}
    (hcalm : Answer.Calm ((evaluate json filter terms).run.run x).1) (tasks : Task.Metrics) :
    ∃ left, (evaluateOnWorker json filter terms).run.run (x.counting tasks) =
      (((evaluate json filter terms).run.run x).1,
        ((evaluate json filter terms).run.run x).2.counting left) := by
  have hspawn : (modify (fun x => { x with tasks := x.tasks.spawn }) : Session P Unit).run.run
      (x.counting tasks) = (.ok (), x.counting tasks.spawn) := rfl
  unfold evaluateOnWorker
  rw [run_bind, hspawn]
  dsimp only
  rw [run_bind, run_tryCatch, run_evaluate_counting]
  rcases hrun : (evaluate json filter terms).run.run x with ⟨(message | -) | evaluation, y⟩
  · exact absurd (congrArg Prod.fst hrun) (hcalm message)
  · exact ⟨tasks.spawn, rfl⟩
  · exact ⟨tasks.spawn.complete, rfl⟩

/-! ### Sessions that agree -/

/-- **Two sessions agree**: from executors that differ in what their workers count, they come to the same
result and to such executors again. -/
def Agrees (terms : Terms) {α : Type} (s t : Session P α) : Prop :=
  ∀ (x : Executor P) (tasks : Task.Metrics), x.Calm terms →
    (s.run.run x).2.Calm terms ∧
      ∃ left, t.run.run (x.counting tasks) = ((s.run.run x).1, (s.run.run x).2.counting left)

variable {terms : Terms}

theorem Agrees.bind {α β : Type} {s t : Session P α} {f g : α → Session P β} (hs : Agrees terms s t)
    (hf : ∀ a, Agrees terms (f a) (g a)) : Agrees terms (s >>= f) (t >>= g) := by
  intro x tasks hcalm
  obtain ⟨hcalm', left, ht⟩ := hs x tasks hcalm
  rw [run_bind, run_bind, ht]
  generalize s.run.run x = done at hcalm' ⊢
  obtain ⟨result, y⟩ := done
  cases result with
  | ok a => exact hf a y left hcalm'
  | error interruption => exact ⟨hcalm', left, rfl⟩

/-- **Sessions that are put together** from parts that agree agree. -/
theorem agrees_congruent (terms : Terms) :
    Template.Congruent (m := Session P) fun s t => Agrees terms s t where
  pure a := fun x tasks hcalm => ⟨hcalm, tasks, rfl⟩
  map f hs := by
    rw [map_eq_pure_bind, map_eq_pure_bind]
    exact hs.bind fun a x tasks hcalm => ⟨hcalm, tasks, rfl⟩
  bind := Agrees.bind

theorem evaluate_agrees (json filter : String) :
    Agrees (P := P) terms (evaluate json filter terms) (evaluateOnWorker json filter terms) := by
  intro x tasks hcalm
  obtain ⟨hanswer, hleft⟩ := hcalm.evaluate json filter
  exact ⟨hleft, run_evaluateOnWorker hanswer tasks⟩

/-- Lenient evaluations agree. -/
theorem lenient_agrees (input : Value) (filter : String) :
    Agrees (P := P) terms (lenient evaluate input terms filter)
      (lenient evaluateOnWorker input terms filter) := by
  unfold lenient
  refine (evaluate_agrees _ _).bind fun evaluation => ?_
  rcases evaluation with e | _ | v <;> exact (agrees_congruent terms).pure _

/-- **The two ways of rendering agree.** -/
theorem render_agrees (input template : Value) :
    Agrees (P := P) terms (renderWith evaluate input template terms)
      (renderOnWorkers input template terms) := by
  unfold renderWith renderOnWorkers
  rw [Template.awaitValue_eq_render]
  exact (agrees_congruent terms).render (fun filter => lenient_agrees input filter) template

end Executor

/-- **Workers change nothing.**  Nothing crashes: the engine does not, and there is no time budget or one
that a clock can be set to.  Then an evaluation, a lenient evaluation and the rendering of any template
come to the same result on workers as on the spot, where a rendering may also stop at the same error,
and leave the same executor, with the same cache, counters of the cache and locks; only what the workers
count differs.

The same holds of an evaluation that an open pool makes step by step, with any other tasks and in any
order of steps.  The caller gets nothing but the result of an evaluation on the spot, by when the executor
is in the state that this leaves; and the pool can always bring the caller there, unless the evaluation
waits for a lock that nobody gives back, as it would on the spot. -/
theorem workers_change_nothing (x : Executor P) (terms : Terms) (hengine : x.engine.Calm)
    (hclock : Executor.clockFault? (x.budget terms) = none) :
    (∀ json filter : String, ∃ tasks,
      (Executor.evaluateOnWorker json filter terms).run.run x =
        (((Executor.evaluate json filter terms).run.run x).1,
          { ((Executor.evaluate json filter terms).run.run x).2 with tasks })) ∧
    (∀ (input : Value) (filter : String), ∃ tasks,
      (Executor.lenient Executor.evaluateOnWorker input terms filter).run.run x =
        (((Executor.lenient Executor.evaluate input terms filter).run.run x).1,
          { ((Executor.lenient Executor.evaluate input terms filter).run.run x).2 with tasks })) ∧
    (∀ input template : Value, ∃ tasks,
      (Executor.renderOnWorkers input template terms).run.run x =
        (((Executor.renderWith Executor.evaluate input template terms).run.run x).1,
          { ((Executor.renderWith Executor.evaluate input template terms).run.run x).2 with tasks })) ∧
    ∀ (json filter : String) (pool : Task.Pool), pool.Reached → pool.closed = false →
      ∀ events, Dispatch.Open events →
        let d := (Dispatch.start x pool).run ⟨json, filter, terms⟩ events
        (∀ reply, d.received = some reply → ∃ evaluation, reply = .value evaluation ∧
          (Executor.evaluate json filter terms).run.run x = (.ok evaluation, d.executor)) ∧
        (((Executor.evaluate json filter terms).run.run x).1 ≠ .error .stuck →
          ∃ more, Dispatch.Open more ∧
            (d.run ⟨json, filter, terms⟩ more).received.isSome = true) := by
  have hcalm : x.Calm terms := ⟨hengine, hclock⟩
  refine ⟨fun json filter => ?_, fun input filter => ?_, fun input template => ?_, ?_⟩
  · exact (Executor.evaluate_agrees json filter x x.tasks hcalm).2
  · exact (Executor.lenient_agrees input filter x x.tasks hcalm).2
  · exact (Executor.render_agrees input template x x.tasks hcalm).2
  · intro json filter pool hreached hopen events hevents d
    have hkeeps : d.Keeps x ⟨json, filter, terms⟩ :=
      (Dispatch.start_keeps hreached hopen ⟨json, filter, terms⟩).run hevents
    refine ⟨fun reply hreceived => ?_, hkeeps.exists_received⟩
    obtain ⟨answer, evaluation, hreply, hreport, hrun⟩ := hkeeps.received_eq hreceived
    refine ⟨evaluation, hreply, ?_⟩
    have hanswer := (hcalm.evaluate json filter).1
    rw [hrun] at hanswer
    rcases answer with (message | -) | found
    · exact absurd rfl (hanswer message)
    · cases hreport
    · obtain rfl := Option.some.inj hreport
      exact hrun

/-- The second key of the template is a number and stops both renderings, before they come to its value
and to the last filter.  And a new pool with one worker, which takes the task and evaluates it in eight
steps, gives its caller the result. -/
theorem workers_change_nothing_stopped :
    let x : Executor CompiledFilter :=
      { engine := .filters (.object []), config := {}, cache := .empty 100 .stopAtBusy }
    let template : Value := .object [("a", .string "\x7b\x7b.\x7d\x7d"),
      ("\x7b\x7b1\x7d\x7d", .string "\x7b\x7b2\x7d\x7d"), ("b", .string "\x7b\x7b3\x7d\x7d")]
    let brings : List Task.Action := [.accept 0, .count 0, .enqueue 0, .look 0, .takeBatch 0 0]
    let events : List Dispatch.Event := brings.map .pool ++ List.replicate 9 .work ++ [.wait]
    let d := (Dispatch.start x (.ofSize 1)).run ⟨"null", ".", {}⟩ events
    (∃ tasks, (Executor.renderOnWorkers .null template {}).run.run x =
      (((Executor.renderWith Executor.evaluate .null template {}).run.run x).1,
        { ((Executor.renderWith Executor.evaluate .null template {}).run.run x).2 with tasks })) ∧
    ((Executor.renderWith Executor.evaluate .null template {}).run.run x).2.cache.keys =
      [⟨"1", false⟩, ⟨".", false⟩] ∧
    ∃ evaluation, d.received = some (.value evaluation) ∧
      (Executor.evaluate "null" "." {}).run.run x = (.ok evaluation, d.executor) := by
  intro x template brings events d
  obtain ⟨-, -, hrender, hdispatch⟩ :=
    workers_change_nothing x {} (Engine.filters_calm (.object [])) rfl
  refine ⟨hrender .null template, by decide +kernel, ?_⟩
  have hopen : Dispatch.Open events := by simp [Dispatch.Open, events, brings]
  have hsome : d.received.isSome = true := by decide +kernel
  obtain ⟨reply, hreply⟩ := Option.isSome_iff_exists.1 hsome
  obtain ⟨evaluation, rfl, hrun⟩ :=
    (hdispatch "null" "." (.ofSize 1) ⟨1, [], rfl⟩ rfl events hopen).1 reply hreply
  exact ⟨evaluation, hreply, hrun⟩

end JsonFilter
