import JsonFilter.Proofs.Executor.Requests
import JsonFilter.Proofs.Task.Handover
import JsonFilter.Proofs.Task.Progress

/-!
# Evaluations in the hands of a pool

A caller that does not want to evaluate a filter itself makes a task of it for a pool of workers and keeps
one end of a delivery.  Whichever worker gets the task evaluates the filter, step by step, and puts the
result into the delivery.  This file follows such a `Dispatch` while callers and workers take their steps
in any order.

## What every step keeps

The steps of the evaluation are those of an evaluation on the spot, wherever the task is meanwhile
(`Keeps.alone`).  The promise is there until the evaluation has ended, and after that the result lies in
the delivery or the caller has it (`Keeps.step`).

* **`received_eq`** — what the caller gets is what an evaluation on the spot gives, and the executor is
  left in the same state.
* **`exists_received`** — nothing keeps the caller from getting it, as long as nobody closes the pool.
-/

namespace JsonFilter

open JsonFilter.Task (Pool Delivery Reply)

variable {P : Type}

/-- Whether a worker is running the task of a number. -/
def Task.Worker.runs (w : Task.Worker) (number : Nat) : Bool :=
  match w.stage with
  | .running job => job.number == number
  | _ => false

theorem Task.Worker.runs_iff {w : Task.Worker} {number : Nat} :
    w.runs number = true ↔ ∃ job queue, w = ⟨.running job, queue⟩ ∧ job.number = number := by
  obtain ⟨stage, queue⟩ := w
  cases stage <;> simp [runs]

/-- What a worker reports of an answer.  A crash is an error like any other there; who waits for a lock
has no answer. -/
def Answer.report? : Answer → Option Evaluation
  | .ok evaluation => some evaluation
  | .error (.crashed message) => some (.error (Executor.crashReport message))
  | .error .stuck => none

/-- An evaluation in the hands of a pool. -/
structure Dispatch (P : Type) where
  executor : Executor P
  pool : Pool
  /-- The number of the task that evaluates. -/
  number : Nat
  stage : Stage P := .acquiring
  delivery : Delivery Evaluation := {}
  /-- What the caller has got. -/
  received : Option (Reply Evaluation) := none

/-- What happens next to an evaluation in the hands of a pool. -/
inductive Dispatch.Event where
  /-- A step of the pool. -/
  | pool (action : Task.Action)
  /-- The worker that runs the task goes on with it. -/
  | work
  /-- The caller, who waits, looks whether there is something. -/
  | wait
  /-- The caller asks whether there is something, and leaves a waker. -/
  | poll (waker : Nat)

namespace Dispatch

/-- The caller makes a task for a pool. -/
def start (x : Executor P) (pool : Pool) : Dispatch P :=
  { executor := x, pool := pool.perform [.create .returns], number := pool.handles.length }

/-- Whether an action would end the task while its evaluation is not over. -/
def holds (d : Dispatch P) : Task.Action → Bool
  | .finish i => d.delivery.hasPromise && d.pool.workers[i]?.any fun w => w.runs d.number
  | _ => false

/-- A step of the pool.  A task that is dropped unrun drops its promise. -/
def act (d : Dispatch P) (action : Task.Action) : Dispatch P :=
  if d.holds action then d
  else
    let pool := (d.pool.step action).getD d.pool
    let delivery := if d.number ∈ pool.dropped then d.delivery.dropPromise.2 else d.delivery
    { d with pool, delivery }

/-- The worker takes the next step of the evaluation, or reports its answer. -/
def work (r : Request) (d : Dispatch P) : Dispatch P :=
  match d.stage.answer? with
  | none =>
    let (executor, stage) := r.advance d.executor d.stage
    { d with executor, stage }
  | some answer =>
    match answer.report? with
    | some evaluation => { d with delivery := (d.delivery.fulfil evaluation).2 }
    | none => d

/-- The caller gets a reply, unless it has one. -/
def receive (d : Dispatch P) (answer : Reply Evaluation × Delivery Evaluation) : Dispatch P :=
  if d.received.isSome then d
  else
    match answer with
    | (.blocked, delivery) | (.pending, delivery) => { d with delivery }
    | (reply, delivery) => { d with delivery, received := some reply }

/-- The dispatch after an event. -/
def step (r : Request) (d : Dispatch P) : Event → Dispatch P
  | .pool action => d.act action
  | .work => if d.pool.workers.any fun w => w.runs d.number then d.work r else d
  | .wait => d.receive d.delivery.wait
  | .poll waker => d.receive (d.delivery.poll waker)

/-- The dispatch after some events. -/
def run (r : Request) (d : Dispatch P) (events : List Event) : Dispatch P := events.foldl (step r) d

/-- Nobody closes the pool. -/
def Open (events : List Event) : Prop := ∀ event ∈ events, event ≠ .pool .close

/-! ### What every step keeps -/

/-- **The invariant of a dispatch** of a request to an open pool. -/
structure Keeps (x : Executor P) (r : Request) (d : Dispatch P) : Prop where
  reached : d.pool.Reached
  opened : d.pool.closed = false
  made : d.number < d.pool.handles.length
  /-- The evaluation is as far as it would be on the spot after some steps. -/
  alone : ∃ steps, r.advanceAlone^[steps] (x, .acquiring) = (d.executor, d.stage)
  /-- The task is not over as long as the promise is there, and the caller has nothing. -/
  promised : d.delivery.hasPromise = true →
    d.number ∉ d.pool.ran ∧ d.delivery.parcel = .pending ∧ d.delivery.hasCompletion = true ∧
      d.received = none
  /-- After that the result lies in the delivery, or the caller has it. -/
  fulfilled : d.delivery.hasPromise = false →
    ∃ answer evaluation, d.stage = .finished answer ∧ answer.report? = some evaluation ∧
      (d.received = some (.value evaluation) ∨ d.received = none ∧
        d.delivery.parcel = .ready evaluation ∧ d.delivery.hasCompletion = true)

section Steps

variable {x : Executor P} {r : Request} {d : Dispatch P}

theorem start_keeps {pool : Pool} (h : pool.Reached) (hopen : pool.closed = false) (r : Request) :
    (start x pool).Keeps x r where
  reached := h.perform _
  opened := hopen
  made := by
    show pool.handles.length < (pool.handles ++ [Task.Handle.waiting]).length
    rw [List.length_append]
    exact Nat.lt_succ_self _
  alone := ⟨0, rfl⟩
  promised _ := by
    refine ⟨fun hran => ?_, rfl, rfl, rfl⟩
    obtain ⟨bodies, haccounted⟩ := h.accounted
    have hlt := haccounted.mem_iff.2 (.inr (.inl hran))
    rw [← haccounted.handles] at hlt
    exact Nat.lt_irrefl _ hlt
  fulfilled := nofun

/-- **A step of the pool** drops no promise, and it does not end the task before its evaluation is
over. -/
theorem Keeps.act (hk : d.Keeps x r) {action : Task.Action} (hne : action ≠ .close) :
    (d.act action).Keeps x r := by
  unfold Dispatch.act
  split
  · exact hk
  · rename_i hfree
    cases hstep : d.pool.step action with
    | none =>
      have hnot : d.number ∉ d.pool.dropped := by
        rw [hk.reached.dropped hk.opened]
        exact List.not_mem_nil
      rw [Option.getD_none]
      dsimp only
      rw [if_neg hnot]
      exact hk
    | some pool =>
      have hcases := Pool.step_cases hstep
      have hreached := hk.reached.step hstep
      have hopen : pool.closed = false := (hcases.closed_eq hne).trans hk.opened
      have hnot : d.number ∉ pool.dropped := by
        rw [hreached.dropped hopen]
        exact List.not_mem_nil
      rw [Option.getD_some]
      dsimp only
      rw [if_neg hnot]
      refine ⟨hreached, hopen, Nat.lt_of_lt_of_le hk.made hcases.length_handles_le, hk.alone, ?_,
        hk.fulfilled⟩
      intro hpromise
      obtain ⟨hran, hrest⟩ := hk.promised hpromise
      refine ⟨?_, hrest⟩
      rcases hcases.ran_cases with hsame | ⟨i, job, queue, rfl, hw, hended⟩
      · rw [hsame]
        exact hran
      · rw [hended, List.mem_cons, not_or]
        refine ⟨fun heq => hfree ?_, hran⟩
        show (d.delivery.hasPromise && d.pool.workers[i]?.any fun w => w.runs d.number) = true
        have hruns : Task.Worker.runs ⟨.running job, queue⟩ d.number = true :=
          Task.Worker.runs_iff.2 ⟨job, queue, rfl, heq.symm⟩
        rw [show d.delivery.hasPromise = true from hpromise, hw, Option.any_some, hruns]
        rfl

/-- **A step of the worker** is a step of the evaluation, or it fulfils the promise. -/
theorem Keeps.work (hk : d.Keeps x r) : (d.work r).Keeps x r := by
  unfold Dispatch.work
  cases hstage : d.stage.answer? with
  | none =>
    obtain ⟨steps, halone⟩ := hk.alone
    refine ⟨hk.reached, hk.opened, hk.made, ⟨steps + 1, ?_⟩, hk.promised, fun hgone => ?_⟩
    · rw [Function.iterate_succ_apply', halone]
      rfl
    · obtain ⟨answer, evaluation, hfinished, -⟩ := hk.fulfilled hgone
      rw [hfinished] at hstage
      cases hstage
  | some answer =>
    dsimp only
    cases hreport : answer.report? with
    | none => exact hk
    | some evaluation =>
      cases hpromise : d.delivery.hasPromise with
      | false =>
        have hsame : (d.delivery.fulfil evaluation).2 = d.delivery := by
          unfold Delivery.fulfil
          rw [hpromise]
          rfl
        dsimp only
        rw [hsame]
        exact hk
      | true =>
        obtain ⟨-, hpending, hcompletion, hreceived⟩ := hk.promised hpromise
        have hfulfil : (d.delivery.fulfil evaluation).2 =
            { d.delivery.resolve (.ready evaluation) with hasPromise := false } := by
          unfold Delivery.fulfil
          rw [hpromise]
          rfl
        have hresolve : d.delivery.resolve (.ready evaluation) =
            { d.delivery with
              parcel := .ready evaluation
              waker := none
              woken := d.delivery.woken ++ d.delivery.waker.toList } := by
          unfold Delivery.resolve Delivery.settle Delivery.isReady
          rw [hpending]
          rfl
        dsimp only
        rw [hfulfil, hresolve]
        exact ⟨hk.reached, hk.opened, hk.made, hk.alone, nofun, fun _ =>
          ⟨answer, evaluation, Stage.answer?_eq_some_iff.1 hstage, hreport,
            .inr ⟨hreceived, rfl, hcompletion⟩⟩⟩

/-- What the caller learns of a delivery that it may still ask. -/
def Tells (d : Delivery Evaluation) (answer : Reply Evaluation × Delivery Evaluation) : Prop :=
  (d.parcel = .pending → answer.1 = .pending ∨ answer.1 = .blocked) ∧
    (∀ evaluation, d.parcel = .ready evaluation → answer.1 = .value evaluation) ∧
    answer.2.hasPromise = d.hasPromise ∧
    (d.parcel = .pending → answer.2.parcel = .pending ∧ answer.2.hasCompletion = d.hasCompletion)

theorem tells_wait {d : Delivery Evaluation} (hcompletion : d.hasCompletion = true) :
    Tells d d.wait := by
  unfold Tells Delivery.wait Delivery.takeOr Delivery.take
  rw [if_pos hcompletion]
  cases hparcel : d.parcel <;> simp [hparcel]

theorem tells_poll {d : Delivery Evaluation} (hcompletion : d.hasCompletion = true) (waker : Nat) :
    Tells d (d.poll waker) := by
  unfold Tells Delivery.poll Delivery.take
  rw [if_pos hcompletion]
  cases hparcel : d.parcel <;> simp [hparcel]

/-- **A look of the caller** finds nothing before the promise is fulfilled, and then the result. -/
theorem Keeps.receive (hk : d.Keeps x r) {answer : Reply Evaluation × Delivery Evaluation}
    (htells : d.delivery.hasCompletion = true → Tells d.delivery answer) :
    (d.receive answer).Keeps x r := by
  unfold Dispatch.receive
  split
  · exact hk
  · rename_i hnothing
    have hnone : d.received = none := Option.not_isSome_iff_eq_none.1 hnothing
    obtain ⟨reply, delivery⟩ := answer
    cases hpromise : d.delivery.hasPromise with
    | true =>
      obtain ⟨hran, hpending, hcompletion, -⟩ := hk.promised hpromise
      obtain ⟨hreply, -, hsame, hstays⟩ := htells hcompletion
      obtain ⟨hparcel', hcompletion'⟩ := hstays hpending
      have hwaits : ({ d with delivery } : Dispatch P).Keeps x r := by
        refine ⟨hk.reached, hk.opened, hk.made, hk.alone, fun _ => ?_, fun hgone => ?_⟩
        · exact ⟨hran, hparcel', hcompletion'.trans hcompletion, hnone⟩
        · exact absurd (hgone.symm.trans (hsame.trans hpromise)) nofun
      rcases hreply hpending with rfl | rfl
      · exact hwaits
      · exact hwaits
    | false =>
      obtain ⟨answer, evaluation, hfinished, hreport, hsome | ⟨-, hready, hcompletion⟩⟩ :=
        hk.fulfilled hpromise
      · rw [hnone] at hsome
        cases hsome
      · obtain ⟨-, hvalue, hsame, -⟩ := htells hcompletion
        obtain rfl : reply = .value evaluation := hvalue evaluation hready
        refine ⟨hk.reached, hk.opened, hk.made, hk.alone, fun hthere => ?_, fun _ => ?_⟩
        · exact absurd (hthere.symm.trans (hsame.trans hpromise)) nofun
        · exact ⟨answer, evaluation, hfinished, hreport, .inl rfl⟩

/-- **Every event keeps that.** -/
theorem Keeps.step (hk : d.Keeps x r) {event : Event} (hne : event ≠ .pool .close) :
    (d.step r event).Keeps x r := by
  cases event with
  | pool action => exact hk.act fun heq => hne (congrArg Event.pool heq)
  | work =>
    unfold Dispatch.step
    dsimp only
    split
    · exact hk.work
    · exact hk
  | wait => exact hk.receive tells_wait
  | poll waker => exact hk.receive fun hcompletion => tells_poll hcompletion waker

/-- **So does every run.** -/
theorem Keeps.run (hk : d.Keeps x r) {events : List Event} (hopen : Open events) :
    (d.run r events).Keeps x r := by
  induction events generalizing d with
  | nil => exact hk
  | cons event events ih =>
    have hstep := hk.step (hopen event List.mem_cons_self)
    exact ih hstep fun other hother => hopen other (List.mem_cons_of_mem _ hother)

/-! ### What the caller gets -/

/-- **What the caller gets** is what an evaluation on the spot gives. -/
theorem Keeps.received_eq (hk : d.Keeps x r) {reply : Reply Evaluation}
    (hreceived : d.received = some reply) :
    ∃ (answer : Answer) (evaluation : Evaluation),
      reply = .value evaluation ∧ answer.report? = some evaluation ∧
      (Executor.evaluate r.json r.filter r.terms).run.run x = (answer, d.executor) := by
  have hgone : d.delivery.hasPromise = false := by
    cases hpromise : d.delivery.hasPromise with
    | false => rfl
    | true =>
      obtain ⟨-, -, -, hnone⟩ := hk.promised hpromise
      rw [hnone] at hreceived
      cases hreceived
  obtain ⟨answer, evaluation, hfinished, hreport, hgot⟩ := hk.fulfilled hgone
  rw [hreceived] at hgot
  obtain ⟨steps, halone⟩ := hk.alone
  rw [hfinished] at halone
  rcases hgot with hvalue | ⟨hnone, -⟩
  · exact ⟨answer, evaluation, Option.some.inj hvalue, hreport, Request.evaluate_of_iterate halone⟩
  · cases hnone

/-! ### That the caller gets it -/

/-- A promise that is fulfilled is gone. -/
theorem hasPromise_fulfil (delivery : Delivery Evaluation) (evaluation : Evaluation) :
    (delivery.fulfil evaluation).2.hasPromise = false := by
  unfold Delivery.fulfil
  split
  · rfl
  · rename_i hgone
    exact Bool.eq_false_iff.2 hgone

theorem run_append (d : Dispatch P) (events more : List Event) :
    d.run r (events ++ more) = (d.run r events).run r more := List.foldl_append

/-- A step of the pool that does not end the task changes nothing but the pool. -/
theorem Keeps.act_eq (hk : d.Keeps x r) {action : Task.Action} (hne : action ≠ .close)
    (hran : d.number ∉ ((d.pool.step action).getD d.pool).ran) :
    d.act action = { d with pool := (d.pool.step action).getD d.pool } := by
  have hfree : ¬d.holds action = true := by
    intro hholds
    cases action with
    | finish i =>
      obtain ⟨-, hruns⟩ := Bool.and_eq_true_iff.1 hholds
      obtain ⟨w, hw, hruns⟩ := (Option.any_eq_true _ _).1 hruns
      obtain ⟨job, queue, rfl, hnumber⟩ := Task.Worker.runs_iff.1 hruns
      have hstep : d.pool.step (.finish i) = some ((d.pool.setWorker i
          ⟨.ended job.number (job.body = .fails), queue⟩).finishJob job) := by
        rw [Pool.step, hw]
        rfl
      rw [hstep] at hran
      exact hran (List.mem_cons.2 (.inl hnumber.symm))
    | _ => cases hholds
  have hdropped : d.number ∉ ((d.pool.step action).getD d.pool).dropped := by
    have hk' := hk.act hne
    unfold Dispatch.act at hk'
    rw [if_neg hfree] at hk'
    rw [hk'.reached.dropped hk'.opened]
    exact List.not_mem_nil
  unfold Dispatch.act
  rw [if_neg hfree]
  dsimp only
  rw [if_neg hdropped]

/-- Nor do any actions that do not end it. -/
theorem Keeps.run_pool (hk : d.Keeps x r) {actions : List Task.Action}
    (hopen : ∀ a ∈ actions, a ≠ .close) (hran : d.number ∉ (d.pool.perform actions).ran) :
    d.run r (actions.map .pool) = { d with pool := d.pool.perform actions } := by
  induction actions generalizing d with
  | nil => rfl
  | cons action actions ih =>
    have hperform : d.pool.perform (action :: actions) =
        Pool.perform ((d.pool.step action).getD d.pool) actions := rfl
    rw [hperform] at hran
    have hact := hk.act_eq (hopen action List.mem_cons_self) fun hmem =>
      hran ((Pool.suffix_perform _ actions).1.subset hmem)
    have hk' := hk.act (hopen action List.mem_cons_self)
    rw [hact] at hk'
    have hrest := ih hk' (fun a ha => hopen a (List.mem_cons_of_mem _ ha)) hran
    show (d.act action).run r (actions.map .pool) = _
    rw [hact, hrest, hperform]

/-- An evaluation that is not stuck ends within nine more steps. -/
theorem Keeps.exists_answer (hk : d.Keeps x r)
    (hends : ((Executor.evaluate r.json r.filter r.terms).run.run x).1 ≠ .error .stuck) :
    ∃ (y : Executor P) (answer : Answer) (evaluation : Evaluation),
      r.advanceAlone^[9] (d.executor, d.stage) = (y, .finished answer) ∧
        answer.report? = some evaluation := by
  obtain ⟨steps, halone⟩ := hk.alone
  rw [Request.evaluate_eq_iterate r x steps, Nat.add_comm, Function.iterate_add_apply, halone] at hends
  rcases hlast : r.advanceAlone^[9] (d.executor, d.stage) with ⟨y, stage⟩
  rw [hlast] at hends
  cases hstage : stage.answer? with
  | none =>
    dsimp only at hends
    rw [hstage] at hends
    exact absurd rfl hends
  | some answer =>
    dsimp only at hends
    rw [hstage] at hends
    refine ⟨y, answer, ?_⟩
    rw [Stage.answer?_eq_some_iff.1 hstage]
    rcases answer with (message | -) | evaluation
    · exact ⟨_, rfl, rfl⟩
    · exact absurd rfl hends
    · exact ⟨_, rfl, rfl⟩

/-- **The worker brings an evaluation to its end** that some steps bring there, and reports it. -/
theorem exists_fulfilled (hruns : d.pool.workers.any (fun w => w.runs d.number) = true) {steps : Nat}
    {y : Executor P} {answer : Answer} {evaluation : Evaluation}
    (hend : r.advanceAlone^[steps] (d.executor, d.stage) = (y, .finished answer))
    (hreport : answer.report? = some evaluation) :
    ∃ events, Open events ∧ (d.run r events).delivery.hasPromise = false := by
  induction steps generalizing d with
  | zero =>
    -- the evaluation is over, and one more step reports its answer
    have hstage : d.stage = .finished answer := congrArg Prod.snd hend
    refine ⟨[.work], by simp [Open], ?_⟩
    show (d.step r .work).delivery.hasPromise = false
    unfold step work
    dsimp only
    rw [if_pos hruns, hstage]
    dsimp only [Stage.answer?]
    rw [hreport]
    exact hasPromise_fulfil d.delivery evaluation
  | succ steps ih =>
    rw [Function.iterate_succ_apply] at hend
    cases hstage : d.stage.answer? with
    | none =>
      have hwork : d.step r .work = { d with
          executor := (r.advance d.executor d.stage).1
          stage := (r.advance d.executor d.stage).2 } := by
        unfold step work
        dsimp only
        rw [if_pos hruns, hstage]
      obtain ⟨events, hopen, hgone⟩ := ih (d := d.step r .work)
        (by rw [hwork]; exact hruns) (by rw [hwork]; exact hend)
      exact ⟨.work :: events, by simpa [Open] using hopen, hgone⟩
    | some found =>
      have hstays : r.advanceAlone (d.executor, d.stage) = (d.executor, d.stage) := by
        rw [Stage.answer?_eq_some_iff.1 hstage]
        rfl
      exact ih hruns (hstays ▸ hend)

/-- A caller that waits gets what lies in the delivery. -/
theorem Keeps.received_of_wait (hk : d.Keeps x r) (hgone : d.delivery.hasPromise = false) :
    (d.step r .wait).received.isSome = true := by
  obtain ⟨answer, evaluation, -, -, hsome | ⟨hnone, hready, hcompletion⟩⟩ := hk.fulfilled hgone
  · have hgot : d.received.isSome = true := by
      rw [hsome]
      rfl
    unfold Dispatch.step Dispatch.receive
    dsimp only
    rw [if_pos hgot]
    exact hgot
  · have hvalue := (tells_wait hcompletion).2.1 evaluation hready
    unfold Dispatch.step Dispatch.receive
    dsimp only
    rw [hnone, if_neg nofun]
    rcases hreply : d.delivery.wait with ⟨reply, delivery⟩
    rw [hreply] at hvalue
    obtain rfl : reply = .value evaluation := hvalue
    rfl

/-- **Nothing keeps the caller from its result.** -/
theorem Keeps.exists_received (hk : d.Keeps x r)
    (hends : ((Executor.evaluate r.json r.filter r.terms).run.run x).1 ≠ .error .stuck) :
    ∃ events, Open events ∧ (d.run r events).received.isSome = true := by
  -- once the promise is gone, the caller has only to wait
  have hnotice : ∀ events, Open events → (d.run r events).delivery.hasPromise = false →
      ∃ events, Open events ∧ (d.run r events).received.isSome = true := by
    intro events hopen hgone
    refine ⟨events ++ [.wait], ?_, ?_⟩
    · intro event hevent
      rcases List.mem_append.1 hevent with hevent | hevent
      · exact hopen event hevent
      · rw [List.mem_singleton.1 hevent]
        exact nofun
    · rw [run_append]
      exact (hk.run hopen).received_of_wait hgone
  cases hpromise : d.delivery.hasPromise with
  | false => exact hnotice [] nofun hpromise
  | true =>
    -- the task is live, and the pool brings it to a worker
    obtain ⟨hran, -⟩ := hk.promised hpromise
    obtain ⟨bodies, haccounted⟩ := hk.reached.accounted
    have hmade := haccounted.mem_iff.1 (haccounted.handles ▸ hk.made)
    rw [hk.reached.dropped hk.opened] at hmade
    obtain ⟨job, hjob, hnumber⟩ : ∃ job ∈ d.pool.live, job.number = d.number := by
      rcases hmade with hlive | hmem | hmem
      · exact List.mem_map.1 hlive
      · exact absurd hmem hran
      · exact absurd hmem List.not_mem_nil
    obtain ⟨actions, hopen, i, queue, hw⟩ := hk.reached.leads_running hk.opened hjob
    have hlive : job ∈ (d.pool.perform actions).live :=
      Pool.mem_live_of_mem_jobs hw (List.mem_append_left _ (List.mem_singleton.2 rfl))
    have hnotRan := (hk.reached.perform actions).not_mem_ran hlive
    rw [hnumber] at hnotRan
    have hpool := hk.run_pool hopen hnotRan
    have hruns : (d.pool.perform actions).workers.any (fun w => w.runs d.number) = true :=
      List.any_eq_true.2 ⟨_, List.mem_of_getElem? hw, Task.Worker.runs_iff.2 ⟨job, queue, rfl, hnumber⟩⟩
    -- which evaluates the filter and reports
    obtain ⟨y, answer, evaluation, hend, hreport⟩ := hk.exists_answer hends
    obtain ⟨events, hopen', hgone⟩ :=
      exists_fulfilled (d := { d with pool := d.pool.perform actions }) hruns hend hreport
    refine hnotice (actions.map .pool ++ events) ?_ ?_
    · intro event hevent
      rcases List.mem_append.1 hevent with hevent | hevent
      · obtain ⟨action, haction, rfl⟩ := List.mem_map.1 hevent
        exact fun heq => hopen action haction (Event.pool.inj heq)
      · exact hopen' event hevent
    · rw [run_append, hpool]
      exact hgone

end Steps

end Dispatch
end JsonFilter
