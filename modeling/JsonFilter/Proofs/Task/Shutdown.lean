import JsonFilter.Proofs.Task.Accounts

/-!
# What a shutdown leaves behind

A pool is shut down when the closing caller is done, all workers have stopped and no call that adds a
task is under way.  One would expect every handle to tell by then how its task has ended.  There is an
order of steps in which a handle waits forever: a caller sees that the pool is open, the pool gets
closed, its queue is emptied and its workers stop, and only then the caller puts its task into the
queue, where nobody looks any more.  `task_left_behind` is that run.

## What is left

After the common queue was found empty, only the callers that had found the pool open can still put
something there (`Step.onItsWay`), and whatever is in a worker's own queue is run or dropped before the
worker stops (`Step.parted`).

* **`shutdown_leaves`** — the handles that wait after a shutdown are those of the tasks in the common
  queue, and all of these tasks were on their way there when it was found empty.
-/

namespace JsonFilter.Task.Pool

variable {p p' : Pool} {a : Action}

/-- **The pool is closed, everybody has left and nobody is coming.** -/
structure ShutDown (p : Pool) : Prop where
  closing : p.closing = .done
  stopped : ∀ w ∈ p.workers, w.stage = .stopped
  spawns : p.spawns = []

/-! ### What still comes into the common queue -/

/-- A task is in the hands of a caller that has found the pool open. -/
def OnItsWay (p : Pool) (job : Job) : Prop := ∃ s ∈ p.spawns, s.stage ≠ .created ∧ s.job = job

/-- **Nothing sets out for the queue of a closed pool.** -/
theorem Step.onItsWay (h : Step p a p') (hclosed : p.closed = true) {job : Job}
    (hjob : job ∈ p'.queue ∨ p'.OnItsWay job) : job ∈ p.queue ∨ p.OnItsWay job := by
  cases h with
  | create body =>
    refine hjob.imp id fun ⟨s, hs, hstage, heq⟩ => ?_
    obtain hs | hs := List.mem_append.1 hs
    · exact ⟨s, hs, hstage, heq⟩
    · rw [List.mem_singleton.1 hs] at hstage
      exact absurd rfl hstage
  | refuse hspawn _ =>
    exact hjob.imp id fun ⟨s, hs, hstage, heq⟩ => ⟨s, List.mem_of_mem_eraseIdx hs, hstage, heq⟩
  | accept hspawn hopen =>
    rw [hclosed] at hopen
    cases hopen
  | @count k counted hspawn =>
    refine hjob.imp id fun ⟨s, hs, hstage, heq⟩ => ?_
    obtain hs | rfl := List.mem_or_eq_of_mem_set hs
    · exact ⟨s, hs, hstage, heq⟩
    · exact ⟨⟨counted, .admitted⟩, List.mem_of_getElem? hspawn, nofun, heq⟩
  | @enqueue k entered hspawn =>
    obtain hjob | ⟨s, hs, hstage, heq⟩ := hjob
    · obtain hjob | hjob := List.mem_append.1 hjob
      · exact .inl hjob
      · rw [List.mem_singleton.1 hjob]
        exact .inr ⟨_, List.mem_of_getElem? hspawn, nofun, rfl⟩
    · exact .inr ⟨s, List.mem_of_mem_eraseIdx hs, hstage, heq⟩
  | emptyOne hclosing hqueue =>
    rw [hqueue]
    exact hjob.imp (List.mem_cons_of_mem _) id
  | takeBatch hw hqueue =>
    rw [hqueue]
    exact hjob.imp (fun hmem => List.mem_cons_of_mem _ (List.mem_of_mem_drop hmem)) id
  | _ => exact hjob

/-- The closing caller is done once it finds the common queue empty. -/
theorem Step.emptied_of_done (h : Step p a p') (hdone : p'.closing = .done)
    (hnot : p.closing ≠ .done) :
    a = .empty ∧ p.closing = .emptying ∧ p.queue = [] ∧ p'.queue = [] ∧ p'.spawns = p.spawns := by
  cases h with
  | emptied hclosing hqueue => exact ⟨rfl, hclosing, hqueue, hqueue, rfl⟩
  | close | emptyOne | emptyCount => cases hdone
  | _ => exact absurd hdone hnot

/-- **What is in the queue after the closing was on its way there when the queue was found empty.** -/
theorem onItsWay_of_done (workers : Nat) (actions : List Action)
    (hdone : ((ofSize workers).perform actions).closing = .done) :
    ∃ before after, actions = before ++ .empty :: after ∧
      ((ofSize workers).perform before).closing = .emptying ∧
      ((ofSize workers).perform before).queue = [] ∧
      ∀ job, job ∈ ((ofSize workers).perform actions).queue ∨
          ((ofSize workers).perform actions).OnItsWay job →
        ((ofSize workers).perform before).OnItsWay job := by
  refine perform_keeps (I := fun sofar p => p.closing = .done → ∃ before after,
    sofar = before ++ .empty :: after ∧ ((ofSize workers).perform before).closing = .emptying ∧
      ((ofSize workers).perform before).queue = [] ∧
      ∀ job, job ∈ p.queue ∨ p.OnItsWay job → ((ofSize workers).perform before).OnItsWay job)
    (fun h => by cases h) ?_ ?_ actions hdone
  · intro sofar a q ih hstep hdone
    by_cases hbefore : ((ofSize workers).perform sofar).closing = .done
    · obtain ⟨before, after, rfl, hclosing, hqueue, hway⟩ := ih hbefore
      refine ⟨before, after ++ [a], by simp, hclosing, hqueue, fun job hjob => hway job ?_⟩
      exact hstep.onItsWay ((orderly workers _).begun (by simp [hbefore])) hjob
    · obtain ⟨rfl, hclosing, hqueue, hempty, hspawns⟩ := hstep.emptied_of_done hdone hbefore
      refine ⟨sofar, [], rfl, hclosing, hqueue, fun job hjob => ?_⟩
      rw [hempty, OnItsWay, hspawns] at hjob
      exact hjob.resolve_left List.not_mem_nil
  · intro sofar a _ ih hdone
    obtain ⟨before, after, rfl, hrest⟩ := ih hdone
    exact ⟨before, after ++ [a], by simp, hrest⟩

/-! ### What a worker leaves -/

/-- **A worker stops only when its own queue is empty**, and nobody puts anything there later. -/
theorem Step.parted (hstep : Step p a p') (h : ∀ w ∈ p.workers, w.stage = .stopped → w.queue = []) :
    ∀ w ∈ p'.workers, w.stage = .stopped → w.queue = [] := by
  cases hstep with
  | @look i w hw hstage =>
    refine forall_mem_set h i fun hstopped => ?_
    cases hclosed : p.closed <;> simp [hclosed] at hstopped
  | takeOwn | takeBatch | idle | finish | fail | record | giveUp | recordGivenUp =>
    refine forall_mem_set h _ fun hstopped => ?_
    cases hstopped
  | @takeFrom i other stage job rest hne hw hvictim =>
    have htaken := forall_mem_set (y := ⟨.running job, []⟩) h i fun _ => rfl
    refine forall_mem_set htaken other fun (hstopped : stage = .stopped) => ?_
    cases h _ (List.mem_of_getElem? hvictim) hstopped
  | stop => exact forall_mem_set h _ fun _ => rfl
  | _ => exact h

/-- The workers of a pool have parted from their queues when they stop. -/
theorem parted (workers : Nat) (actions : List Action) :
    ∀ w ∈ ((ofSize workers).perform actions).workers, w.stage = .stopped → w.queue = [] := by
  refine perform_keeps (I := fun _ p => ∀ w ∈ p.workers, w.stage = .stopped → w.queue = [])
    (fun w hw => ?_) (fun h hstep => hstep.parted h) (fun _ h => h) actions
  rw [List.eq_of_mem_replicate hw]
  intro hstopped
  cases hstopped

/-! ### After a shutdown -/

/-- **Nobody looks into the common queue again**: what is in it stays. -/
theorem Step.deserted (hstep : Step p a p') (hclosed : p.closed = true) (hdone : p.closing = .done)
    (hstopped : ∀ w ∈ p.workers, w.stage = .stopped) :
    p'.closed = true ∧ p'.closing = .done ∧ (∀ w ∈ p'.workers, w.stage = .stopped) ∧
      p.queue ⊆ p'.queue := by
  cases hstep with
  | create | refuse | count => exact ⟨hclosed, hdone, hstopped, List.Subset.refl _⟩
  | enqueue => exact ⟨hclosed, hdone, hstopped, List.subset_append_left _ _⟩
  | accept hspawn hopen | close hopen =>
    rw [hclosed] at hopen
    cases hopen
  | emptyOne hclosing | emptyCount hclosing | emptied hclosing =>
    rw [hdone] at hclosing
    cases hclosing
  | look hw hstage =>
    have hleft := hstopped _ (List.mem_of_getElem? hw)
    rw [hstage] at hleft
    cases hleft
  | takeOwn hw | takeBatch hw | takeFrom hne hw | idle hw | finish hw | fail hw | record hw
    | giveUp hw | recordGivenUp hw | stop hw => cases hstopped _ (List.mem_of_getElem? hw)

/-- A task left in the common queue after a shutdown is left there for good. -/
theorem left_for_good (hclosed : p.closed = true) (hdone : p.closing = .done)
    (hstopped : ∀ w ∈ p.workers, w.stage = .stopped) (more : List Action) :
    p.queue ⊆ (p.perform more).queue := by
  refine (perform_keeps (I := fun _ q => q.closed = true ∧ q.closing = .done ∧
    (∀ w ∈ q.workers, w.stage = .stopped) ∧ p.queue ⊆ q.queue)
    ⟨hclosed, hdone, hstopped, List.Subset.refl _⟩ ?_ (fun _ h => h) more).2.2.2
  intro before a q ⟨hclosed, hdone, hstopped, hsubset⟩ hstep
  obtain ⟨hclosed', hdone', hstopped', hsubset'⟩ := hstep.deserted hclosed hdone hstopped
  exact ⟨hclosed', hdone', hstopped', List.Subset.trans hsubset hsubset'⟩

/-- The handle of a live task waits, and no other handle does. -/
theorem Accounted.handle_eq_waiting_iff {bodies : List Body} (h : Accounted bodies p) {n : Nat}
    (hn : n < bodies.length) : p.handle n = .waiting ↔ n ∈ p.live.map Job.number := by
  obtain ⟨hfinished, hcancelled⟩ := h.handle_eq (List.getElem?_eq_getElem hn)
  constructor
  · intro hwaiting
    rw [hwaiting] at hfinished hcancelled
    obtain hlive | hran | hdropped := h.mem_iff.1 hn
    · exact hlive
    · cases hbody : bodies[n] with
      | returns => cases hfinished.2 ⟨hran, hbody⟩
      | fails => cases hcancelled.2 (.inl ⟨hran, hbody⟩)
    · cases hcancelled.2 (.inr hdropped)
  · intro hlive
    obtain ⟨job, hjob, rfl⟩ := List.mem_map.1 hlive
    rw [Pool.handle, List.getD_eq_getElem?_getD, h.waiting job hjob, Option.getD_some]

/-- The live tasks of a pool that is shut down are those of its common queue. -/
theorem ShutDown.live_eq (h : ShutDown p)
    (hparted : ∀ w ∈ p.workers, w.stage = .stopped → w.queue = []) : p.live = p.queue := by
  have hworkers : p.workers.flatMap Worker.jobs = [] := by
    refine List.flatMap_eq_nil_iff.2 fun w hw => ?_
    have hstopped := h.stopped w hw
    rw [Worker.jobs, hstopped, hparted w hw hstopped]
    rfl
  rw [live, h.spawns, hworkers, List.append_nil]
  rfl

/-- **What a shutdown leaves behind.**  Callers add tasks and one of them closes the pool, and the
workers take their steps, in any order.  When the closing caller is done, all workers have stopped and
no call that adds a task is under way, then the workers' own queues are empty, and the handles that
wait are just those of the tasks in the common queue; no later step of anybody settles them.  All these
tasks were in the hands of callers that had found the pool open when the closing caller found the queue
empty.  So if there were no such callers, every handle tells how its task has ended and no task is left
in any queue. -/
theorem shutdown_leaves (workers : Nat) (actions : List Action)
    (h : ShutDown ((ofSize workers).perform actions)) :
    let p := (ofSize workers).perform actions
    (∀ w ∈ p.workers, w.queue = []) ∧
      (∀ n < p.handles.length, p.handle n = .waiting ↔ n ∈ p.queue.map Job.number) ∧
      (∀ job ∈ p.queue, ∀ more, (p.perform more).handle job.number = .waiting) ∧
      ∃ before after, actions = before ++ .empty :: after ∧
        let q := (ofSize workers).perform before
        q.closing = .emptying ∧ q.queue = [] ∧ (∀ job ∈ p.queue, q.OnItsWay job) ∧
          ((∀ job, ¬q.OnItsWay job) →
            p.queue = [] ∧ ∀ n < p.handles.length, p.handle n ≠ .waiting) := by
  intro p
  have hparted := parted workers actions
  have haccounted : Accounted (actions.filterMap Action.body?) p := accounted workers actions
  have hwaiting : ∀ n < p.handles.length, p.handle n = .waiting ↔ n ∈ p.queue.map Job.number := by
    intro n hn
    rw [haccounted.handle_eq_waiting_iff (haccounted.handles ▸ hn), h.live_eq hparted]
  have hclosed : p.closed = true := (orderly workers actions).begun (by simp [h.closing])
  refine ⟨fun w hw => hparted w hw (h.stopped w hw), hwaiting, fun job hjob more => ?_, ?_⟩
  · have hlater : Accounted ((actions ++ more).filterMap Action.body?) (p.perform more) := by
      have hall := accounted workers (actions ++ more)
      rwa [perform_append] at hall
    have hlive : job.number ∈ (p.perform more).live.map Job.number :=
      List.mem_map_of_mem
        (mem_live_of_mem_queue (left_for_good hclosed h.closing h.stopped more hjob))
    exact (hlater.handle_eq_waiting_iff (hlater.mem_iff.2 (.inl hlive))).2 hlive
  · obtain ⟨before, after, hactions, hclosing, hqueue, hway⟩ :=
      onItsWay_of_done workers actions h.closing
    refine ⟨before, after, hactions, hclosing, hqueue, fun job hjob => hway job (.inl hjob),
      fun hnone => ?_⟩
    have hempty : p.queue = [] :=
      List.eq_nil_iff_forall_not_mem.2 fun job hjob => hnone job (hway job (.inl hjob))
    refine ⟨hempty, fun n hn hwait => ?_⟩
    have hmem := (hwaiting n hn).1 hwait
    rw [hempty] at hmem
    cases hmem

/-- A task is run and a second one is dropped by the closing caller. -/
theorem shutdown_leaves_nothing :
    let actions : List Action := [.create .returns, .accept 0, .count 0, .enqueue 0, .look 0,
      .takeBatch 0 0, .create .fails, .accept 0, .count 0, .enqueue 0, .close, .finish 0, .empty,
      .record 0, .empty, .look 0, .leave 0, .empty]
    let p := (ofSize 1).perform actions
    ShutDown p ∧ p.handles = [.finished, .cancelled] ∧ ∀ w ∈ p.workers, w.queue = [] := by
  intro actions p
  have h : ShutDown p := ⟨by decide, by decide, by decide⟩
  exact ⟨h, by decide, (shutdown_leaves 1 actions h).1⟩

/-- **A task is left behind**: its caller has found the pool open, but puts it into the common queue
after the closing caller has emptied it and the only worker has stopped. -/
theorem task_left_behind :
    let p := (ofSize 1).perform [.create .returns, .accept 0, .close, .empty, .look 0, .leave 0,
      .count 0, .enqueue 0]
    ShutDown p ∧ p.queue = [⟨0, .returns⟩] ∧ p.handle 0 = .waiting ∧
      ∀ more, ⟨0, .returns⟩ ∈ (p.perform more).queue := by
  intro p
  have h : ShutDown p := ⟨by decide, by decide, by decide⟩
  exact ⟨h, by decide, by decide, fun more =>
    left_for_good (by decide) h.closing h.stopped more (by decide)⟩

end JsonFilter.Task.Pool
