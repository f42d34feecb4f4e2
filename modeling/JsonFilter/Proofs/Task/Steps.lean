import JsonFilter.Task.Pool
import Mathlib.Data.List.Induction
import Mathlib.Data.List.Perm.Basic

/-!
# What a step of a pool can do

The steps of a pool touch its queues, its workers, its handles and its counters, but each of them does
one small thing to one task.  This file says which, so that nothing else about pools needs to look into
`Pool.step`.

## The steps

`Pool.Step p a p'` lists the steps with what enables them, and `step_cases` finds the one that a pool
has taken.

## The tasks and the books

`live` are the tasks that have neither run nor been dropped, wherever they are.  `uncounted` are the
numbers of those that the counters do not know of yet, and `owing` the numbers of those that they know
of as spawned and not yet as completed.

* **`Step.tasks`** — a step makes a task, ends the run of one, drops one, or leaves them all.
* **`Step.books`** — a step enters a task, refuses one, counts one, records one, or leaves the books.
* **`Step.orderly`** — no worker leaves its loop, and nobody empties the queue, before the pool is
  closed.

A task that moves leaves one list and appears in another one.  That nothing gets lost on the way is
shown by rearranging: what one worker or one call holds before and after a step tells how all that is
held changes (`perm_flatMap_set`).
-/

namespace JsonFilter.Task

/-! ### What the workers and the calls hold -/

/-- The task that a worker is running. -/
def Stage.jobs : Stage → List Job
  | .running job => [job]
  | _ => []

/-- The task that a worker has taken out of the queues and not counted as completed. -/
def Stage.owing : Stage → List Nat
  | .running job => [job.number]
  | .ended number _ => [number]
  | .gaveUp number => [number]
  | _ => []

/-- The tasks of a worker: the one it is running and those of its queue. -/
def Worker.jobs (w : Worker) : List Job := w.stage.jobs ++ w.queue

/-- The tasks that a worker has to count as completed. -/
def Worker.owing (w : Worker) : List Nat := w.stage.owing ++ w.queue.map Job.number

/-- The task that the closing caller has dropped and not counted as completed. -/
def Closing.owing : Closing → List Nat
  | .gaveUp number => [number]
  | _ => []

/-- The task of a call that adds one. -/
def Spawn.jobs (s : Spawn) : List Job := [s.job]

/-- The task of a call that has not counted it. -/
def Spawn.uncounted (s : Spawn) : List Nat :=
  match s.stage with
  | .counted => []
  | _ => [s.job.number]

/-- The task of a call that has counted it. -/
def Spawn.owing (s : Spawn) : List Nat :=
  match s.stage with
  | .counted => [s.job.number]
  | _ => []

/-- A worker is in its loop until it finds the pool closed. -/
def Stage.inLoop : Stage → Prop
  | .atTop | .seeking | .running _ | .ended _ _ => True
  | .leaving | .gaveUp _ | .stopped => False

/-- The body of the task that an action makes. -/
def Action.body? : Action → Option Body
  | .create body => some body
  | _ => none

namespace Pool

/-! ### The steps -/

/-- **What a step can do.** -/
inductive Step (p : Pool) : Action → Pool → Prop
  | create (body : Body) :
    Step p (.create body) { p with
      handles := p.handles ++ [.waiting]
      spawns := p.spawns ++ [⟨⟨p.handles.length, body⟩, .created⟩] }
  | refuse {k job} (hspawn : p.spawns[k]? = some ⟨job, .created⟩) (hclosed : p.closed = true) :
    Step p (.accept k) ({ p with spawns := p.spawns.eraseIdx k }.drop job)
  | accept {k job} (hspawn : p.spawns[k]? = some ⟨job, .created⟩) (hopen : p.closed = false) :
    Step p (.accept k) { p with spawns := p.spawns.set k ⟨job, .admitted⟩ }
  | count {k job} (hspawn : p.spawns[k]? = some ⟨job, .admitted⟩) :
    Step p (.count k) { p with
      spawns := p.spawns.set k ⟨job, .counted⟩
      metrics := p.metrics.spawn
      counted := job.number :: p.counted }
  | enqueue {k job} (hspawn : p.spawns[k]? = some ⟨job, .counted⟩) :
    Step p (.enqueue k) { p with spawns := p.spawns.eraseIdx k, queue := p.queue ++ [job] }
  | close (hopen : p.closed = false) :
    Step p .close { p with closed := true, closing := .emptying }
  | emptyOne {job rest} (hclosing : p.closing = .emptying) (hqueue : p.queue = job :: rest) :
    Step p .empty ({ p with queue := rest, closing := .gaveUp job.number }.drop job)
  | emptyCount {number} (hclosing : p.closing = .gaveUp number) :
    Step p .empty ({ p with closing := .emptying }.complete number)
  | emptied (hclosing : p.closing = .emptying) (hqueue : p.queue = []) :
    Step p .empty { p with closing := .done }
  | look {i w} (hw : p.workers[i]? = some w) (hstage : w.stage = .atTop) :
    Step p (.look i) (p.setWorker i { w with stage := if p.closed then .leaving else .seeking })
  | takeOwn {i job rest} (hw : p.workers[i]? = some ⟨.seeking, job :: rest⟩) :
    Step p (.takeOwn i) (p.setWorker i { stage := .running job, queue := rest })
  | takeBatch {i more job rest} (hw : p.workers[i]? = some ⟨.seeking, []⟩)
    (hqueue : p.queue = job :: rest) :
    Step p (.takeBatch i more)
      { p.setWorker i { stage := .running job, queue := rest.take more } with
        queue := rest.drop more }
  | takeFrom {i other stage job rest} (hne : other ≠ i) (hw : p.workers[i]? = some ⟨.seeking, []⟩)
    (hvictim : p.workers[other]? = some ⟨stage, job :: rest⟩) :
    Step p (.takeFrom i other)
      ((p.setWorker i { stage := .running job, queue := [] }).setWorker other ⟨stage, rest⟩)
  | idle {i queue} (hw : p.workers[i]? = some ⟨.seeking, queue⟩) :
    Step p (.idle i) (p.setWorker i ⟨.atTop, queue⟩)
  | finish {i job queue} (hw : p.workers[i]? = some ⟨.running job, queue⟩) :
    Step p (.finish i)
      ((p.setWorker i ⟨.ended job.number (job.body = .fails), queue⟩).finishJob job)
  | fail {i number queue} (hw : p.workers[i]? = some ⟨.ended number true, queue⟩) :
    Step p (.record i)
      { p.setWorker i ⟨.ended number false, queue⟩ with metrics := p.metrics.fail }
  | record {i number queue} (hw : p.workers[i]? = some ⟨.ended number false, queue⟩) :
    Step p (.record i) ((p.setWorker i ⟨.atTop, queue⟩).complete number)
  | giveUp {i job rest} (hw : p.workers[i]? = some ⟨.leaving, job :: rest⟩) :
    Step p (.leave i) ((p.setWorker i ⟨.gaveUp job.number, rest⟩).drop job)
  | recordGivenUp {i number queue} (hw : p.workers[i]? = some ⟨.gaveUp number, queue⟩) :
    Step p (.leave i) ((p.setWorker i ⟨.leaving, queue⟩).complete number)
  | stop {i} (hw : p.workers[i]? = some ⟨.leaving, []⟩) :
    Step p (.leave i) (p.setWorker i ⟨.stopped, []⟩)

variable {p p' : Pool} {a : Action}

/-- **Every step is one of those.** -/
theorem step_cases (h : p.step a = some p') : Step p a p' := by
  cases a with
  | create body =>
    cases h
    exact .create body
  | accept k =>
    dsimp only [step] at h
    split at h
    · rename_i job hspawn
      split at h
      · rename_i hclosed
        cases h
        exact .refuse hspawn hclosed
      · rename_i hopen
        cases h
        exact .accept hspawn (Bool.eq_false_iff.2 hopen)
    · cases h
  | count k =>
    dsimp only [step] at h
    split at h
    · rename_i job hspawn
      cases h
      exact .count hspawn
    · cases h
  | enqueue k =>
    dsimp only [step] at h
    split at h
    · rename_i job hspawn
      cases h
      exact .enqueue hspawn
    · cases h
  | close =>
    dsimp only [step] at h
    split at h
    · cases h
    · rename_i hopen
      cases h
      exact .close (Bool.eq_false_iff.2 hopen)
  | empty =>
    dsimp only [step] at h
    split at h
    · rename_i job rest hclosing hqueue
      cases h
      exact .emptyOne hclosing hqueue
    · rename_i hclosing hqueue
      cases h
      exact .emptied hclosing hqueue
    · rename_i number queue hclosing
      cases h
      exact .emptyCount hclosing
    · cases h
  | look i =>
    obtain ⟨w, hw, h⟩ := Option.bind_eq_some_iff.1 h
    dsimp only [workerStep] at h
    split at h
    · rename_i hstage
      cases h
      exact .look hw hstage
    · cases h
  | takeOwn i =>
    obtain ⟨⟨stage, queue⟩, hw, h⟩ := Option.bind_eq_some_iff.1 h
    dsimp only [workerStep] at h
    split at h
    · cases h
      exact .takeOwn hw
    · cases h
  | takeBatch i more =>
    obtain ⟨⟨stage, queue⟩, hw, h⟩ := Option.bind_eq_some_iff.1 h
    dsimp only [workerStep] at h
    split at h
    · rename_i job rest hqueue
      cases h
      exact .takeBatch hw hqueue
    · cases h
  | takeFrom i other =>
    obtain ⟨⟨stage, queue⟩, hw, h⟩ := Option.bind_eq_some_iff.1 h
    dsimp only [workerStep] at h
    split at h
    · cases h
    · rename_i hne
      split at h
      · rename_i victim hvictim
        obtain ⟨stage, queue⟩ := victim
        split at h
        · rename_i job rest hqueue
          cases h
          cases hqueue
          exact .takeFrom hne hw hvictim
        · cases h
      · cases h
  | idle i =>
    obtain ⟨⟨stage, queue⟩, hw, h⟩ := Option.bind_eq_some_iff.1 h
    dsimp only [workerStep] at h
    split at h
    · rename_i hstage
      cases h
      cases hstage
      exact .idle hw
    · cases h
  | finish i =>
    obtain ⟨⟨stage, queue⟩, hw, h⟩ := Option.bind_eq_some_iff.1 h
    dsimp only [workerStep] at h
    split at h
    · cases h
      exact .finish hw
    · cases h
  | record i =>
    obtain ⟨⟨stage, queue⟩, hw, h⟩ := Option.bind_eq_some_iff.1 h
    dsimp only [workerStep] at h
    split at h
    · cases h
      exact .fail hw
    · cases h
      exact .record hw
    · cases h
  | leave i =>
    obtain ⟨⟨stage, queue⟩, hw, h⟩ := Option.bind_eq_some_iff.1 h
    dsimp only [workerStep] at h
    split at h
    · cases h
      exact .giveUp hw
    · cases h
      exact .stop hw
    · cases h
      exact .recordGivenUp hw
    · cases h

/-! ### Lists of which one element changes -/

section Lists

variable {α β : Type} {l : List α} {i : Nat} {x y : α} {b : β}

/-- An element put at the end of a list brings its part of the `flatMap` with it. -/
theorem perm_flatMap_concat (f : α → List β) (l : List α) (x : α) :
    ((l ++ [x]).flatMap f).Perm (f x ++ l.flatMap f) := by
  rw [List.flatMap_append, List.flatMap_singleton]
  exact List.perm_append_comm

/-- An element taken out of a list takes its part of the `flatMap` with it. -/
theorem perm_flatMap_eraseIdx (f : α → List β) (h : l[i]? = some x) :
    (l.flatMap f).Perm (f x ++ (l.eraseIdx i).flatMap f) := by
  obtain ⟨hi, rfl⟩ := List.getElem?_eq_some_iff.1 h
  exact (List.getElem_cons_eraseIdx_perm hi).symm.flatMap_right f

open scoped List in
/-- **An element replaced in a list** by one that has taken some of `q` and left `r`. -/
theorem perm_flatMap_set (f : α → List β) (h : l[i]? = some x) {q r : List β}
    (hmoved : (f y ++ r).Perm (f x ++ q)) :
    (r ++ (l.set i y).flatMap f).Perm (q ++ l.flatMap f) := by
  obtain ⟨hi, -⟩ := List.getElem?_eq_some_iff.1 h
  let others := (l.eraseIdx i).flatMap f
  have hset : ((l.set i y).flatMap f).Perm (f y ++ others) :=
    (List.set_perm_cons_eraseIdx hi y).flatMap_right f
  calc r ++ (l.set i y).flatMap f ~ r ++ (f y ++ others) := hset.append_left r
    _ ~ f y ++ r ++ others := by
        rw [← List.append_assoc]
        exact List.perm_append_comm.append_right others
    _ ~ f x ++ q ++ others := hmoved.append_right others
    _ ~ q ++ (f x ++ others) := by
        rw [← List.append_assoc]
        exact List.perm_append_comm.append_right others
    _ ~ q ++ l.flatMap f := (perm_flatMap_eraseIdx f h).symm.append_left q

/-- An element replaced by one with the same part leaves the `flatMap`. -/
theorem perm_flatMap_set_same (f : α → List β) (h : l[i]? = some x) (hf : f y = f x) :
    ((l.set i y).flatMap f).Perm (l.flatMap f) :=
  perm_flatMap_set f h (q := []) (r := []) (.of_eq (by rw [hf]))

/-- An element replaced by one that has one thing more. -/
theorem perm_flatMap_set_takes (f : α → List β) (h : l[i]? = some x)
    (hf : (f y).Perm (b :: f x)) : ((l.set i y).flatMap f).Perm (b :: l.flatMap f) := by
  refine perm_flatMap_set f h (q := [b]) (r := []) ?_
  rw [List.append_nil]
  exact hf.trans (List.perm_append_singleton b _).symm

/-- An element replaced by one that has one thing less. -/
theorem perm_flatMap_set_gives (f : α → List β) (h : l[i]? = some x)
    (hf : (f x).Perm (b :: f y)) : (l.flatMap f).Perm (b :: (l.set i y).flatMap f) := by
  refine (perm_flatMap_set f h (q := []) (r := [b]) ?_).symm
  rw [List.append_nil]
  exact (List.perm_append_singleton b _).trans hf.symm

/-- What all elements have, they have after one is replaced by one that has it. -/
theorem forall_mem_set {P : α → Prop} (h : ∀ x ∈ l, P x) (i : Nat) {y : α} (hy : P y) :
    ∀ x ∈ l.set i y, P x := by
  intro x hx
  obtain hx | rfl := List.mem_or_eq_of_mem_set hx
  · exact h x hx
  · exact hy

end Lists

/-- A worker that is replaced is the one that is found there. -/
theorem getElem?_setWorker {i : Nat} {w : Worker} (hw : p.workers[i]? = some w) (w' : Worker) :
    (p.setWorker i w').workers[i]? = some w' :=
  List.getElem?_set_self (List.getElem?_eq_some_iff.1 hw).1

/-- The other workers are found as they were. -/
theorem getElem?_setWorker_ne {i other : Nat} (hne : other ≠ i) (w' : Worker) :
    (p.setWorker i w').workers[other]? = p.workers[other]? :=
  List.getElem?_set_ne (Ne.symm hne)

/-! ### Closing -/

/-- **Until a pool is closed, nobody empties its queue and no worker has left its loop.** -/
structure Orderly (p : Pool) : Prop where
  notBegun : p.closed = false → p.closing = .notBegun
  inLoop : p.closed = false → ∀ w ∈ p.workers, w.stage.inLoop

/-- A worker of a pool that is open is in its loop. -/
theorem Orderly.stage (h : Orderly p) {i : Nat} {w : Worker} (hw : p.workers[i]? = some w)
    (hopen : p.closed = false) : w.stage.inLoop :=
  h.inLoop hopen w (List.mem_of_getElem? hw)

/-- The closing of an orderly pool goes on only if it has begun. -/
theorem Orderly.begun (h : Orderly p) (hclosing : p.closing ≠ .notBegun) : p.closed = true := by
  cases hclosed : p.closed with
  | true => rfl
  | false => exact absurd (h.notBegun hclosed) hclosing

/-- **Every step keeps that.** -/
theorem Step.orderly (hstep : Step p a p') (h : Orderly p) : Orderly p' := by
  cases hstep with
  | create | refuse | accept | count | enqueue => exact ⟨h.notBegun, h.inLoop⟩
  | close => exact ⟨nofun, nofun⟩
  | emptyOne hclosing | emptyCount hclosing | emptied hclosing =>
    have hclosed : p.closed = true := h.begun (by simp [hclosing])
    exact ⟨fun hopen => absurd hclosed (by simp_all [drop, settle, complete]), h.inLoop⟩
  | @look i w hw hstage =>
    refine ⟨h.notBegun, fun (hopen : p.closed = false) => forall_mem_set (h.inLoop hopen) i ?_⟩
    rw [hopen]
    trivial
  | takeOwn | takeBatch | idle | finish | fail | record =>
    exact ⟨h.notBegun, fun hopen => forall_mem_set (h.inLoop hopen) _ trivial⟩
  | @takeFrom i other stage job rest hne hw hvictim =>
    refine ⟨h.notBegun, fun hopen => ?_⟩
    have htaken := forall_mem_set (y := ⟨.running job, []⟩) (h.inLoop hopen) i trivial
    exact forall_mem_set htaken other (h.stage hvictim hopen : stage.inLoop)
  | giveUp hw | recordGivenUp hw | stop hw =>
    exact ⟨h.notBegun, fun hopen => (h.stage hw hopen).elim⟩

/-! ### The tasks -/

/-- **The tasks that have neither run nor been dropped.** -/
def live (p : Pool) : List Job :=
  p.spawns.flatMap Spawn.jobs ++ (p.queue ++ p.workers.flatMap Worker.jobs)

/-- A task in the common queue is live. -/
theorem mem_live_of_mem_queue {job : Job} (hjob : job ∈ p.queue) : job ∈ p.live :=
  List.mem_append_right _ (List.mem_append_left _ hjob)

/-- So is a task of a worker. -/
theorem mem_live_of_mem_jobs {i : Nat} {w : Worker} (hw : p.workers[i]? = some w) {job : Job}
    (hjob : job ∈ w.jobs) : job ∈ p.live :=
  List.mem_append_right _ (List.mem_append_right _
    (List.mem_flatMap.2 ⟨w, List.mem_of_getElem? hw, hjob⟩))

/-- **What a step does to the tasks.** -/
inductive Fate (p : Pool) (a : Action) (p' : Pool) : Prop
  | moved (hbody : a.body? = none) (hlive : p'.live.Perm p.live) (hhandles : p'.handles = p.handles)
    (hran : p'.ran = p.ran) (hdropped : p'.dropped = p.dropped)
  | made (body : Body) (hbody : a.body? = some body)
    (hlive : p'.live.Perm (⟨p.handles.length, body⟩ :: p.live))
    (hhandles : p'.handles = p.handles ++ [.waiting])
    (hran : p'.ran = p.ran) (hdropped : p'.dropped = p.dropped)
  | ended (job : Job) (hbody : a.body? = none) (hlive : p.live.Perm (job :: p'.live))
    (hhandles : p'.handles = p.handles.set job.number job.body.handle)
    (hran : p'.ran = job.number :: p.ran) (hdropped : p'.dropped = p.dropped)
  | dropped (job : Job) (hbody : a.body? = none) (hlive : p.live.Perm (job :: p'.live))
    (hhandles : p'.handles = p.handles.set job.number .cancelled)
    (hran : p'.ran = p.ran) (hdropped : p'.dropped = job.number :: p.dropped)

/-- A worker goes on, and holds the same tasks. -/
theorem live_setWorker {i : Nat} {w w' : Worker} (hw : p.workers[i]? = some w)
    (hjobs : w'.jobs = w.jobs) : (p.setWorker i w').live.Perm p.live :=
  ((perm_flatMap_set_same _ hw hjobs).append_left p.queue).append_left _

/-- A worker gets a task. -/
theorem live_setWorker_takes {i : Nat} {w w' : Worker} {job : Job} (hw : p.workers[i]? = some w)
    (hjobs : w'.jobs.Perm (job :: w.jobs)) : (p.setWorker i w').live.Perm (job :: p.live) := by
  have hworkers := (perm_flatMap_set_takes _ hw hjobs).append_left p.queue
  exact ((hworkers.trans List.perm_middle).append_left _).trans List.perm_middle

/-- A worker loses a task. -/
theorem live_setWorker_gives {i : Nat} {w w' : Worker} {job : Job} (hw : p.workers[i]? = some w)
    (hjobs : w.jobs.Perm (job :: w'.jobs)) : p.live.Perm (job :: (p.setWorker i w').live) := by
  have hworkers := (perm_flatMap_set_gives _ hw hjobs).append_left p.queue
  exact ((hworkers.trans List.perm_middle).append_left _).trans List.perm_middle

/-- **A step makes a task, ends the run of one, drops one, or leaves them all.** -/
theorem Step.tasks (h : Step p a p') : Fate p a p' := by
  cases h with
  | create body =>
    exact .made body rfl ((perm_flatMap_concat Spawn.jobs p.spawns _).append_right _) rfl rfl rfl
  | @refuse k job hspawn hclosed =>
    exact .dropped job rfl ((perm_flatMap_eraseIdx Spawn.jobs hspawn).append_right _) rfl rfl rfl
  | @accept k job hspawn =>
    have hset := perm_flatMap_set_same (y := ⟨job, .admitted⟩) Spawn.jobs hspawn rfl
    exact .moved rfl (hset.append_right _) rfl rfl rfl
  | @count k job hspawn =>
    have hset := perm_flatMap_set_same (y := ⟨job, .counted⟩) Spawn.jobs hspawn rfl
    exact .moved rfl (hset.append_right _) rfl rfl rfl
  | @enqueue k job hspawn =>
    refine .moved rfl ?_ rfl rfl rfl
    -- the task leaves the call and becomes the last one of the queue
    have hout := (perm_flatMap_eraseIdx Spawn.jobs hspawn).append_right
      (p.queue ++ p.workers.flatMap Worker.jobs)
    refine List.Perm.trans ?_ hout.symm
    show (_ ++ (p.queue ++ [job] ++ _)).Perm (job :: (_ ++ (p.queue ++ _)))
    rw [List.append_assoc]
    exact (List.perm_middle.append_left _).trans List.perm_middle
  | emptyOne hclosing hqueue =>
    refine .dropped _ rfl ?_ rfl rfl rfl
    rw [live, hqueue]
    exact List.perm_middle
  | close | emptyCount | emptied => exact .moved rfl .rfl rfl rfl rfl
  | @look i w hw hstage =>
    refine .moved rfl (live_setWorker hw ?_) rfl rfl rfl
    cases hclosed : p.closed <;> simp [Worker.jobs, Stage.jobs, hstage]
  | @takeBatch i more job rest hw hqueue =>
    refine .moved rfl (List.Perm.append_left _ (perm_flatMap_set Worker.jobs hw ?_)) rfl rfl rfl
    rw [hqueue]
    exact .of_eq (congrArg (job :: ·) (List.take_append_drop more rest))
  | @takeFrom i other stage job rest hne hw hvictim =>
    refine .moved rfl ?_ rfl rfl rfl
    -- the thief is replaced before the victim: in between both have the task, then one of the two goes
    have htakes : (p.setWorker i ⟨.running job, []⟩).live.Perm (job :: p.live) :=
      live_setWorker_takes hw .rfl
    have hvictim' :
        (p.setWorker i ⟨.running job, []⟩).workers[other]? = some ⟨stage, job :: rest⟩ :=
      (getElem?_setWorker_ne hne _).trans hvictim
    refine (List.Perm.trans (List.Perm.symm ?_) htakes).cons_inv
    exact live_setWorker_gives hvictim' List.perm_middle
  | finish hw => exact .ended _ rfl (live_setWorker_gives hw .rfl) rfl rfl rfl
  | giveUp hw => exact .dropped _ rfl (live_setWorker_gives hw .rfl) rfl rfl rfl
  | takeOwn hw | idle hw | fail hw | record hw | recordGivenUp hw | stop hw =>
    exact .moved rfl (live_setWorker hw rfl) rfl rfl rfl

/-! ### The books -/

/-- **The tasks that the counters do not know of yet.** -/
def uncounted (p : Pool) : List Nat := p.spawns.flatMap Spawn.uncounted

/-- **The tasks that are counted as spawned and not as completed.** -/
def owing (p : Pool) : List Nat :=
  p.spawns.flatMap Spawn.owing ++
    (p.queue.map Job.number ++ (p.workers.flatMap Worker.owing ++ p.closing.owing))

/-- **What a step does to the books.** -/
inductive Entry (p : Pool) (a : Action) (p' : Pool) : Prop
  | same (hbody : a.body? = none) (huncounted : p'.uncounted.Perm p.uncounted)
    (howing : p'.owing.Perm p.owing) (hcounted : p'.counted = p.counted)
    (hrecorded : p'.recorded = p.recorded)
  | entered (body : Body) (hbody : a.body? = some body)
    (huncounted : p'.uncounted.Perm (p.handles.length :: p.uncounted))
    (howing : p'.owing.Perm p.owing) (hcounted : p'.counted = p.counted)
    (hrecorded : p'.recorded = p.recorded)
  | refused (number : Nat) (hbody : a.body? = none)
    (huncounted : p.uncounted.Perm (number :: p'.uncounted))
    (howing : p'.owing.Perm p.owing) (hcounted : p'.counted = p.counted)
    (hrecorded : p'.recorded = p.recorded)
  | counted (number : Nat) (hbody : a.body? = none)
    (huncounted : p.uncounted.Perm (number :: p'.uncounted))
    (howing : p'.owing.Perm (number :: p.owing)) (hcounted : p'.counted = number :: p.counted)
    (hrecorded : p'.recorded = p.recorded)
  | recorded (number : Nat) (hbody : a.body? = none) (huncounted : p'.uncounted.Perm p.uncounted)
    (howing : p.owing.Perm (number :: p'.owing)) (hcounted : p'.counted = p.counted)
    (hrecorded : p'.recorded = number :: p.recorded)

/-- A worker goes on, and owes the same. -/
theorem owing_setWorker {i : Nat} {w w' : Worker} (hw : p.workers[i]? = some w)
    (howing : w'.owing = w.owing) : (p.setWorker i w').owing.Perm p.owing :=
  (((perm_flatMap_set_same _ hw howing).append_right _).append_left _).append_left _

/-- A worker gets a task to count. -/
theorem owing_setWorker_takes {i number : Nat} {w w' : Worker} (hw : p.workers[i]? = some w)
    (howing : w'.owing.Perm (number :: w.owing)) :
    (p.setWorker i w').owing.Perm (number :: p.owing) := by
  have hworkers := (perm_flatMap_set_takes _ hw howing).append_right p.closing.owing
  have hqueue := (hworkers.append_left (p.queue.map Job.number)).trans List.perm_middle
  exact (hqueue.append_left _).trans List.perm_middle

/-- A worker loses a task to count, or has counted it. -/
theorem owing_setWorker_gives {i number : Nat} {w w' : Worker} (hw : p.workers[i]? = some w)
    (howing : w.owing.Perm (number :: w'.owing)) :
    p.owing.Perm (number :: (p.setWorker i w').owing) := by
  have hworkers := (perm_flatMap_set_gives _ hw howing).append_right p.closing.owing
  have hqueue := (hworkers.append_left (p.queue.map Job.number)).trans List.perm_middle
  exact (hqueue.append_left _).trans List.perm_middle

/-- **A step enters a task, refuses one, counts one, records one, or leaves the books.** -/
theorem Step.books (h : Step p a p') (horderly : Orderly p) : Entry p a p' := by
  cases h with
  | create body =>
    exact .entered body rfl (perm_flatMap_concat Spawn.uncounted p.spawns _)
      ((perm_flatMap_concat Spawn.owing p.spawns _).append_right _) rfl rfl
  | refuse hspawn =>
    exact .refused _ rfl (perm_flatMap_eraseIdx Spawn.uncounted hspawn)
      ((perm_flatMap_eraseIdx Spawn.owing hspawn).symm.append_right _) rfl rfl
  | @accept k job hspawn =>
    have hset := perm_flatMap_set_same (y := ⟨job, .admitted⟩) Spawn.owing hspawn rfl
    exact .same rfl (perm_flatMap_set_same Spawn.uncounted hspawn rfl) (hset.append_right _) rfl rfl
  | count hspawn =>
    exact .counted _ rfl (perm_flatMap_set_gives Spawn.uncounted hspawn .rfl)
      ((perm_flatMap_set_takes Spawn.owing hspawn .rfl).append_right _) rfl rfl
  | @enqueue k job hspawn =>
    refine .same rfl (perm_flatMap_eraseIdx Spawn.uncounted hspawn).symm ?_ rfl rfl
    have hout := (perm_flatMap_eraseIdx Spawn.owing hspawn).append_right
      (p.queue.map Job.number ++ (p.workers.flatMap Worker.owing ++ p.closing.owing))
    refine List.Perm.trans ?_ hout.symm
    show (_ ++ ((p.queue ++ [job]).map Job.number ++ _)).Perm
      (job.number :: (_ ++ (p.queue.map Job.number ++ _)))
    rw [List.map_append, List.append_assoc]
    exact (List.perm_middle.append_left _).trans List.perm_middle
  | close hopen =>
    refine .same rfl .rfl (.of_eq ?_) rfl rfl
    simp only [owing, horderly.notBegun hopen, Closing.owing]
  | @emptyOne job rest hclosing hqueue =>
    refine .same rfl .rfl (List.Perm.append_left _ ?_) rfl rfl
    rw [hqueue, hclosing, ← List.append_assoc, ← List.append_assoc]
    simp only [drop, settle, Closing.owing, List.append_nil]
    exact List.perm_append_singleton _ _
  | @emptyCount number hclosing =>
    refine .recorded number rfl .rfl ?_ rfl rfl
    simp only [owing, hclosing, ← List.append_assoc, complete, Closing.owing, List.append_nil]
    exact List.perm_append_singleton _ _
  | emptied hclosing =>
    refine .same rfl .rfl (.of_eq ?_) rfl rfl
    simp only [owing, hclosing, Closing.owing]
  | @look i w hw hstage =>
    refine .same rfl .rfl (owing_setWorker hw ?_) rfl rfl
    cases hclosed : p.closed <;> simp [Worker.owing, Stage.owing, hstage]
  | @takeBatch i more job rest hw hqueue =>
    refine .same rfl .rfl (List.Perm.append_left _ ?_) rfl rfl
    have hbatch : (job.number :: (rest.take more).map Job.number) ++ (rest.drop more).map Job.number =
        p.queue.map Job.number := by
      rw [hqueue, List.cons_append, ← List.map_append, List.take_append_drop, List.map_cons]
    have hset := perm_flatMap_set (y := ⟨.running job, rest.take more⟩) Worker.owing hw (.of_eq hbatch)
    have hall := hset.append_right p.closing.owing
    rwa [List.append_assoc, List.append_assoc] at hall
  | @takeFrom i other stage job rest hne hw hvictim =>
    refine .same rfl .rfl ?_ rfl rfl
    have htakes : (p.setWorker i ⟨.running job, []⟩).owing.Perm (job.number :: p.owing) :=
      owing_setWorker_takes hw .rfl
    have hvictim' :
        (p.setWorker i ⟨.running job, []⟩).workers[other]? = some ⟨stage, job :: rest⟩ :=
      (getElem?_setWorker_ne hne _).trans hvictim
    refine (List.Perm.trans (List.Perm.symm ?_) htakes).cons_inv
    exact owing_setWorker_gives hvictim' List.perm_middle
  | record hw | recordGivenUp hw =>
    exact .recorded _ rfl .rfl (owing_setWorker_gives hw .rfl) rfl rfl
  | takeOwn hw | idle hw | finish hw | fail hw | giveUp hw | stop hw =>
    exact .same rfl .rfl (owing_setWorker hw rfl) rfl rfl

/-! ### Runs -/

/-- An action changes the pool that the actions before it have made, if it is enabled there. -/
theorem perform_concat (p : Pool) (before : List Action) (a : Action) :
    p.perform (before ++ [a]) = ((p.perform before).step a).getD (p.perform before) := by
  rw [perform, List.foldl_append]
  rfl

/-- **What a pool has at first and every step keeps, any actions keep.** -/
theorem perform_keeps {I : List Action → Pool → Prop} (hinit : I [] p)
    (hstep : ∀ {before a q}, I before (p.perform before) → Step (p.perform before) a q →
      I (before ++ [a]) q)
    (hskip : ∀ {before a}, (p.perform before).step a = none → I before (p.perform before) →
      I (before ++ [a]) (p.perform before))
    (actions : List Action) : I actions (p.perform actions) := by
  induction actions using List.reverseRecOn with
  | nil => exact hinit
  | append_singleton before a ih =>
    rw [perform_concat]
    cases h : (p.perform before).step a with
    | none => exact hskip h ih
    | some q => exact hstep ih (step_cases h)

/-- A new pool is orderly, and stays so. -/
theorem orderly (workers : Nat) (actions : List Action) :
    Orderly ((ofSize workers).perform actions) := by
  refine perform_keeps (I := fun _ => Orderly) ⟨fun _ => rfl, fun _ w hw => ?_⟩
    (fun h hstep => hstep.orderly h) (fun _ h => h) actions
  rw [List.eq_of_mem_replicate hw]
  trivial

end Pool
end JsonFilter.Task
