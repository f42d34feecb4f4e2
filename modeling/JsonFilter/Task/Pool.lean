/-!
# Worker pools

A pool has workers, a common queue, and a queue of every worker.  Tasks enter through the common
queue.  A worker takes tasks from its own queue first, then a batch from the common one, then single
tasks from the queues of the others.  Closing the pool lets the running tasks end and cancels all
that wait.

`Pool.step` is the pool as a machine: each `Action` is one indivisible step of a caller or of a
worker, and any order of enabled actions may happen.

## Handles

Every task has a handle that tells how the task ended: its body returned, or it was cancelled, which
also stands for a body that failed.
-/

namespace JsonFilter.Task

/-- How the body of a task ends. -/
inductive Body where
  | returns
  | fails
deriving DecidableEq, Repr, Inhabited

/-- A task; its number is the position of its handle. -/
structure Job where
  number : Nat
  body : Body
deriving DecidableEq, Repr

/-- What a handle tells. -/
inductive Handle where
  | waiting
  | finished
  | cancelled
deriving DecidableEq, Repr, Inhabited

/-- What the handle tells after the body has ended. -/
def Body.handle : Body → Handle
  | .returns => .finished
  | .fails => .cancelled

/-- Where a worker stands in its loop. -/
inductive Stage where
  /-- About to look whether the pool is closed. -/
  | atTop
  /-- The pool was open; about to look for a task. -/
  | seeking
  | running (job : Job)
  /-- The body of a task has ended; what is left is to count that. -/
  | ended (number : Nat) (failed : Bool)
  /-- The pool was closed; its own queue is given up. -/
  | leaving
  /-- A task of its own queue was dropped; what is left is to count that. -/
  | gaveUp (number : Nat)
  | stopped
deriving DecidableEq, Repr

/-- A worker with its own queue, the first task to be taken first. -/
structure Worker where
  stage : Stage := .atTop
  queue : List Job := []
deriving DecidableEq, Repr

/-- Where a closing of the pool stands. -/
inductive Closing where
  | notBegun
  /-- The pool is marked as closed; the common queue is being emptied. -/
  | emptying
  /-- A task of the common queue was dropped; what is left is to count that. -/
  | gaveUp (number : Nat)
  | done
deriving DecidableEq, Repr

/-- Where a call that adds a task stands. -/
inductive Entering where
  /-- The task and its handle are made. -/
  | created
  /-- The pool was seen to be open. -/
  | admitted
  /-- The task is counted as spawned. -/
  | counted
deriving DecidableEq, Repr

/-- A call that adds a task. -/
structure Spawn where
  job : Job
  stage : Entering
deriving DecidableEq, Repr

/-- What a pool counts. -/
structure Metrics where
  spawned : Nat := 0
  completed : Nat := 0
  /-- Part of the completed ones. -/
  failed : Nat := 0
deriving DecidableEq, Repr, Inhabited

namespace Metrics

/-- The tasks spawned and not completed. -/
def waiting (m : Metrics) : Nat := m.spawned - m.completed

/-- One more task spawned. -/
def spawn (m : Metrics) : Metrics := { m with spawned := m.spawned + 1 }

/-- One more task completed. -/
def complete (m : Metrics) : Metrics := { m with completed := m.completed + 1 }

/-- One more task failed. -/
def fail (m : Metrics) : Metrics := { m with failed := m.failed + 1 }

end Metrics

/-- A pool. -/
structure Pool where
  closed : Bool := false
  closing : Closing := .notBegun
  /-- The common queue, the first task to be taken first. -/
  queue : List Job := []
  workers : List Worker
  /-- The calls under way that add a task. -/
  spawns : List Spawn := []
  handles : List Handle := []
  metrics : Metrics := {}
  /-- The numbers of the tasks whose bodies were run, the last one first. -/
  ran : List Nat := []
  /-- The numbers of the tasks that were dropped unrun, the last one first. -/
  dropped : List Nat := []
  /-- The numbers of the tasks that were counted as spawned, the last one first. -/
  counted : List Nat := []
  /-- The numbers of the tasks that were counted as completed, the last one first. -/
  recorded : List Nat := []
deriving DecidableEq, Repr

/-- A single step of a caller or of a worker. -/
inductive Action where
  /-- A caller makes a task and its handle. -/
  | create (body : Body)
  /-- The caller of a spawn looks whether the pool is closed, and drops the task if it is. -/
  | accept (spawn : Nat)
  /-- The caller of an admitted spawn counts the task as spawned. -/
  | count (spawn : Nat)
  /-- The caller of a counted spawn puts the task into the common queue. -/
  | enqueue (spawn : Nat)
  /-- A caller marks the pool as closed. -/
  | close
  /-- The closing caller drops the first task of the common queue, counts that, or is done. -/
  | empty
  /-- A worker looks whether the pool is closed. -/
  | look (worker : Nat)
  /-- A worker takes the first task of its own queue. -/
  | takeOwn (worker : Nat)
  /-- A worker takes the first task of the common queue to run it, and some more for itself. -/
  | takeBatch (worker more : Nat)
  /-- A worker, whose own queue is empty and who found the common one empty, takes the first task
  of another one's queue. -/
  | takeFrom (worker other : Nat)
  /-- A worker found nothing and goes back to the top. -/
  | idle (worker : Nat)
  /-- The body of a worker's task ends. -/
  | finish (worker : Nat)
  /-- A worker counts a task that has ended: as failed, if it has, and then as completed. -/
  | record (worker : Nat)
  /-- A leaving worker drops the first task of its own queue, counts that, or stops. -/
  | leave (worker : Nat)
deriving DecidableEq, Repr

namespace Pool

/-- A pool with a number of workers, at least one. -/
def ofSize (workers : Nat) : Pool := { workers := List.replicate (max workers 1) {} }

/-- Settles the handle of a task. -/
def settle (p : Pool) (job : Job) (handle : Handle) : Pool :=
  { p with handles := p.handles.set job.number handle }

/-- Replaces a worker. -/
def setWorker (p : Pool) (i : Nat) (w : Worker) : Pool :=
  { p with workers := p.workers.set i w }

/-- Drops a task unrun, which cancels its handle. -/
def drop (p : Pool) (job : Job) : Pool :=
  { p.settle job .cancelled with dropped := job.number :: p.dropped }

/-- The body of a task has ended. -/
def finishJob (p : Pool) (job : Job) : Pool :=
  { p.settle job job.body.handle with ran := job.number :: p.ran }

/-- Counts a task as completed. -/
def complete (p : Pool) (number : Nat) : Pool :=
  { p with metrics := p.metrics.complete, recorded := number :: p.recorded }

/-- A worker's step, if it is enabled. -/
def workerStep (p : Pool) (i : Nat) (w : Worker) : Action → Option Pool
  | .look _ =>
    if w.stage = .atTop then
      some (p.setWorker i { w with stage := if p.closed then .leaving else .seeking })
    else none
  | .takeOwn _ =>
    match w.stage, w.queue with
    | .seeking, job :: rest => some (p.setWorker i { stage := .running job, queue := rest })
    | _, _ => none
  | .takeBatch _ more =>
    match w.stage, w.queue, p.queue with
    | .seeking, [], job :: rest =>
      some { p.setWorker i { stage := .running job, queue := rest.take more } with
        queue := rest.drop more }
    | _, _, _ => none
  | .takeFrom _ other =>
    if other = i then none
    else
      match w.stage, w.queue, p.workers[other]? with
      | .seeking, [], some victim =>
        match victim.queue with
        | job :: rest =>
          some ((p.setWorker i { w with stage := .running job }).setWorker other
            { victim with queue := rest })
        | [] => none
      | _, _, _ => none
  | .idle _ => if w.stage = .seeking then some (p.setWorker i { w with stage := .atTop }) else none
  | .finish _ =>
    match w.stage with
    | .running job =>
      some ((p.setWorker i { w with stage := .ended job.number (job.body = .fails) }).finishJob job)
    | _ => none
  | .record _ =>
    match w.stage with
    | .ended number true =>
      some { p.setWorker i { w with stage := .ended number false } with metrics := p.metrics.fail }
    | .ended number false => some ((p.setWorker i { w with stage := .atTop }).complete number)
    | _ => none
  | .leave _ =>
    match w.stage, w.queue with
    | .leaving, job :: rest =>
      some ((p.setWorker i { stage := .gaveUp job.number, queue := rest }).drop job)
    | .leaving, [] => some (p.setWorker i { w with stage := .stopped })
    | .gaveUp number, _ => some ((p.setWorker i { w with stage := .leaving }).complete number)
    | _, _ => none
  | _ => none

/-- The pool after an action, if the action is enabled. -/
def step (p : Pool) : Action → Option Pool
  | .create body =>
    let job : Job := ⟨p.handles.length, body⟩
    some { p with handles := p.handles ++ [.waiting], spawns := p.spawns ++ [⟨job, .created⟩] }
  | .accept k =>
    match p.spawns[k]? with
    | some ⟨job, .created⟩ =>
      if p.closed then some ({ p with spawns := p.spawns.eraseIdx k }.drop job)
      else some { p with spawns := p.spawns.set k ⟨job, .admitted⟩ }
    | _ => none
  | .count k =>
    match p.spawns[k]? with
    | some ⟨job, .admitted⟩ =>
      some { p with
        spawns := p.spawns.set k ⟨job, .counted⟩
        metrics := p.metrics.spawn
        counted := job.number :: p.counted }
    | _ => none
  | .enqueue k =>
    match p.spawns[k]? with
    | some ⟨job, .counted⟩ =>
      some { p with spawns := p.spawns.eraseIdx k, queue := p.queue ++ [job] }
    | _ => none
  | .close =>
    if p.closed then none else some { p with closed := true, closing := .emptying }
  | .empty =>
    match p.closing, p.queue with
    | .emptying, job :: rest => some ({ p with queue := rest, closing := .gaveUp job.number }.drop job)
    | .emptying, [] => some { p with closing := .done }
    | .gaveUp number, _ => some ({ p with closing := .emptying }.complete number)
    | _, _ => none
  | .look i => p.workers[i]?.bind fun w => p.workerStep i w (.look i)
  | .takeOwn i => p.workers[i]?.bind fun w => p.workerStep i w (.takeOwn i)
  | .takeBatch i more => p.workers[i]?.bind fun w => p.workerStep i w (.takeBatch i more)
  | .takeFrom i other => p.workers[i]?.bind fun w => p.workerStep i w (.takeFrom i other)
  | .idle i => p.workers[i]?.bind fun w => p.workerStep i w (.idle i)
  | .finish i => p.workers[i]?.bind fun w => p.workerStep i w (.finish i)
  | .record i => p.workers[i]?.bind fun w => p.workerStep i w (.record i)
  | .leave i => p.workers[i]?.bind fun w => p.workerStep i w (.leave i)

/-- The pool after the enabled ones of some actions. -/
def perform (p : Pool) (actions : List Action) : Pool :=
  actions.foldl (fun p a => (p.step a).getD p) p

/-! ### Whole calls, with nobody in between -/

/-- Adds a task; gives its number. -/
def spawn (p : Pool) (body : Body) : Nat × Pool :=
  let k := p.spawns.length
  (p.handles.length, p.perform [.create body, .accept k, .count k, .enqueue k])

/-- Adds tasks in order; gives their numbers. -/
def spawnAll (p : Pool) : List Body → List Nat × Pool
  | [] => ([], p)
  | body :: rest =>
    let (number, p) := p.spawn body
    let (numbers, p) := p.spawnAll rest
    (number :: numbers, p)

/-- Closes the pool; closing it again changes nothing. -/
def shutdown (p : Pool) : Pool :=
  if p.closed then p
  else p.perform (.close :: List.replicate (2 * p.queue.length + 1) .empty)

/-- A worker takes a task, if it finds one. -/
def takeTask (p : Pool) (i : Nat) : Pool :=
  p.perform [.look i, .takeOwn i, .takeBatch i 0]

/-- A worker goes once through its loop. -/
def turn (p : Pool) (i : Nat) : Pool :=
  (p.takeTask i).perform [.finish i, .record i, .record i, .idle i, .leave i, .leave i]

/-- Every worker goes once through its loop, one after the other. -/
def round (p : Pool) : Pool := (List.range p.workers.length).foldl turn p

/-- Some rounds. -/
def rounds : Nat → Pool → Pool
  | 0, p => p
  | n + 1, p => rounds n p.round

/-- Lets the workers go on for as long as tasks can wait, and once more. -/
def drain (p : Pool) : Pool := rounds (p.handles.length + 2) p

/-- What the handle of a task tells. -/
def handle (p : Pool) (number : Nat) : Handle := p.handles.getD number .waiting

end Pool
end JsonFilter.Task
