import JsonFilter.Proofs.Task.Accounts

/-!
# An open pool gets to every task

Until somebody closes a pool, its workers take tasks out of the queues and run them, and drop none.  This
file shows that no order of steps leads a task to a place from which no worker can get to it.

## The backlog of a worker

A worker of an open pool takes the tasks of its own queue and then those of the common queue.  Together
they are its `backlog`, and its next step either brings it closer to taking a task or shortens the
backlog from the front (`advance_backlog`).

* **`Reached.dropped`** — an open pool has dropped no task.
* **`Reached.leads_running`** — a task that has not run is run by some continuation.
-/

namespace JsonFilter.Task

/-- How many steps a worker of an open pool is away from taking a task. -/
def Stage.distance : Stage → Nat
  | .running _ => 4
  | .ended _ true => 3
  | .ended _ false => 2
  | .atTop => 1
  | _ => 0

namespace Pool

variable {p p' : Pool} {a : Action} {job : Job}

/-! ### Pools that can be reached -/

/-- **A pool that can be reached**: what some actions make of a new one. -/
def Reached (p : Pool) : Prop := ∃ workers actions, (ofSize workers).perform actions = p

theorem perform_cons_of_step {actions : List Action} (h : p.step a = some p') :
    p.perform (a :: actions) = p'.perform actions := by
  rw [perform, List.foldl_cons, h]
  rfl

/-- No step opens a pool that was closed. -/
theorem Step.closed_of_closed (h : Step p a p') (hclosed : p.closed = true) : p'.closed = true := by
  cases h <;> first | exact hclosed | rfl

/-- Only a closing closes a pool. -/
theorem Step.closed_eq (h : Step p a p') (hne : a ≠ .close) : p'.closed = p.closed := by
  cases h with
  | close => exact absurd rfl hne
  | _ => rfl

/-- Nothing is dropped before the pool is closed. -/
theorem Step.dropped_eq (h : Step p a p') (ho : Orderly p) (hopen : p.closed = false) :
    p'.dropped = p.dropped := by
  cases h with
  | refuse _ hclosed =>
    rw [hopen] at hclosed
    cases hclosed
  | emptyOne hclosing =>
    rw [ho.notBegun hopen] at hclosing
    cases hclosing
  | giveUp hw => exact (ho.stage hw hopen).elim
  | _ => rfl

/-- A task runs once a worker ends it. -/
theorem Step.ran_cases (h : Step p a p') :
    p'.ran = p.ran ∨ ∃ i job queue, a = .finish i ∧ p.workers[i]? = some ⟨.running job, queue⟩ ∧
      p'.ran = job.number :: p.ran := by
  cases h with
  | finish hw => exact .inr ⟨_, _, _, rfl, hw, rfl⟩
  | _ => exact .inl rfl

/-- No handle is lost. -/
theorem Step.length_handles_le (h : Step p a p') : p.handles.length ≤ p'.handles.length := by
  rw [h.length_handles]
  exact Nat.le_add_right _ _

/-- No step adds a worker or takes one away. -/
theorem Step.length_workers (h : Step p a p') : p'.workers.length = p.workers.length := by
  cases h <;> first | rfl | exact List.length_set | exact List.length_set.trans List.length_set

namespace Reached

theorem perform (h : Reached p) (actions : List Action) : Reached (p.perform actions) := by
  obtain ⟨workers, before, rfl⟩ := h
  exact ⟨workers, before ++ actions, perform_append _ _ _⟩

theorem step (h : Reached p) (hstep : p.step a = some p') : Reached p' := by
  have hperform : p.perform [a] = p' := perform_cons_of_step hstep
  exact hperform ▸ h.perform [a]

theorem orderly (h : Reached p) : Orderly p := by
  obtain ⟨workers, actions, rfl⟩ := h
  exact Pool.orderly workers actions

theorem accounted (h : Reached p) : ∃ bodies, Accounted bodies p := by
  obtain ⟨workers, actions, rfl⟩ := h
  exact ⟨_, Pool.accounted workers actions⟩

/-- **An open pool has dropped no task.** -/
theorem dropped (h : Reached p) (hopen : p.closed = false) : p.dropped = [] := by
  obtain ⟨workers, actions, rfl⟩ := h
  refine perform_keeps (I := fun _ p => p.closed = false → p.dropped = []) (fun _ => rfl) ?_
    (fun _ h => h) actions hopen
  intro before a q h hstep hopen
  have hbefore : ((ofSize workers).perform before).closed = false := by
    cases hclosed : ((ofSize workers).perform before).closed with
    | false => rfl
    | true => exact absurd ((hstep.closed_of_closed hclosed).symm.trans hopen) nofun
  exact (hstep.dropped_eq (Pool.orderly workers before) hbefore).trans (h hbefore)

/-- There is a worker. -/
theorem exists_worker (h : Reached p) : ∃ w, p.workers[0]? = some w := by
  obtain ⟨workers, actions, rfl⟩ := h
  have hlength : 0 < ((ofSize workers).perform actions).workers.length := by
    refine perform_keeps (I := fun _ p => 0 < p.workers.length) ?_ ?_ (fun _ h => h) actions
    · show 0 < (List.replicate (max workers 1) ({} : Worker)).length
      rw [List.length_replicate]
      omega
    · intro before a q h hstep
      rw [hstep.length_workers]
      exact h
  exact ⟨_, List.getElem?_eq_getElem hlength⟩

/-- A live task has not run. -/
theorem not_mem_ran (h : Reached p) (hjob : job ∈ p.live) : job.number ∉ p.ran := by
  obtain ⟨bodies, haccounted⟩ := h.accounted
  intro hran
  have hdisjoint := (List.nodup_append'.1 haccounted.nodup).2.2
  exact hdisjoint (List.mem_map_of_mem hjob) (List.mem_append_left _ hran)

end Reached

/-! ### The way to a worker -/

/-- The tasks that a worker gets to, in order, if nobody else takes any. -/
def backlog (p : Pool) (w : Worker) : List Job := w.queue ++ p.queue

/-- A worker is running a task. -/
def Running (p : Pool) (job : Job) : Prop :=
  ∃ (i : Nat) (queue : List Job), p.workers[i]? = some ⟨.running job, queue⟩

/-- **What can become of a pool** that nobody closes. -/
def Leads (p : Pool) (Q : Pool → Prop) : Prop :=
  ∃ actions, (∀ a ∈ actions, a ≠ .close) ∧ Q (p.perform actions)

namespace Leads

variable {Q R : Pool → Prop}

theorem here (h : Q p) : p.Leads Q := ⟨[], nofun, h⟩

theorem of_step (hstep : p.step a = some p') (ha : a ≠ .close) (h : p'.Leads Q) : p.Leads Q := by
  obtain ⟨actions, hactions, h⟩ := h
  refine ⟨a :: actions, ?_, ?_⟩
  · simpa using ⟨ha, hactions⟩
  · rw [perform_cons_of_step hstep]
    exact h

theorem trans (h : p.Leads Q) (hnext : ∀ actions, Q (p.perform actions) → (p.perform actions).Leads R) :
    p.Leads R := by
  obtain ⟨actions, hactions, h⟩ := h
  obtain ⟨more, hmore, h⟩ := hnext actions h
  refine ⟨actions ++ more, ?_, ?_⟩
  · intro a ha
    exact (List.mem_append.1 ha).elim (hactions a) (hmore a)
  · rw [perform_append]
    exact h

end Leads

/-- A worker that seeks takes the first task of its backlog. -/
theorem exists_takes_first {i : Nat} {queue : List Job} (hw : p.workers[i]? = some ⟨.seeking, queue⟩)
    (hsome : queue ++ p.queue ≠ []) :
    ∃ first a p', a ≠ .close ∧ p.step a = some p' ∧
      p'.workers[i]? = some ⟨.running first, queue.tail⟩ ∧
      queue ++ p.queue = first :: (queue.tail ++ p'.queue) := by
  cases queue with
  | cons first rest =>
    have hstep : p.step (.takeOwn i) = some (p.setWorker i ⟨.running first, rest⟩) := by
      rw [step, hw]
      rfl
    exact ⟨first, .takeOwn i, _, by simp, hstep, getElem?_setWorker hw _, rfl⟩
  | nil =>
    cases hqueue : p.queue with
    | nil => exact absurd hqueue hsome
    | cons first rest =>
      have hstep : p.step (.takeBatch i 0) = some
          { p.setWorker i ⟨.running first, []⟩ with queue := rest } := by
        rw [step, hw, Option.bind_some, workerStep, hqueue]
        rfl
      exact ⟨first, .takeBatch i 0, _, by simp, hstep, getElem?_setWorker hw _, rfl⟩

/-- **A worker comes closer to every task of its backlog**, or takes it. -/
theorem advance_backlog (ho : Orderly p) (hopen : p.closed = false) {i : Nat} {w : Worker}
    (hw : p.workers[i]? = some w) {ahead behind : List Job}
    (hbacklog : p.backlog w = ahead ++ job :: behind) :
    ∃ a p', a ≠ .close ∧ p.step a = some p' ∧ (Running p' job ∨
      ∃ w' ahead', p'.workers[i]? = some w' ∧ p'.backlog w' = ahead' ++ job :: behind ∧
        5 * ahead'.length + w'.stage.distance < 5 * ahead.length + w.stage.distance) := by
  have hloop := ho.stage hw hopen
  obtain ⟨stage, queue⟩ := w
  -- a step that leaves the backlog as it is
  have hcloser : ∀ {a : Action} {p' : Pool} {stage' : Stage}, p.step a = some p' → a ≠ .close →
      p'.workers[i]? = some ⟨stage', queue⟩ → p'.queue = p.queue → stage'.distance < stage.distance →
      ∃ a p', a ≠ .close ∧ p.step a = some p' ∧ (Running p' job ∨
        ∃ w' ahead', p'.workers[i]? = some w' ∧ p'.backlog w' = ahead' ++ job :: behind ∧
          5 * ahead'.length + w'.stage.distance < 5 * ahead.length + stage.distance) := by
    intro a p' stage' hstep ha hw' hqueue hless
    refine ⟨a, p', ha, hstep, .inr ⟨_, ahead, hw', ?_, Nat.add_lt_add_left hless _⟩⟩
    unfold backlog at hbacklog ⊢
    rw [hqueue]
    exact hbacklog
  cases stage with
  | leaving | gaveUp | stopped => exact hloop.elim
  | running other =>
    have hstep : p.step (.finish i) = some
        ((p.setWorker i ⟨.ended other.number (other.body = .fails), queue⟩).finishJob other) := by
      rw [step, hw]
      rfl
    refine hcloser hstep (by simp) (getElem?_setWorker hw _) rfl ?_
    cases other.body with
    | returns => exact (show 2 < 4 by decide)
    | fails => exact (show 3 < 4 by decide)
  | ended number failed =>
    cases failed with
    | true =>
      have hstep : p.step (.record i) = some
          { p.setWorker i ⟨.ended number false, queue⟩ with metrics := p.metrics.fail } := by
        rw [step, hw]
        rfl
      exact hcloser hstep (by simp) (getElem?_setWorker hw _) rfl (show 2 < 3 by decide)
    | false =>
      have hstep : p.step (.record i) = some ((p.setWorker i ⟨.atTop, queue⟩).complete number) := by
        rw [step, hw]
        rfl
      exact hcloser hstep (by simp) (getElem?_setWorker hw _) rfl (show 1 < 2 by decide)
  | atTop =>
    have hstep : p.step (.look i) = some (p.setWorker i ⟨.seeking, queue⟩) := by
      rw [step, hw, Option.bind_some, workerStep, if_pos rfl, hopen]
      rfl
    exact hcloser hstep (by simp) (getElem?_setWorker hw _) rfl (show 0 < 1 by decide)
  | seeking =>
    have hsome : queue ++ p.queue ≠ [] := by
      unfold backlog at hbacklog
      rw [hbacklog]
      simp
    obtain ⟨first, a, p', ha, hstep, hw', hrest⟩ := exists_takes_first hw hsome
    have hsplit : first :: (queue.tail ++ p'.queue) = ahead ++ job :: behind := hrest.symm.trans hbacklog
    refine ⟨a, p', ha, hstep, ?_⟩
    cases ahead with
    | nil =>
      obtain ⟨rfl, -⟩ := List.cons.inj hsplit
      exact .inl ⟨i, _, hw'⟩
    | cons next ahead =>
      refine .inr ⟨_, ahead, hw', (List.cons.inj hsplit).2, ?_⟩
      show 5 * ahead.length + 4 < 5 * (ahead.length + 1) + 0
      omega

/-- **Every task of a backlog gets to its worker.** -/
theorem Reached.leads_running_of_backlog (h : Reached p) (hopen : p.closed = false) {i : Nat}
    {w : Worker} (hw : p.workers[i]? = some w) {ahead behind : List Job}
    (hbacklog : p.backlog w = ahead ++ job :: behind) : p.Leads fun q => q.Running job := by
  induction hn : 5 * ahead.length + w.stage.distance using Nat.strong_induction_on
    generalizing p w ahead with
  | _ n ih =>
    obtain ⟨a, p', ha, hstep, hrunning | ⟨w', ahead', hw', hbacklog', hless⟩⟩ :=
      advance_backlog h.orderly hopen hw hbacklog
    · exact .of_step hstep ha (.here hrunning)
    · have hopen' : p'.closed = false := ((step_cases hstep).closed_eq ha).trans hopen
      exact .of_step hstep ha (ih _ (hn ▸ hless) (h.step hstep) hopen' hw' hbacklog' rfl)

/-- **A task in the hands of a caller** gets into the common queue. -/
theorem leads_queued (hopen : p.closed = false) {k : Nat} {stage : Entering}
    (hspawn : p.spawns[k]? = some ⟨job, stage⟩) :
    p.Leads fun q => q.closed = false ∧ job ∈ q.queue := by
  have hset : ∀ {p : Pool} {s s' : Spawn}, p.spawns[k]? = some s → (p.spawns.set k s')[k]? = some s' :=
    fun hs => List.getElem?_set_self (List.getElem?_eq_some_iff.1 hs).1
  have hcounted : ∀ {p : Pool}, p.closed = false → p.spawns[k]? = some ⟨job, .counted⟩ →
      p.Leads fun q => q.closed = false ∧ job ∈ q.queue := by
    intro p hopen hspawn
    have hstep : p.step (.enqueue k) = some
        { p with spawns := p.spawns.eraseIdx k, queue := p.queue ++ [job] } := by
      rw [step, hspawn]
    exact .of_step hstep (by simp) (.here ⟨hopen, List.mem_append_right _ (List.mem_singleton.2 rfl)⟩)
  have hadmitted : ∀ {p : Pool}, p.closed = false → p.spawns[k]? = some ⟨job, .admitted⟩ →
      p.Leads fun q => q.closed = false ∧ job ∈ q.queue := by
    intro p hopen hspawn
    have hstep : p.step (.count k) = some { p with
        spawns := p.spawns.set k ⟨job, .counted⟩
        metrics := p.metrics.spawn
        counted := job.number :: p.counted } := by
      rw [step, hspawn]
    exact .of_step hstep (by simp) (hcounted hopen (hset hspawn))
  cases stage with
  | counted => exact hcounted hopen hspawn
  | admitted => exact hadmitted hopen hspawn
  | created =>
    have hstep : p.step (.accept k) = some { p with spawns := p.spawns.set k ⟨job, .admitted⟩ } := by
      rw [step, hspawn, hopen]
      rfl
    exact .of_step hstep (by simp) (hadmitted hopen (hset hspawn))

/-- **A task that has not run is run** by some continuation, as long as nobody closes the pool. -/
theorem Reached.leads_running (h : Reached p) (hopen : p.closed = false) (hjob : job ∈ p.live) :
    p.Leads fun q => q.Running job := by
  have hqueued : ∀ {p : Pool}, Reached p → p.closed = false → job ∈ p.queue →
      p.Leads fun q => q.Running job := by
    intro p h hopen hjob
    obtain ⟨w, hw⟩ := h.exists_worker
    obtain ⟨ahead, behind, hqueue⟩ := List.append_of_mem (List.mem_append_right w.queue hjob)
    exact h.leads_running_of_backlog hopen hw hqueue
  rcases List.mem_append.1 hjob with hcaller | hjob
  · obtain ⟨⟨other, stage⟩, hs, hmem⟩ := List.mem_flatMap.1 hcaller
    obtain rfl : job = other := List.mem_singleton.1 hmem
    obtain ⟨k, hk⟩ := List.mem_iff_getElem?.1 hs
    exact (leads_queued hopen hk).trans fun actions ⟨hopen', hqueue⟩ =>
      hqueued (h.perform actions) hopen' hqueue
  rcases List.mem_append.1 hjob with hqueue | hworker
  · exact hqueued h hopen hqueue
  · obtain ⟨w, hw, hmem⟩ := List.mem_flatMap.1 hworker
    obtain ⟨i, hi⟩ := List.mem_iff_getElem?.1 hw
    obtain ⟨stage, queue⟩ := w
    rcases List.mem_append.1 hmem with hrunning | hown
    · cases stage with
      | running other =>
        obtain rfl : job = other := List.mem_singleton.1 hrunning
        exact .here ⟨i, queue, hi⟩
      | _ => cases hrunning
    · obtain ⟨ahead, behind, hqueue⟩ := List.append_of_mem (List.mem_append_left p.queue hown)
      exact h.leads_running_of_backlog hopen hi hqueue

end Pool
end JsonFilter.Task
