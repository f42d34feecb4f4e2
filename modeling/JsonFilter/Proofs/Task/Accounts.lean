import JsonFilter.Proofs.Task.Steps
import Mathlib.Data.List.Nodup
import Mathlib.Data.List.Range
import Mathlib.Tactic.ByContra

/-!
# Every task is accounted for once

Tasks wander between the queues of a pool while callers add some, workers steal them from each other
and somebody closes the pool.  This file shows that no order of these steps loses a task, runs one
twice or settles a handle wrongly, and that the counters agree with what has happened.

## What holds of every pool

`Accounted` ties the tasks to their handles: every task that was made is still live, has run or was
dropped, and its handle tells which.  `Booked` ties them to the counters: a task is counted as
spawned at most once, and as completed at most once and only after that.  A step keeps both
(`Accounted.step`, `Booked.step`), since it does no more than one small thing to one task.

## Where a task is

`Place` lists the places of a pool and `tasksAt` what is there.  All places together hold the tasks of
the pool without repetition, so that a task is in one of them only (`exists_unique_place`).

* **`accounted_once`** — what holds of the tasks of a pool after any actions.
-/

namespace JsonFilter.Task

/-- Where a task can be. -/
inductive Place where
  /-- In the hands of the caller that adds it. -/
  | caller
  | common
  | own (worker : Nat)
  | running (worker : Nat)
  | ran
  | dropped
deriving DecidableEq, Repr

namespace Pool

variable {p p' : Pool} {a : Action} {bodies : List Body}

/-! ### The tasks and their handles -/

/-- **The tasks that were made, and what their handles tell.** -/
structure Accounted (bodies : List Body) (p : Pool) : Prop where
  handles : p.handles.length = bodies.length
  /-- Every task is live, has run or was dropped, and only one of these. -/
  numbers : (p.live.map Job.number ++ (p.ran ++ p.dropped)).Perm (List.range bodies.length)
  body : ∀ job ∈ p.live, bodies[job.number]? = some job.body
  waiting : ∀ job ∈ p.live, p.handles[job.number]? = some .waiting
  ran : ∀ n ∈ p.ran, p.handles[n]? = bodies[n]?.map Body.handle
  dropped : ∀ n ∈ p.dropped, p.handles[n]? = some .cancelled

namespace Accounted

theorem nodup (h : Accounted bodies p) : (p.live.map Job.number ++ (p.ran ++ p.dropped)).Nodup :=
  h.numbers.nodup_iff.2 List.nodup_range

theorem mem_iff (h : Accounted bodies p) {n : Nat} :
    n < bodies.length ↔ n ∈ p.live.map Job.number ∨ n ∈ p.ran ∨ n ∈ p.dropped := by
  rw [← List.mem_range, ← h.numbers.mem_iff, List.mem_append, List.mem_append]

/-- A task made adds one live task, whose handle waits. -/
theorem make (h : Accounted bodies p) {body : Body}
    (hlive : p'.live.Perm (⟨p.handles.length, body⟩ :: p.live))
    (hhandles : p'.handles = p.handles ++ [.waiting]) (hran : p'.ran = p.ran)
    (hdropped : p'.dropped = p.dropped) : Accounted (bodies ++ [body]) p' where
  handles := by rw [hhandles, List.length_append, List.length_append, h.handles]; rfl
  numbers := by
    have hnumbers := (hlive.map Job.number).append_right (p'.ran ++ p'.dropped)
    rw [hran, hdropped] at hnumbers ⊢
    rw [List.length_append, List.length_singleton, List.range_succ, ← h.handles]
    refine hnumbers.trans ((h.numbers.cons p.handles.length).trans ?_)
    rw [h.handles]
    exact (List.perm_append_singleton _ _).symm
  body job hjob := by
    obtain rfl | hjob := List.mem_cons.1 (hlive.mem_iff.1 hjob)
    · rw [h.handles, List.getElem?_concat_length]
    · rw [List.getElem?_append_left (h.mem_iff.2 (.inl (List.mem_map_of_mem hjob)))]
      exact h.body job hjob
  waiting job hjob := by
    rw [hhandles]
    obtain rfl | hjob := List.mem_cons.1 (hlive.mem_iff.1 hjob)
    · rw [List.getElem?_concat_length]
    · rw [List.getElem?_append_left (List.getElem?_eq_some_iff.1 (h.waiting job hjob)).1]
      exact h.waiting job hjob
  ran n hn := by
    rw [hran] at hn
    have hlt : n < bodies.length := h.mem_iff.2 (.inr (.inl hn))
    rw [hhandles, List.getElem?_append_left hlt, List.getElem?_append_left (h.handles ▸ hlt)]
    exact h.ran n hn
  dropped n hn := by
    rw [hdropped] at hn
    rw [hhandles, List.getElem?_append_left (List.getElem?_eq_some_iff.1 (h.dropped n hn)).1]
    exact h.dropped n hn

/-- A live task whose handle gets settled is none of the others. -/
theorem apart (h : Accounted bodies p) {job : Job} {others : List Job}
    (hlive : p.live.Perm (job :: others)) :
    (∀ other ∈ others, job.number ≠ other.number) ∧ (∀ n ∈ p.ran, job.number ≠ n) ∧
      ∀ n ∈ p.dropped, job.number ≠ n := by
  have hnodup := h.nodup
  rw [((hlive.map Job.number).append_right _).nodup_iff, List.map_cons, List.cons_append,
    List.nodup_cons, List.mem_append, List.mem_append] at hnodup
  obtain ⟨hfresh, -⟩ := hnodup
  refine ⟨fun other hother heq => hfresh (.inl ?_), fun n hn heq => hfresh (.inr (.inl ?_)),
    fun n hn heq => hfresh (.inr (.inr ?_))⟩
  · rw [heq]
    exact List.mem_map_of_mem hother
  · rwa [heq]
  · rwa [heq]

/-- A live task leaves the live ones and its handle gets settled: all the others stay accounted for. -/
theorem settle (h : Accounted bodies p) {job : Job} {handle : Handle}
    (hlive : p.live.Perm (job :: p'.live)) (hhandles : p'.handles = p.handles.set job.number handle)
    (hgone : (p'.ran ++ p'.dropped).Perm (job.number :: (p.ran ++ p.dropped)))
    (hran : ∀ n ∈ p'.ran, n ∈ p.ran ∨ n = job.number ∧ handle = job.body.handle)
    (hdropped : ∀ n ∈ p'.dropped, n ∈ p.dropped ∨ n = job.number ∧ handle = .cancelled) :
    Accounted bodies p' := by
  obtain ⟨hothers, hnotRan, hnotDropped⟩ := h.apart hlive
  have hmem : job ∈ p.live := hlive.mem_iff.2 List.mem_cons_self
  have hlt : job.number < p.handles.length := (List.getElem?_eq_some_iff.1 (h.waiting job hmem)).1
  have hbefore : ∀ other ∈ p'.live, other ∈ p.live := fun other hother =>
    hlive.mem_iff.2 (List.mem_cons_of_mem job hother)
  constructor
  case handles => rw [hhandles, List.length_set, h.handles]
  case numbers =>
    refine List.Perm.trans ?_ h.numbers
    have hsame := (hlive.map Job.number).append_right (p.ran ++ p.dropped)
    refine ((hgone.append_left _).trans List.perm_middle).trans ?_
    exact hsame.symm
  case body => exact fun other hother => h.body other (hbefore other hother)
  case waiting =>
    intro other hother
    rw [hhandles, List.getElem?_set_ne (hothers other hother)]
    exact h.waiting other (hbefore other hother)
  case ran =>
    intro n hn
    rw [hhandles]
    obtain hn | ⟨rfl, rfl⟩ := hran n hn
    · rw [List.getElem?_set_ne (hnotRan n hn)]
      exact h.ran n hn
    · rw [List.getElem?_set_self hlt, h.body job hmem]
      rfl
  case dropped =>
    intro n hn
    rw [hhandles]
    obtain hn | ⟨rfl, rfl⟩ := hdropped n hn
    · rw [List.getElem?_set_ne (hnotDropped n hn)]
      exact h.dropped n hn
    · exact List.getElem?_set_self hlt

/-- **A step keeps the tasks accounted for**, with the body of the one that it makes. -/
theorem step (h : Accounted bodies p) (hstep : Step p a p') :
    Accounted (bodies ++ a.body?.toList) p' := by
  cases hstep.tasks with
  | moved hbody hlive hhandles hran hdropped =>
    rw [hbody, Option.toList_none, List.append_nil]
    constructor
    case handles => rw [hhandles, h.handles]
    case numbers =>
      rw [hran, hdropped]
      exact ((hlive.map Job.number).append_right _).trans h.numbers
    case body => exact fun job hjob => h.body job (hlive.mem_iff.1 hjob)
    case waiting =>
      intro job hjob
      rw [hhandles]
      exact h.waiting job (hlive.mem_iff.1 hjob)
    case ran => rw [hran, hhandles]; exact h.ran
    case dropped => rw [hdropped, hhandles]; exact h.dropped
  | made body hbody hlive hhandles hran hdropped =>
    rw [hbody]
    exact h.make hlive hhandles hran hdropped
  | ended job hbody hlive hhandles hran hdropped =>
    rw [hbody, Option.toList_none, List.append_nil]
    refine h.settle hlive hhandles ?_ (fun n hn => ?_) (fun n hn => .inl ?_)
    · rw [hran, hdropped, List.cons_append]
    · rw [hran] at hn
      obtain rfl | hn := List.mem_cons.1 hn
      · exact .inr ⟨rfl, rfl⟩
      · exact .inl hn
    · rwa [hdropped] at hn
  | dropped job hbody hlive hhandles hran hdropped =>
    rw [hbody, Option.toList_none, List.append_nil]
    refine h.settle hlive hhandles ?_ (fun n hn => .inl ?_) (fun n hn => ?_)
    · rw [hran, hdropped]
      exact List.perm_middle
    · rwa [hran] at hn
    · rw [hdropped] at hn
      obtain rfl | hn := List.mem_cons.1 hn
      · exact .inr ⟨rfl, rfl⟩
      · exact .inl hn

/-- What the handle of a task tells. -/
theorem handle_eq (h : Accounted bodies p) {n : Nat} {body : Body} (hbody : bodies[n]? = some body) :
    (p.handle n = .finished ↔ n ∈ p.ran ∧ body = .returns) ∧
      (p.handle n = .cancelled ↔ (n ∈ p.ran ∧ body = .fails) ∨ n ∈ p.dropped) := by
  have hnodup := h.nodup
  rw [List.nodup_append', List.nodup_append'] at hnodup
  obtain ⟨-, ⟨-, -, hdisjoint⟩, hlive⟩ := hnodup
  have hgetD : ∀ {handle}, p.handles[n]? = some handle → p.handle n = handle := fun heq => by
    rw [Pool.handle, List.getD_eq_getElem?_getD, heq, Option.getD_some]
  obtain hn | hn | hn := h.mem_iff.1 (List.getElem?_eq_some_iff.1 hbody).1
  · obtain ⟨job, hjob, rfl⟩ := List.mem_map.1 hn
    rw [hgetD (h.waiting job hjob)]
    have hnot : job.number ∉ p.ran ++ p.dropped := hlive hn
    rw [List.mem_append, not_or] at hnot
    simp [hnot]
  · have hnot : n ∉ p.dropped := hdisjoint hn
    rw [hgetD ((h.ran n hn).trans (by rw [hbody]; rfl))]
    cases body <;> simp [Body.handle, hn, hnot]
  · have hnot : n ∉ p.ran := fun hran => hdisjoint hran hn
    rw [hgetD (h.dropped n hn)]
    simp [hn, hnot]

end Accounted

/-- The bodies that some actions give to the tasks that they make. -/
theorem filterMap_body?_concat (before : List Action) (a : Action) :
    (before ++ [a]).filterMap Action.body? = before.filterMap Action.body? ++ a.body?.toList := by
  rw [List.filterMap_append]
  cases h : a.body? <;> simp [h]

/-- An action that makes a task is always enabled. -/
theorem body?_of_step_eq_none (h : p.step a = none) : a.body? = none := by
  cases a with
  | create body => cases h
  | _ => rfl

/-- What no new worker has, the workers of a new pool do not have. -/
theorem flatMap_ofSize {β : Type} (workers : Nat) (f : Worker → List β) (hf : f {} = []) :
    (ofSize workers).workers.flatMap f = [] := by
  refine List.flatMap_eq_nil_iff.2 fun w hw => ?_
  rw [List.eq_of_mem_replicate hw]
  exact hf

/-- **After any actions all tasks are accounted for.** -/
theorem accounted (workers : Nat) (actions : List Action) :
    Accounted (actions.filterMap Action.body?) ((ofSize workers).perform actions) := by
  refine perform_keeps (I := fun before p => Accounted (before.filterMap Action.body?) p) ?_ ?_ ?_
    actions
  · have hlive : (ofSize workers).live = [] := flatMap_ofSize workers Worker.jobs rfl
    constructor
    case handles => rfl
    case numbers => rw [hlive]; exact .rfl
    case body => rw [hlive]; exact nofun
    case waiting => rw [hlive]; exact nofun
    case ran => exact nofun
    case dropped => exact nofun
  · intro before a q h hstep
    rw [filterMap_body?_concat]
    exact h.step hstep
  · intro before a hskip h
    rw [filterMap_body?_concat, body?_of_step_eq_none hskip, Option.toList_none, List.append_nil]
    exact h

/-! ### The counters -/

/-- **What the counters say, task by task.** -/
structure Booked (p : Pool) : Prop where
  /-- No task is counted as spawned twice. -/
  nodup : (p.uncounted ++ p.counted).Nodup
  made : ∀ n ∈ p.uncounted ++ p.counted, n < p.handles.length
  /-- Of the tasks counted as spawned, those counted as completed are owed no more. -/
  counted : p.counted.Perm (p.owing ++ p.recorded)
  spawned : p.metrics.spawned = p.counted.length
  completed : p.metrics.completed = p.recorded.length

/-- A task is made by an action that has a body for it, and by no other. -/
theorem Step.length_handles (h : Step p a p') :
    p'.handles.length = p.handles.length + a.body?.toList.length := by
  cases h.tasks with
  | moved hbody _ hhandles => rw [hbody, hhandles]; rfl
  | made body hbody _ hhandles => rw [hbody, hhandles, List.length_append]; rfl
  | ended job hbody _ hhandles | dropped job hbody _ hhandles =>
    rw [hbody, hhandles, List.length_set]
    rfl

/-- The counters count what is noted. -/
theorem Step.tallies (h : Step p a p') (hspawned : p.metrics.spawned = p.counted.length)
    (hcompleted : p.metrics.completed = p.recorded.length) :
    p'.metrics.spawned = p'.counted.length ∧ p'.metrics.completed = p'.recorded.length := by
  cases h with
  | count => exact ⟨congrArg Nat.succ hspawned, hcompleted⟩
  | emptyCount | record | recordGivenUp => exact ⟨hspawned, congrArg Nat.succ hcompleted⟩
  | _ => exact ⟨hspawned, hcompleted⟩

namespace Booked

/-- The tasks that are counted or will be stay the same ones. -/
theorem of_perm (h : Booked p) (hstep : Step p a p')
    (hperm : (p.uncounted ++ p.counted).Perm (p'.uncounted ++ p'.counted)) :
    (p'.uncounted ++ p'.counted).Nodup ∧
      ∀ n ∈ p'.uncounted ++ p'.counted, n < p'.handles.length := by
  refine ⟨hperm.nodup_iff.1 h.nodup, fun n hn => ?_⟩
  rw [hstep.length_handles]
  exact Nat.lt_add_right _ (h.made n (hperm.mem_iff.2 hn))

/-- **A step keeps the books.** -/
theorem step (h : Booked p) (horderly : Orderly p) (hstep : Step p a p') : Booked p' := by
  obtain ⟨hspawned, hcompleted⟩ := hstep.tallies h.spawned h.completed
  cases hstep.books horderly with
  | same hbody huncounted howing hcounted hrecorded =>
    obtain ⟨hnodup, hmade⟩ := h.of_perm hstep (by
      rw [hcounted]
      exact huncounted.symm.append_right _)
    refine ⟨hnodup, hmade, ?_, hspawned, hcompleted⟩
    rw [hcounted, hrecorded]
    exact h.counted.trans (howing.symm.append_right _)
  | entered body hbody huncounted howing hcounted hrecorded =>
    have hperm : (p'.uncounted ++ p'.counted).Perm
        (p.handles.length :: (p.uncounted ++ p.counted)) := by
      rw [hcounted]
      exact huncounted.append_right _
    have hlength : p'.handles.length = p.handles.length + 1 := by
      rw [hstep.length_handles, hbody]
      rfl
    refine ⟨?_, fun n hn => ?_, ?_, hspawned, hcompleted⟩
    · rw [hperm.nodup_iff, List.nodup_cons]
      exact ⟨fun hmem => Nat.lt_irrefl _ (h.made _ hmem), h.nodup⟩
    · rw [hlength]
      obtain rfl | hn := List.mem_cons.1 (hperm.mem_iff.1 hn)
      · exact Nat.lt_succ_self _
      · exact Nat.lt_succ_of_lt (h.made n hn)
    · rw [hcounted, hrecorded]
      exact h.counted.trans (howing.symm.append_right _)
  | refused number hbody huncounted howing hcounted hrecorded =>
    have hperm : (p.uncounted ++ p.counted).Perm (number :: (p'.uncounted ++ p'.counted)) := by
      rw [hcounted]
      exact huncounted.append_right _
    have hnodup := hperm.nodup_iff.1 h.nodup
    refine ⟨(List.nodup_cons.1 hnodup).2, fun n hn => ?_, ?_, hspawned, hcompleted⟩
    · rw [hstep.length_handles]
      exact Nat.lt_add_right _ (h.made n (hperm.mem_iff.2 (List.mem_cons_of_mem number hn)))
    · rw [hcounted, hrecorded]
      exact h.counted.trans (howing.symm.append_right _)
  | counted number hbody huncounted howing hcounted hrecorded =>
    obtain ⟨hnodup, hmade⟩ := h.of_perm hstep (by
      rw [hcounted]
      exact (huncounted.append_right _).trans List.perm_middle.symm)
    refine ⟨hnodup, hmade, ?_, hspawned, hcompleted⟩
    rw [hcounted, hrecorded]
    exact (h.counted.cons number).trans (howing.symm.append_right _)
  | recorded number hbody huncounted howing hcounted hrecorded =>
    obtain ⟨hnodup, hmade⟩ := h.of_perm hstep (by
      rw [hcounted]
      exact huncounted.symm.append_right _)
    refine ⟨hnodup, hmade, ?_, hspawned, hcompleted⟩
    rw [hcounted, hrecorded]
    exact h.counted.trans ((howing.append_right _).trans List.perm_middle.symm)

/-- **No task is counted as completed twice**, and only tasks that are counted as spawned are. -/
theorem recorded_of_counted (h : Booked p) :
    p.recorded.Nodup ∧ p.recorded ⊆ p.counted ∧ p.metrics.completed ≤ p.metrics.spawned := by
  have hnodup : (p.owing ++ p.recorded).Nodup :=
    h.counted.nodup_iff.1 (List.nodup_append'.1 h.nodup).2.1
  refine ⟨(List.nodup_append'.1 hnodup).2.1, fun n hn => ?_, ?_⟩
  · exact h.counted.mem_iff.2 (List.mem_append_right _ hn)
  · rw [h.spawned, h.completed, h.counted.length_eq, List.length_append]
    exact Nat.le_add_left _ _

end Booked

/-- **After any actions the books are right.** -/
theorem booked (workers : Nat) (actions : List Action) :
    Booked ((ofSize workers).perform actions) := by
  refine (perform_keeps (I := fun _ p => Orderly p ∧ Booked p) ?_ ?_ ?_ actions).2
  · refine ⟨orderly workers [], List.nodup_nil, nofun, ?_, rfl, rfl⟩
    show [].Perm ((ofSize workers).workers.flatMap Worker.owing ++ [] ++ [])
    rw [flatMap_ofSize workers Worker.owing rfl]
    exact .rfl
  · intro before a q ⟨horderly, h⟩ hstep
    exact ⟨hstep.orderly horderly, h.step horderly hstep⟩
  · exact fun _ h => h

/-! ### Where a task is -/

/-- The tasks at a place. -/
def tasksAt (p : Pool) : Place → List Nat
  | .caller => p.spawns.map (·.job.number)
  | .common => p.queue.map Job.number
  | .own i => (p.workers[i]?.elim [] Worker.queue).map Job.number
  | .running i => (p.workers[i]?.elim [] (·.stage.jobs)).map Job.number
  | .ran => p.ran
  | .dropped => p.dropped

/-- The places of a pool, all of them. -/
def places (p : Pool) : List Place :=
  [.caller, .common] ++
    ((List.range p.workers.length).flatMap (fun i => [.running i, .own i]) ++ [.ran, .dropped])

/-- A list is gone through by its positions. -/
theorem flatMap_range_getElem? {α β : Type} (l : List α) (f : Option α → List β) :
    (List.range l.length).flatMap (fun i => f l[i]?) = l.flatMap fun x => f (some x) := by
  induction l with
  | nil => rfl
  | cons x l ih =>
    rw [List.length_cons, List.range_succ_eq_map, List.flatMap_cons, List.flatMap_map,
      List.flatMap_cons, ← ih]
    rfl

/-- **All places together have all tasks.** -/
theorem places_tasksAt (p : Pool) :
    p.places.flatMap p.tasksAt = p.live.map Job.number ++ (p.ran ++ p.dropped) := by
  have hcaller : (p.spawns.flatMap Spawn.jobs).map Job.number = p.tasksAt .caller := by
    rw [List.map_flatMap, tasksAt, List.map_eq_flatMap]
    rfl
  have hworkers : ((List.range p.workers.length).flatMap fun i => [Place.running i, .own i]).flatMap
      p.tasksAt = (p.workers.flatMap Worker.jobs).map Job.number := by
    rw [List.flatMap_assoc, List.map_flatMap]
    refine Eq.trans (List.flatMap_congr fun i _ => ?_)
      (flatMap_range_getElem? p.workers fun w => (w.elim [] Worker.jobs).map Job.number)
    cases h : p.workers[i]? with
    | none => simp [tasksAt, h]
    | some w => simp [tasksAt, h, Worker.jobs]
  rw [places, List.flatMap_append, List.flatMap_append, hworkers, live, List.map_append, hcaller,
    List.map_append]
  simp [tasksAt]

/-- Where a task is, is a place of the pool. -/
theorem mem_places {n : Nat} {place : Place} (hn : n ∈ p.tasksAt place) : place ∈ p.places := by
  have hworker : ∀ {β : Type} {i : Nat} {f : Worker → List β} {g : β → Nat},
      n ∈ (p.workers[i]?.elim [] f).map g → i ∈ List.range p.workers.length := by
    intro β i f g hmem
    rw [List.mem_range]
    by_contra hi
    rw [List.getElem?_eq_none (Nat.le_of_not_lt hi)] at hmem
    cases hmem
  cases place with
  | caller | common | ran | dropped => simp [places]
  | own i => simpa [places] using hworker hn
  | running i => simpa [places] using hworker hn

/-- **A task is in one place only.** -/
theorem Accounted.exists_unique_place (h : Accounted bodies p) {n : Nat} (hn : n < bodies.length) :
    ∃! place, n ∈ p.tasksAt place := by
  have hnodup := h.nodup
  rw [← places_tasksAt, List.nodup_flatMap] at hnodup
  obtain ⟨-, hdisjoint⟩ := hnodup
  have hmem : n ∈ p.places.flatMap p.tasksAt := by
    rw [places_tasksAt, h.numbers.mem_iff]
    exact List.mem_range.2 hn
  obtain ⟨place, hplace, hat⟩ := List.mem_flatMap.1 hmem
  refine ⟨place, hat, fun other hother => ?_⟩
  by_contra hne
  have hsymm : Std.Symm (Function.onFun List.Disjoint p.tasksAt) :=
    ⟨fun _ _ hd _ hother hplace => hd hplace hother⟩
  have hapart : List.Disjoint (p.tasksAt other) (p.tasksAt place) :=
    hdisjoint.forall (mem_places hother) hplace hne
  exact hapart hother hat

/-- A task is not twice at a place. -/
theorem Accounted.nodup_tasksAt (h : Accounted bodies p) (place : Place) :
    (p.tasksAt place).Nodup := by
  have hnodup := h.nodup
  rw [← places_tasksAt, List.nodup_flatMap] at hnodup
  by_cases hplace : place ∈ p.places
  · exact hnodup.1 place hplace
  · have hempty : p.tasksAt place = [] :=
      List.eq_nil_iff_forall_not_mem.2 fun n hn => hplace (mem_places hn)
    rw [hempty]
    exact List.nodup_nil

/-! ### The accounts -/

/-- Actions one after the other. -/
theorem perform_append (p : Pool) (before after : List Action) :
    p.perform (before ++ after) = (p.perform before).perform after :=
  List.foldl_append

/-- **What has run or was dropped stays so.** -/
theorem suffix_perform (p : Pool) (more : List Action) :
    p.ran <:+ (p.perform more).ran ∧ p.dropped <:+ (p.perform more).dropped := by
  refine perform_keeps (I := fun _ q => p.ran <:+ q.ran ∧ p.dropped <:+ q.dropped)
    ⟨List.suffix_rfl, List.suffix_rfl⟩ ?_ (fun _ h => h) more
  intro before a q ⟨hran, hdropped⟩ hstep
  cases hstep.tasks with
  | moved _ _ _ hran' hdropped' | made _ _ _ _ hran' hdropped' =>
    rw [hran', hdropped']
    exact ⟨hran, hdropped⟩
  | ended job _ _ _ hran' hdropped' =>
    rw [hran', hdropped']
    exact ⟨hran.trans (List.suffix_cons _ _), hdropped⟩
  | dropped job _ _ _ hran' hdropped' =>
    rw [hran', hdropped']
    exact ⟨hran, hdropped.trans (List.suffix_cons _ _)⟩

/-- A worker counts that a task has failed, if it has, and that it is completed. -/
theorem perform_record {i number : Nat} {failed : Bool} {queue : List Job}
    (hw : p.workers[i]? = some ⟨.ended number failed, queue⟩) :
    (p.perform [.record i, .record i]).workers[i]? = some ⟨.atTop, queue⟩ := by
  have hdone : ∀ {q : Pool}, q.workers[i]? = some ⟨.ended number false, queue⟩ →
      ∃ q', q.step (.record i) = some q' ∧ q'.workers[i]? = some ⟨.atTop, queue⟩ := by
    intro q hq
    refine ⟨(q.setWorker i ⟨.atTop, queue⟩).complete number, ?_, getElem?_setWorker hq _⟩
    rw [step, hq]
    rfl
  have hidle : ∀ {q : Pool}, q.workers[i]? = some ⟨.atTop, queue⟩ → q.step (.record i) = none := by
    intro q hq
    rw [step, hq]
    rfl
  cases failed with
  | true =>
    have hfail : p.step (.record i) = some
        { p.setWorker i ⟨.ended number false, queue⟩ with metrics := p.metrics.fail } := by
      rw [step, hw]
      rfl
    obtain ⟨q, hstep, hq⟩ := hdone (q :=
      { p.setWorker i ⟨.ended number false, queue⟩ with metrics := p.metrics.fail })
      (getElem?_setWorker hw _)
    rw [perform, List.foldl_cons, hfail, List.foldl_cons, Option.getD_some, hstep]
    exact hq
  | false =>
    obtain ⟨q, hstep, hq⟩ := hdone hw
    rw [perform, List.foldl_cons, hstep, List.foldl_cons, Option.getD_some, hidle hq]
    exact hq

/-- **A worker goes on after a task**, however the body of the task ends. -/
theorem perform_finish {i : Nat} {job : Job} {queue : List Job}
    (hw : p.workers[i]? = some ⟨.running job, queue⟩) :
    (p.perform [.finish i, .record i, .record i]).workers[i]? = some ⟨.atTop, queue⟩ := by
  have hfinish : p.step (.finish i) = some
      ((p.setWorker i ⟨.ended job.number (job.body = .fails), queue⟩).finishJob job) := by
    rw [step, hw]
    rfl
  rw [perform, List.foldl_cons, hfinish]
  exact perform_record (getElem?_setWorker hw _)

/-- **Every task is accounted for once.**  Callers add tasks and close the pool, and workers take tasks,
run and count them, in any order.  Then every task is in one place, and only once.  Later actions never
run a task again that has run, nor one that was dropped.  The handle tells that a task has finished if
its body was run and returned, and that it was cancelled if its body was run and failed or if it was
dropped, and only then.  A worker goes on after a task whatever its body did, and leaves its loop only
when the pool is closed.  And no more tasks are counted as completed than as spawned, none of them
twice. -/
theorem accounted_once (workers : Nat) (actions : List Action) :
    let p := (ofSize workers).perform actions
    let bodies := actions.filterMap Action.body?
    (∀ place, (p.tasksAt place).Nodup) ∧
      (∀ n < bodies.length, ∃! place, n ∈ p.tasksAt place) ∧
      (∀ more, let q := p.perform more
        q.ran.Nodup ∧ (∀ n ∈ p.ran, n ∈ q.ran ∧ ∀ i, n ∉ q.tasksAt (.running i)) ∧
          ∀ n ∈ p.dropped, n ∈ q.dropped ∧ n ∉ q.ran ∧ ∀ i, n ∉ q.tasksAt (.running i)) ∧
      (∀ n body, bodies[n]? = some body →
        (p.handle n = .finished ↔ n ∈ p.ran ∧ body = .returns) ∧
          (p.handle n = .cancelled ↔ (n ∈ p.ran ∧ body = .fails) ∨ n ∈ p.dropped)) ∧
      (∀ i job queue, p.workers[i]? = some ⟨.running job, queue⟩ →
        (p.perform [.finish i, .record i, .record i]).workers[i]? = some ⟨.atTop, queue⟩) ∧
      (p.closed = false → ∀ w ∈ p.workers, w.stage.inLoop) ∧
      p.metrics.spawned = p.counted.length ∧ p.metrics.completed = p.recorded.length ∧
      p.recorded.Nodup ∧ p.recorded ⊆ p.counted ∧ p.metrics.completed ≤ p.metrics.spawned := by
  intro p bodies
  have haccounted : Accounted bodies p := accounted workers actions
  have hbooked : Booked p := booked workers actions
  refine ⟨haccounted.nodup_tasksAt, fun n hn => haccounted.exists_unique_place hn, fun more => ?_,
    fun n body hbody => haccounted.handle_eq hbody, fun i job queue hw => perform_finish hw,
    (orderly workers actions).inLoop, hbooked.spawned, hbooked.completed,
    hbooked.recorded_of_counted⟩
  intro q
  obtain ⟨hran, hdropped⟩ := suffix_perform p more
  have hlater : Accounted ((actions ++ more).filterMap Action.body?) q := by
    have h := accounted workers (actions ++ more)
    rwa [perform_append] at h
  have hapart : ∀ {n : Nat} (place other : Place), n ∈ q.tasksAt place → n ∈ q.tasksAt other →
      place = other := by
    intro n place other hplace hother
    have hn : n < ((actions ++ more).filterMap Action.body?).length := by
      rw [← List.mem_range, ← hlater.numbers.mem_iff, ← places_tasksAt]
      exact List.mem_flatMap.2 ⟨place, mem_places hplace, hplace⟩
    exact (hlater.exists_unique_place hn).unique hplace hother
  refine ⟨hlater.nodup_tasksAt .ran, fun n hn => ⟨hran.subset hn, fun i hi => ?_⟩,
    fun n hn => ⟨hdropped.subset hn, fun hr => ?_, fun i hi => ?_⟩⟩
  · cases hapart (.running i) .ran hi (hran.subset hn)
  · cases hapart .ran .dropped hr (hdropped.subset hn)
  · cases hapart (.running i) .dropped hi (hdropped.subset hn)

end Pool
end JsonFilter.Task
