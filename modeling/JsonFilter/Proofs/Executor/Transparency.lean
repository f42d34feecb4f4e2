import JsonFilter.Proofs.Executor.Evaluations
import Mathlib.Algebra.GroupWithZero.Nat

/-!
# The cache is transparent

Requests that share an executor compile, insert, lose races, wait for locks and find entries that
others have left, while the cache is swept, cleared and resized.  This file shows that none of this can
be seen from the answers.

## The invariant of a service

`Service.Faithful` is what the steps of evaluations keep (`Request.advance_keeps`), for all requests of
a service at once: the leases outside are those of all stages together (`holdingsOf`).

## Progress

A request that waits for a lock cannot go on by itself.  But the one that holds the lock can, so that
there is always something to do until all requests are finished (`exists_ready`), and every round in
which each request gets a turn leaves less to do (`round_work`).

* **`cache_is_transparent`** — every answer is that of a fresh evaluation, and every request gets one.
-/

namespace JsonFilter

open Cache
open Json (Value)

variable {P : Type}

namespace Service

/-! ### The invariant -/

/-- The leases in the hands of the evaluations. -/
def holdingsOf (calls : List (Call P)) : List (Holding FilterKey) :=
  calls.filterMap fun call => call.stage.holding?

/-- **A faithful service**: what its evaluations rely on holds for all of them together. -/
structure Faithful (w : Service P) : Prop where
  sound : Sound w.executor.cache (holdingsOf w.calls)
  fills : w.executor.engine.Fills w.executor.cache
  fits : ∀ call ∈ w.calls, call.stage.Fits w.executor.engine call.request
    (w.executor.budget call.request.terms)

/-- One of the evaluations and the others. -/
theorem holdingsOf_perm (before after : List (Call P)) (call : Call P) :
    (holdingsOf (before ++ call :: after)).Perm
      (call.stage.holding?.toList ++ holdingsOf (before ++ after)) := by
  have hcons : holdingsOf (call :: after) = call.stage.holding?.toList ++ holdingsOf after := by
    unfold holdingsOf
    rw [List.filterMap_cons]
    cases call.stage.holding? <;> rfl
  have happend : ∀ calls : List (Call P),
      holdingsOf (before ++ calls) = holdingsOf before ++ holdingsOf calls := fun calls =>
    List.filterMap_append
  rw [happend, happend, hcons, ← List.append_assoc, ← List.append_assoc]
  exact List.perm_append_comm.append_right _

variable {w : Service P}

/-- A turn of a request changes its stage and nothing about the others. -/
theorem step_advance_cases (w : Service P) (i : Nat) :
    w.calls.length ≤ i ∧ w.step (.advance i) = w ∨
      ∃ before call after, w.calls = before ++ call :: after ∧ before.length = i ∧
        w.step (.advance i) = ⟨(call.request.advance w.executor call.stage).1,
          before ++ ⟨call.request, (call.request.advance w.executor call.stage).2⟩ :: after⟩ := by
  dsimp only [step]
  cases hcall : w.calls[i]? with
  | none => exact .inl ⟨List.getElem?_eq_none_iff.1 hcall, rfl⟩
  | some call =>
    obtain ⟨hi, hget⟩ := List.getElem?_eq_some_iff.1 hcall
    refine .inr ⟨w.calls.take i, call, w.calls.drop (i + 1), ?_, ?_, ?_⟩
    · rw [← hget, List.getElem_cons_drop, List.take_append_drop]
    · exact List.length_take_of_le (Nat.le_of_lt hi)
    · dsimp only
      rw [List.set_eq_take_append_cons_drop, if_pos hi]

/-- No move changes the engine, the settings or what was asked. -/
theorem step_frame (w : Service P) (move : Move) :
    (w.step move).executor.engine = w.executor.engine ∧
      (w.step move).executor.config = w.executor.config ∧
      (w.step move).calls.map Call.request = w.calls.map Call.request := by
  cases move with
  | advance i =>
    rcases step_advance_cases w i with ⟨-, hstep⟩ | ⟨before, call, after, hcalls, -, hstep⟩
    · rw [hstep]
      exact ⟨rfl, rfl, rfl⟩
    · obtain ⟨hengine, hconfig⟩ := call.request.advance_frame w.executor call.stage
      rw [hstep]
      refine ⟨hengine, hconfig, ?_⟩
      rw [hcalls, List.map_append, List.map_append]
      rfl
  | evict => exact ⟨rfl, rfl, rfl⟩
  | clear => exact ⟨rfl, rfl, rfl⟩
  | setCapacity requested =>
    dsimp only [step]
    rcases Executor.setCapacity_cases requested w.executor with hsame | ⟨_, _, -, hresized⟩
    · rw [hsame]
      exact ⟨rfl, rfl, rfl⟩
    · rw [hresized]
      exact ⟨rfl, rfl, rfl⟩

theorem run_frame (w : Service P) (moves : List Move) :
    (w.run moves).executor.engine = w.executor.engine ∧
      (w.run moves).executor.config = w.executor.config ∧
      (w.run moves).calls.map Call.request = w.calls.map Call.request := by
  induction moves generalizing w with
  | nil => exact ⟨rfl, rfl, rfl⟩
  | cons move moves ih =>
    obtain ⟨hengine, hconfig, hrequests⟩ := w.step_frame move
    obtain ⟨hengine', hconfig', hrequests'⟩ := ih (w.step move)
    exact ⟨hengine'.trans hengine, hconfig'.trans hconfig, hrequests'.trans hrequests⟩

/-- What retires idle slots keeps a service faithful. -/
theorem Faithful.retire (h : w.Faithful) {c' : ProgramCache FilterKey P}
    {gone : List (Slot FilterKey P)} (hr : w.executor.cache.Retires gone c') :
    Faithful { w with executor := { w.executor with cache := c' } } :=
  ⟨h.sound.retire hr, h.fills.retires hr, h.fits⟩

/-- **Every move keeps a service faithful.** -/
theorem step_faithful (hsteady : w.executor.engine.Steady) (h : w.Faithful) (move : Move) :
    (w.step move).Faithful := by
  cases move with
  | advance i =>
    rcases step_advance_cases w i with ⟨-, hstep⟩ | ⟨before, call, after, hcalls, -, hstep⟩
    · rw [hstep]
      exact h
    · have hmem : call ∈ w.calls := by
        rw [hcalls]
        exact List.mem_append_right _ List.mem_cons_self
      have hothers : ∀ other ∈ before ++ after, other ∈ w.calls := by
        intro other hother
        rw [hcalls]
        exact List.mem_append.2 ((List.mem_append.1 hother).imp_right (List.mem_cons_of_mem _))
      have hsound := h.sound
      rw [hcalls] at hsound
      obtain ⟨hsound', hfills, hfits⟩ := Request.advance_keeps hsteady
        (hsound.perm (holdingsOf_perm before after call)) h.fills (h.fits call hmem)
      obtain ⟨hengine, hconfig⟩ := call.request.advance_frame w.executor call.stage
      rw [hstep]
      refine ⟨hsound'.perm (holdingsOf_perm before after ⟨_, _⟩).symm, ?_, ?_⟩
      · rw [hengine]
        exact hfills
      · intro other hother
        show other.stage.Fits (call.request.advance w.executor call.stage).1.engine _ _
        rw [hengine, Executor.budget_congr hconfig]
        rcases List.mem_append.1 hother with hbefore | hafter
        · exact h.fits other (hothers other (List.mem_append_left _ hbefore))
        · rcases List.mem_cons.1 hafter with rfl | hafter
          · exact hfits
          · exact h.fits other (hothers other (List.mem_append_right _ hafter))
  | evict =>
    obtain ⟨gone, hr⟩ := ProgramCache.evict_retires h.sound.consistent
    exact h.retire hr
  | clear =>
    obtain ⟨gone, hr⟩ := ProgramCache.clear_retires h.sound.consistent
    exact h.retire hr
  | setCapacity requested =>
    dsimp only [step]
    rcases Executor.setCapacity_cases requested w.executor with
      hsame | ⟨capacity, resized, hok, hresized⟩
    · rw [hsame]
      exact h
    · rw [hresized]
      rcases ProgramCache.resize_cases h.sound.consistent capacity with ⟨e, he⟩ | ⟨gone, c₁, hc₁, hr⟩
      · rw [he] at hok
        cases hok
      · rw [hc₁] at hok
        cases hok
        exact h.retire hr

/-- **Every run keeps a service faithful.** -/
theorem run_faithful (hsteady : w.executor.engine.Steady) (h : w.Faithful) (moves : List Move) :
    (w.run moves).Faithful := by
  induction moves generalizing w with
  | nil => exact h
  | cons move moves ih =>
    refine ih ?_ (step_faithful hsteady h move)
    rw [(w.step_frame move).1]
    exact hsteady

/-- A service starts faithful, with whatever cache is empty. -/
theorem start_faithful {x : Executor P} {capacity : Nat} {policy : SweepPolicy}
    (hcache : x.cache = .empty capacity policy) (requests : List Request) :
    (start x requests).Faithful := by
  have hidle : holdingsOf (start x requests).calls = [] := by
    unfold holdingsOf start
    rw [List.filterMap_map]
    exact List.filterMap_eq_nil_iff.2 fun _ _ => rfl
  refine ⟨?_, ?_, ?_⟩
  · rw [hidle]
    show Sound x.cache []
    rw [hcache]
    exact Sound.empty capacity policy
  · show x.engine.Fills x.cache
    rw [hcache]
    exact Engine.Fills.empty x.engine capacity policy
  · intro call hcall
    obtain ⟨r, -, rfl⟩ := List.mem_map.1 hcall
    trivial

/-! ### Progress -/

/-- How many steps are left for all requests together. -/
def work (w : Service P) : Nat := (w.calls.map fun call => call.stage.work).sum

theorem work_congr {w' : Service P} (h : w'.calls = w.calls) : w'.work = w.work := by
  unfold work
  rw [h]

/-- A request can take its next step at once. -/
def Ready (calls : List (Call P)) (i : Nat) : Prop :=
  ∃ before call after, calls = before ++ call :: after ∧ before.length = i ∧
    ¬call.stage.Idle (holdingsOf (before ++ after))

/-- A turn either leaves all stages as they are, or it leaves less to do; the latter if the request is
ready. -/
theorem step_advance_work (h : w.Faithful) (i : Nat) :
    (w.step (.advance i)).calls = w.calls ∧ ¬Ready w.calls i ∨
      (w.step (.advance i)).work < w.work := by
  rcases step_advance_cases w i with ⟨hi, hstep⟩ | ⟨before, call, after, hcalls, hi, hstep⟩
  · refine .inl ⟨by rw [hstep], ?_⟩
    rintro ⟨before, call, after, hcalls, rfl, -⟩
    rw [hcalls, List.length_append, List.length_cons] at hi
    omega
  · have hsound := h.sound
    rw [hcalls] at hsound
    rcases Request.advance_work (r := call.request) (hsound.perm (holdingsOf_perm before after call))
      with ⟨hidle, hstage⟩ | hless
    · refine .inl ⟨?_, ?_⟩
      · rw [hstep, hcalls, hstage]
      · rintro ⟨before', call', after', hcalls', hi', hready⟩
        obtain ⟨rfl, hrest⟩ := List.append_inj (hcalls.symm.trans hcalls') (hi.trans hi'.symm)
        obtain ⟨rfl, rfl⟩ := List.cons.inj hrest
        exact hready hidle
    · right
      unfold work
      rw [hstep, hcalls]
      simp only [List.map_append, List.map_cons, List.sum_append, List.sum_cons]
      omega

/-- **A move leaves all stages as they are, or it leaves less to do.** -/
theorem step_work (h : w.Faithful) (move : Move) :
    (w.step move).calls = w.calls ∨ (w.step move).work < w.work := by
  cases move with
  | advance i => exact (step_advance_work h i).imp_left And.left
  | evict => exact .inl rfl
  | clear => exact .inl rfl
  | setCapacity requested => exact .inl rfl

/-- There is never more to do. -/
theorem run_work_le (hsteady : w.executor.engine.Steady) (h : w.Faithful) (moves : List Move) :
    (w.run moves).work ≤ w.work := by
  induction moves generalizing w with
  | nil => exact Nat.le_refl _
  | cons move moves ih =>
    have hrest : ((w.step move).run moves).work ≤ (w.step move).work :=
      ih (by rw [(w.step_frame move).1]; exact hsteady) (step_faithful hsteady h move)
    refine Nat.le_trans hrest ?_
    rcases step_work h move with hsame | hless
    · exact Nat.le_of_eq (work_congr hsame)
    · exact Nat.le_of_lt hless

/-- The one that drives a program can always go on. -/
theorem not_idle_of_driving {stage : Stage P} {holding : Holding FilterKey}
    (h : stage.holding? = some holding) (hdriving : holding.driving = true)
    (others : List (Holding FilterKey)) : ¬stage.Idle others := by
  cases stage with
  | waiting lease =>
    cases h
    cases hdriving
  | finished answer => cases h
  | _ => exact id

/-- **There is always a way on**: some request is ready unless all are finished. -/
theorem exists_ready (h : 0 < w.work) : ∃ i < w.calls.length, Ready w.calls i := by
  have hsplit : ∀ call ∈ w.calls, (∀ others, ¬call.stage.Idle others) →
      ∃ i < w.calls.length, Ready w.calls i := by
    intro call hcall hready
    obtain ⟨before, after, hcalls⟩ := List.append_of_mem hcall
    refine ⟨before.length, ?_, before, call, after, hcalls, rfl, hready _⟩
    rw [hcalls, List.length_append, List.length_cons]
    omega
  obtain ⟨steps, hsteps, hpos⟩ := List.sum_pos_iff_exists_pos_nat.1 h
  obtain ⟨call, hcall, rfl⟩ := List.mem_map.1 hsteps
  obtain ⟨before, after, hcalls⟩ := List.append_of_mem hcall
  by_cases hidle : call.stage.Idle (holdingsOf (before ++ after))
  · -- it waits for a lock, and the one that has the lock can go on
    cases hstage : call.stage with
    | waiting lease =>
      rw [hstage] at hidle
      obtain ⟨holding, hholding, -⟩ := List.mem_map.1 hidle
      obtain ⟨hmem, hdriving⟩ := List.mem_filter.1 hholding
      obtain ⟨other, hother, hsome⟩ := List.mem_filterMap.1 hmem
      refine hsplit other ?_ (not_idle_of_driving hsome hdriving)
      rw [hcalls]
      exact List.mem_append.2 ((List.mem_append.1 hother).imp_right (List.mem_cons_of_mem _))
    | finished answer =>
      rw [hstage] at hpos
      exact absurd hpos (Nat.lt_irrefl 0)
    | _ =>
      rw [hstage] at hidle
      exact hidle.elim
  · refine ⟨before.length, ?_, before, call, after, hcalls, rfl, hidle⟩
    rw [hcalls, List.length_append, List.length_cons]
    omega

/-- **A turn of a ready request** leaves less to do, however many moves come before it. -/
theorem run_work_lt (hsteady : w.executor.engine.Steady) (h : w.Faithful) {i : Nat}
    (hready : Ready w.calls i) {moves : List Move} (hmem : .advance i ∈ moves) :
    (w.run moves).work < w.work := by
  induction moves generalizing w with
  | nil => exact absurd hmem List.not_mem_nil
  | cons move moves ih =>
    have hsteady' : (w.step move).executor.engine.Steady := by
      rw [(w.step_frame move).1]
      exact hsteady
    have h' : (w.step move).Faithful := step_faithful hsteady h move
    have hrest : ((w.step move).run moves).work ≤ (w.step move).work := run_work_le hsteady' h' moves
    show ((w.step move).run moves).work < w.work
    rcases List.mem_cons.1 hmem with heq | hmem
    · subst heq
      rcases step_advance_work h i with ⟨-, hnot⟩ | hless
      · exact absurd hready hnot
      · exact Nat.lt_of_le_of_lt hrest hless
    · rcases step_work h move with hsame | hless
      · have hlater := ih hsteady' h' (by rw [hsame]; exact hready) hmem
        rw [work_congr hsame] at hlater
        exact hlater
      · exact Nat.lt_of_le_of_lt hrest hless

/-- **Enough rounds finish all requests.** -/
theorem rounds_finish (hsteady : w.executor.engine.Steady) (h : w.Faithful)
    (rounds : List (List Move))
    (hturns : ∀ round ∈ rounds, ∀ i < w.calls.length, .advance i ∈ round)
    (henough : w.work ≤ rounds.length) :
    (w.run rounds.flatten).work = 0 := by
  induction rounds generalizing w with
  | nil => exact Nat.le_zero.1 henough
  | cons round rounds ih =>
    have hrun : w.run (round :: rounds).flatten = (w.run round).run rounds.flatten := by
      unfold run
      rw [List.flatten_cons, List.foldl_append]
    obtain ⟨hengine, -, hrequests⟩ := w.run_frame round
    have hlength : (w.run round).calls.length = w.calls.length := by
      have hmapped := congrArg List.length hrequests
      rwa [List.length_map, List.length_map] at hmapped
    rw [hrun]
    refine ih (by rw [hengine]; exact hsteady) (run_faithful hsteady h round) ?_ ?_
    · intro round' hround' i hi
      rw [hlength] at hi
      exact hturns round' (List.mem_cons_of_mem _ hround') i hi
    · rw [List.length_cons] at henough
      rcases Nat.eq_zero_or_pos w.work with hzero | hpos
      · have hle := run_work_le hsteady h round
        omega
      · obtain ⟨i, hi, hready⟩ := exists_ready hpos
        have hless := run_work_lt hsteady h hready (hturns round List.mem_cons_self i hi)
        omega

/-! ### Answers -/

theorem work_start (x : Executor P) (requests : List Request) :
    (start x requests).work = 9 * requests.length := by
  unfold work start
  induction requests with
  | nil => rfl
  | cons r requests ih =>
    rw [List.map_cons, List.map_cons, List.sum_cons, ih, List.length_cons]
    show 9 + 9 * requests.length = _
    omega

theorem run_append (w : Service P) (moves moves' : List Move) :
    w.run (moves ++ moves') = (w.run moves).run moves' :=
  List.foldl_append

/-- The calls stand in the order of the requests. -/
theorem calls_run_requests (x : Executor P) (requests : List Request) (moves : List Move) :
    ((start x requests).run moves).calls.map Call.request = requests := by
  rw [((start x requests).run_frame moves).2.2]
  unfold start
  rw [List.map_map]
  exact List.map_id requests

theorem exists_stage (x : Executor P) {requests : List Request} (moves : List Move) {i : Nat}
    {r : Request} (hi : requests[i]? = some r) :
    ∃ stage, ((start x requests).run moves).calls[i]? = some ⟨r, stage⟩ := by
  rw [← calls_run_requests x requests moves, List.getElem?_map] at hi
  obtain ⟨call, hcall, rfl⟩ := Option.map_eq_some_iff.1 hi
  exact ⟨call.stage, hcall⟩

section Answers

variable {x : Executor P} {capacity : Nat} {policy : SweepPolicy}

/-- **Every answer is that of a fresh evaluation,** for any engine whose programs are as good after a
run as before. -/
theorem answer_eq_fresh (hsteady : x.engine.Steady) (hcache : x.cache = .empty capacity policy)
    {requests : List Request} {moves : List Move} {r : Request} {answer : Answer}
    (hcall : ⟨r, .finished answer⟩ ∈ ((start x requests).run moves).calls) :
    answer = x.engine.fresh r.json r.key (x.budget r.terms) := by
  obtain ⟨hengine, hconfig, -⟩ := (start x requests).run_frame moves
  have hfits := (run_faithful hsteady (start_faithful hcache requests) moves).fits _ hcall
  rw [hengine, Executor.budget_congr hconfig] at hfits
  exact hfits

/-- **Every request gets its answer** after enough rounds, whatever was done before. -/
theorem answered_after_rounds (hsteady : x.engine.Steady) (hcache : x.cache = .empty capacity policy)
    {requests : List Request} (moves : List Move) {rounds : List (List Move)}
    (hturns : ∀ round ∈ rounds, ∀ i < requests.length, .advance i ∈ round)
    (henough : 9 * requests.length ≤ rounds.length) {i : Nat} {r : Request}
    (hi : requests[i]? = some r) :
    (((start x requests).run moves).run rounds.flatten).calls[i]? =
      some ⟨r, .finished (x.engine.fresh r.json r.key (x.budget r.terms))⟩ := by
  have hfaithful := start_faithful hcache requests
  have hlength : ((start x requests).run moves).calls.length = requests.length := by
    rw [← List.length_map Call.request, calls_run_requests]
  have hwork : ((start x requests).run moves).work ≤ 9 * requests.length := by
    rw [← work_start x requests]
    exact run_work_le hsteady hfaithful moves
  have hzero : (((start x requests).run moves).run rounds.flatten).work = 0 := by
    refine rounds_finish ?_ (run_faithful hsteady hfaithful moves) rounds ?_
      (Nat.le_trans hwork henough)
    · rw [((start x requests).run_frame moves).1]
      exact hsteady
    · rw [hlength]
      exact hturns
  rw [← run_append] at hzero ⊢
  obtain ⟨stage, hcall⟩ := exists_stage x (moves ++ rounds.flatten) hi
  have hmem := List.mem_of_getElem? hcall
  obtain ⟨answer, rfl⟩ := Stage.eq_finished_of_work_eq_zero
    (List.sum_eq_zero_iff_forall_eq_nat.1 hzero _ (List.mem_map_of_mem hmem))
  rw [hcall, answer_eq_fresh hsteady hcache hmem]

end Answers

end Service

/-! ### Filters -/

/-- **The answer of a fresh evaluation** of a filter without a time budget: its key is compiled first,
then the input is read, and then the run gives its first value. -/
def CompiledFilter.evaluateFresh (environment : Value) (json : String) (key : FilterKey) : Evaluation :=
  match compile environment key with
  | .error e => .error (.compile e)
  | .ok f =>
    match Value.ofText json with
    | .error e => .error (.invalidInput e)
    | .ok input => ((f.run input).firstValue .unlimited).mapError (.ofRun none)

open CompiledFilter (evaluateFresh)

theorem Engine.fresh_filters (environment : Value) (json : String) (key : FilterKey) :
    (Engine.filters environment).fresh json key none = .ok (evaluateFresh environment json key) := by
  have hcompile : (Engine.filters environment).compile key =
      CompiledFilter.compile environment key := rfl
  unfold Engine.fresh CompiledFilter.evaluateFresh
  rw [hcompile]
  cases CompiledFilter.compile environment key with
  | error e => rfl
  | ok f => cases Value.ofText json <;> rfl

/-- An executor begins with the engine that it is given and with an empty cache. -/
theorem Executor.create_eq_ok {engine : Engine P} {config : Config} {x : Executor P}
    (h : Executor.create engine config = .ok x) :
    x.engine = engine ∧ ∃ capacity policy, x.cache = .empty capacity policy := by
  unfold Executor.create at h
  cases hvalid : config.validate with
  | error e =>
    rw [hvalid] at h
    cases h
  | ok valid =>
    rw [hvalid] at h
    cases h
    exact ⟨rfl, _, _, rfl⟩

/-- An evaluation that begins and ends while nobody drives a program gives the answer that needs no cache,
on an executor in use. -/
theorem Executor.run_evaluate_fst {engine : Engine P} (hsteady : engine.Steady) {config : Config}
    {x : Executor P} (hx : create engine config = .ok x) (requests : List Request) (moves : List Move)
    (hfree : drivenOf (Service.holdingsOf ((Service.start x requests).run moves).calls) = [])
    (r : Request) :
    ((evaluate r.json r.filter r.terms).run.run ((Service.start x requests).run moves).executor).1 =
      engine.fresh r.json r.key (x.budget r.terms) := by
  obtain ⟨hengine, capacity, policy, hcache⟩ := create_eq_ok hx
  have hfaithful := Service.run_faithful (hengine ▸ hsteady) (Service.start_faithful hcache requests) moves
  obtain ⟨hsame, hconfig, -⟩ := (Service.start x requests).run_frame moves
  have hsame' : ((Service.start x requests).run moves).executor.engine = engine := hsame.trans hengine
  have hanswer := Request.evaluate_fst (hsame' ▸ hsteady) hfree hfaithful.sound hfaithful.fills r
  rw [hanswer, hsame', budget_congr hconfig]
  rfl

/-- **The cache is transparent.**  Requests without a time budget share an executor for filters with
others, and steps of all of them come in any order, with sweeps, clearings and changes of the capacity
in between.  Then a request that is finished has the answer of a fresh evaluation of its own key on its
own input: a filter that does not compile is reported as such whatever the input is, then an input that
cannot be read, and a run without a value gives none.  Every request is finished after enough rounds in
which each of them gets a turn.  And an evaluation that begins and ends while nobody drives a program
has that answer, too. -/
theorem cache_is_transparent (environment : Value) {config : Config} {x : Executor CompiledFilter}
    (hx : Executor.create (.filters environment) config = .ok x) (requests : List Request)
    (moves : List Move) :
    let w := (Service.start x requests).run moves
    (∀ (i : Nat) (r : Request), requests[i]? = some r → x.budget r.terms = none →
      ∃ stage, w.calls[i]? = some ⟨r, stage⟩ ∧ ∀ answer, stage.answer? = some answer →
        answer = .ok (evaluateFresh environment r.json r.key) ∧
        (∀ e, CompiledFilter.compile environment r.key = .error e →
          answer = .ok (.error (.compile e))) ∧
        (∀ f e, CompiledFilter.compile environment r.key = .ok f → Value.ofText r.json = .error e →
          answer = .ok (.error (.invalidInput e))) ∧
        (∀ f input, CompiledFilter.compile environment r.key = .ok f →
          Value.ofText r.json = .ok input → (f.run input).firstValue .unlimited = .ok none →
            answer = .ok (.ok none))) ∧
      (∀ rounds : List (List Move),
        (∀ round ∈ rounds, ∀ i < requests.length, .advance i ∈ round) →
        9 * requests.length ≤ rounds.length →
        ∀ (i : Nat) (r : Request), requests[i]? = some r → x.budget r.terms = none →
          (w.run rounds.flatten).calls[i]? =
            some ⟨r, .finished (.ok (evaluateFresh environment r.json r.key))⟩) ∧
      (∀ r : Request, x.budget r.terms = none → drivenOf (Service.holdingsOf w.calls) = [] →
        ((Executor.evaluate r.json r.filter r.terms).run.run w.executor).1 =
          .ok (evaluateFresh environment r.json r.key)) := by
  intro w
  obtain ⟨hengine, capacity, policy, hcache⟩ := Executor.create_eq_ok hx
  have hsteady : x.engine.Steady := by
    rw [hengine]
    exact Engine.filters_steady environment
  have hfresh : ∀ r : Request, x.budget r.terms = none →
      x.engine.fresh r.json r.key (x.budget r.terms) =
        .ok (evaluateFresh environment r.json r.key) := by
    intro r hbudget
    rw [hbudget, hengine, Engine.fresh_filters]
  refine ⟨?_, ?_, ?_⟩
  · intro i r hi hbudget
    obtain ⟨stage, hcall⟩ := Service.exists_stage x moves hi
    refine ⟨stage, hcall, fun answer hstage => ?_⟩
    have hmem := List.mem_of_getElem? hcall
    rw [Stage.answer?_eq_some_iff.1 hstage] at hmem
    have hanswer := (Service.answer_eq_fresh hsteady hcache hmem).trans (hfresh r hbudget)
    rw [hanswer]
    unfold CompiledFilter.evaluateFresh
    refine ⟨rfl, fun e he => ?_, fun f e hf he => ?_, fun f input hf hinput hnone => ?_⟩
    · rw [he]
    · rw [hf, he]
    · rw [hf, hinput]
      dsimp only
      rw [hnone]
      rfl
  · intro rounds hturns henough i r hi hbudget
    rw [← hfresh r hbudget]
    exact Service.answered_after_rounds hsteady hcache moves hturns henough hi
  · intro r hbudget hfree
    have hfaithful := Service.run_faithful hsteady (Service.start_faithful hcache requests) moves
    obtain ⟨hsame, hconfig, -⟩ := (Service.start x requests).run_frame moves
    have hvalue := Request.evaluate_fst (hsame ▸ hsteady) hfree hfaithful.sound hfaithful.fills r
    rw [hvalue, hsame, Executor.budget_congr hconfig]
    exact hfresh r hbudget

/-- Two requests that both miss the cache and compile the same filter both get their answers. -/
theorem cache_is_transparent_race :
    let x : Executor CompiledFilter :=
      { engine := .filters (.object []), config := {}, cache := .empty 100 .stopAtBusy }
    let requests : List Request := [⟨"1", ".", {}⟩, ⟨"2", ".", {}⟩]
    let race : List Move := [.advance 0, .advance 1, .advance 0, .advance 1, .advance 0, .advance 1]
    let rounds : List (List Move) := List.replicate 18 [.advance 0, .evict, .advance 1]
    Executor.create (.filters (.object [])) {} = .ok x ∧
      (((Service.start x requests).run race).run rounds.flatten).calls[1]? =
        some ⟨⟨"2", ".", {}⟩, .finished (.ok (evaluateFresh (.object []) "2" ⟨".", false⟩))⟩ := by
  intro x requests race rounds
  have hx : Executor.create (.filters (.object [])) {} = .ok x := rfl
  have hturns : ∀ round ∈ rounds, ∀ i < requests.length, .advance i ∈ round := by decide
  exact ⟨hx, (cache_is_transparent (.object []) hx requests race).2.1 rounds hturns (by decide)
    1 ⟨"2", ".", {}⟩ rfl rfl⟩

end JsonFilter
