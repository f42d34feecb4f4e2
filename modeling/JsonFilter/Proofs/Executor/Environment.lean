import JsonFilter.Proofs.Executor.Twins

/-!
# The environment does not leak

Requests that may see the environment and requests that may not share an executor, often with the same
filters.  This file runs two processes with different environments side by side.  They are twins, since
the environment plays no part in whether a filter compiles.

A request that may not see the environment has more in common in the two.  What it has got so far is what
a fresh evaluation of its own key would have got (`Stage.Fits`), whatever others have left in the cache,
and a key without the environment compiles to the same program in every process.  So it is at the same
stage in both, its program and its answer included (`Stage.Fits.eq_of_twin`).

* **`environment_does_not_leak`** — the same keys, the same counts and the same answers.
-/

namespace JsonFilter

open Cache
open Json (Value)

variable {P : Type}

/-! ### Stages -/

namespace Stage

/-- The program in the hands of an evaluation. -/
def program? : Stage P → Option P
  | .inserting program | .locked _ program | .driving _ program _ | .unlocking _ program _ =>
    some program
  | .acquiring | .compiling | .leased _ | .waiting _ | .releasing _ _ | .finished _ => none

variable {engine engine' : Engine P} {r : Request} {budget : Option Duration}
  {stage stage' : Stage P}

/-- **An evaluation is served the program of its own key.** -/
theorem Fits.compile_eq (h : stage.Fits engine r budget) {program : P}
    (hprogram : stage.program? = some program) : engine.compile r.key = .ok program := by
  cases stage with
  | inserting own =>
    obtain rfl := Option.some.inj hprogram
    exact h
  | locked lease own =>
    obtain rfl := Option.some.inj hprogram
    exact h.2
  | driving lease own input | unlocking lease own answer =>
    obtain rfl := Option.some.inj hprogram
    exact h.2.1
  | _ => cases hprogram

/-- **Equally far is the same stage** where both engines compile the key of the request to the same
program and evaluate it to the same answer. -/
theorem Fits.eq_of_twin (h : stage.Fits engine r budget) (h' : stage'.Fits engine' r budget)
    (htwin : stage.Twin stage') (hcompile : engine.compile r.key = engine'.compile r.key)
    (hfresh : engine.fresh r.json r.key budget = engine'.fresh r.json r.key budget) :
    stage = stage' := by
  have hprogram : ∀ {program program' : P}, engine.compile r.key = .ok program →
      engine'.compile r.key = .ok program' → program = program' := by
    intro program program' hp hp'
    exact Except.ok.inj (hp.symm.trans (hcompile.trans hp'))
  have hanswer : ∀ {answer answer' : Answer}, answer = engine.fresh r.json r.key budget →
      answer' = engine'.fresh r.json r.key budget → answer = answer' := by
    intro answer answer' ha ha'
    exact ha.trans (hfresh.trans ha'.symm)
  cases htwin with
  | acquiring | compiling | leased lease | waiting lease => rfl
  | inserting program program' => rw [hprogram h h']
  | locked lease program program' => rw [hprogram h.2 h'.2]
  | driving lease program program' input => rw [hprogram h.2.1 h'.2.1]
  | unlocking lease program program' answer answer' =>
    rw [hprogram h.2.1 h'.2.1, hanswer h.2.2 h'.2.2]
  | releasing lease answer answer' => rw [hanswer h h']
  | finished answer answer' => rw [hanswer h h']

end Stage

/-! ### A single client -/

namespace Executor.AtRest

variable {x : Executor P}

/-- A command leaves the engine, and every entry the program of its own key. -/
theorem obey_fills (h : x.AtRest) (hsteady : x.engine.Steady) (hfills : x.engine.Fills x.cache)
    (command : Command) :
    (x.obey command).engine = x.engine ∧ x.engine.Fills (x.obey command).cache := by
  cases command with
  | evaluate r =>
    have hafter : x.obey (.evaluate r) = (r.advanceAlone^[9] (x, .acquiring)).1 :=
      congrArg Prod.snd (r.evaluate_eq_iterate x 0)
    have hsound : Sound x.cache ((.acquiring : Stage P).holding?.toList ++ []) := h.sound
    obtain ⟨hengine, -, -, hleft, -⟩ := Request.iterate_keeps (r := r) hsteady hsound hfills trivial 9
    rw [hafter]
    exact ⟨hengine, hleft⟩
  | setCapacity requested =>
    show ((setCapacity requested).run.run x).2.engine = _ ∧
      x.engine.Fills ((setCapacity requested).run.run x).2.cache
    rw [run_setCapacity]
    split
    · exact ⟨rfl, hfills⟩
    · have hresized : Sound
          { x.cache with capacity := x.config.effectiveCapacity requested } [] :=
        h.sound.congr rfl rfl rfl
      obtain ⟨gone, hr⟩ := ProgramCache.evict_retires hresized.consistent
      have hsame : x.engine.Fills
          { x.cache with capacity := x.config.effectiveCapacity requested } := hfills
      exact ⟨rfl, hsame.retires hr⟩

theorem obeyAll_fills (h : x.AtRest) (hsteady : x.engine.Steady) (hfills : x.engine.Fills x.cache)
    (commands : List Command) :
    (x.obeyAll commands).engine = x.engine ∧ x.engine.Fills (x.obeyAll commands).cache := by
  induction commands generalizing x with
  | nil => exact ⟨rfl, hfills⟩
  | cons command commands ih =>
    obtain ⟨hengine, hfills'⟩ := h.obey_fills hsteady hfills command
    rw [← hengine] at hsteady hfills' ⊢
    exact ih (h.obey command).1 hsteady hfills'

/-- **The answer after any commands** is that of a fresh evaluation. -/
theorem answer_obeyAll (h : x.AtRest) (hsteady : x.engine.Steady) (hfills : x.engine.Fills x.cache)
    (commands : List Command) (r : Request) :
    (x.obeyAll commands).answer r = x.engine.fresh r.json r.key (x.budget r.terms) := by
  obtain ⟨hrest, hconfig, -⟩ := h.obeyAll commands
  obtain ⟨hengine, hfills'⟩ := h.obeyAll_fills hsteady hfills commands
  have hfree : drivenOf ([] : List (Holding FilterKey)) = [] := rfl
  have hanswer := Request.evaluate_fst (hengine ▸ hsteady) hfree hrest.sound (hengine ▸ hfills') r
  rw [hengine, budget_congr hconfig] at hanswer
  exact hanswer

end Executor.AtRest

/-! ### Filters -/

namespace CompiledFilter

/-- Whether a filter compiles, and to which tree, is up to its text. -/
theorem compile_eq_map (environment : Value) (key : FilterKey) :
    compile environment key = (check key.source).map fun body =>
      ⟨key.source, body, if key.env then environment else .object []⟩ := by
  unfold compile
  cases check key.source <;> rfl

/-- **A key without the environment** compiles to the same program in every process. -/
theorem compile_congr (environment environment' : Value) {key : FilterKey} (henv : key.env = false) :
    compile environment key = compile environment' key := by
  rw [compile_eq_map, compile_eq_map, henv]
  rfl

/-- So it evaluates to the same in every process. -/
theorem evaluateFresh_congr (environment environment' : Value) (json : String) {key : FilterKey}
    (henv : key.env = false) :
    evaluateFresh environment json key = evaluateFresh environment' json key := by
  unfold evaluateFresh
  rw [compile_congr environment environment' henv]

/-- **What a program can see** of the environment. -/
theorem env_of_compile {environment : Value} {key : FilterKey} {f : CompiledFilter}
    (h : compile environment key = .ok f) :
    f.env = if key.env then environment else .object [] := by
  rw [compile_eq_map] at h
  cases hcheck : check key.source with
  | error e =>
    rw [hcheck] at h
    cases h
  | ok body =>
    rw [hcheck] at h
    cases h
    rfl

end CompiledFilter

/-- Whether a filter compiles does not depend on the environment. -/
theorem Engine.filters_acceptsAs (environment environment' : Value) :
    (filters environment).AcceptsAs (filters environment') := by
  intro key e
  show CompiledFilter.compile environment key = _ ↔ CompiledFilter.compile environment' key = _
  rw [CompiledFilter.compile_eq_map, CompiledFilter.compile_eq_map]
  cases CompiledFilter.check key.source with
  | error e' => exact Iff.rfl
  | ok body => exact ⟨nofun, nofun⟩

section Processes

variable {environment : Value} {config : Config} {x : Executor CompiledFilter}

/-- **A new executor** has the engine of the filters, is at rest and holds no wrong program. -/
theorem Executor.atRest_of_create (hx : Executor.create (.filters environment) config = .ok x) :
    x.engine = .filters environment ∧ x.engine.Steady ∧ x.AtRest ∧ x.engine.Fills x.cache := by
  obtain ⟨hengine, capacity, policy, hcache⟩ := Executor.create_eq_ok hx
  refine ⟨hengine, ?_, (Executor.atRest_of_leases_eq_nil hx [] [] rfl).1, ?_⟩
  · rw [hengine]
    exact Engine.filters_steady environment
  · rw [hcache]
    exact Engine.Fills.empty x.engine capacity policy

/-- What an evaluation has got so far, in the process that began with `x`. -/
theorem Service.fits_of_create (hx : Executor.create (.filters environment) config = .ok x)
    {requests : List Request} {moves : List Move} {i : Nat} {r : Request}
    {stage : Stage CompiledFilter}
    (hcall : ((Service.start x requests).run moves).calls[i]? = some ⟨r, stage⟩) :
    stage.Fits (.filters environment) r (x.budget r.terms) := by
  obtain ⟨hengine, capacity, policy, hcache⟩ := Executor.create_eq_ok hx
  obtain ⟨hsame, hconfig, -⟩ := (Service.start x requests).run_frame moves
  have hsteady : x.engine.Steady := by
    rw [hengine]
    exact Engine.filters_steady environment
  have hfaithful := Service.run_faithful hsteady (Service.start_faithful hcache requests) moves
  have hfits := hfaithful.fits _ (List.mem_of_getElem? hcall)
  rw [hsame, Executor.budget_congr hconfig] at hfits
  rw [← hengine]
  exact hfits

/-- What the single client of `x` is answered. -/
theorem Executor.answer_of_create (hx : Executor.create (.filters environment) config = .ok x)
    (commands : List Command) {r : Request} (hbudget : x.budget r.terms = none) :
    (x.obeyAll commands).answer r =
      .ok (CompiledFilter.evaluateFresh environment r.json r.key) := by
  obtain ⟨hengine, hsteady, hrest, hfills⟩ := Executor.atRest_of_create hx
  rw [hrest.answer_obeyAll hsteady hfills commands r, hbudget, hengine, Engine.fresh_filters]

end Processes

/-- **The environment does not leak.**  Two processes with different environments begin with the same
settings and work on the same requests, those that may see the environment and those that may not mixed
freely.

If they take the steps of all requests in the same order, with sweeps, clearings and changes of the
capacity in between, then their caches have the same keys in the same order, the same hits, misses,
inserts and evictions, and the locks have the same counts.  A request that may not see the environment is
only ever served the program of its own key, which sees an empty environment.  If it has no time budget,
it is at the same stage in both processes, with the same program, or the same answer once it has one.

If a single client evaluates filters and changes the capacity, one after another, then the keys and the
counts are the same after every command, and a request that may not see the environment and has no time
budget is answered next as in an empty environment. -/
theorem environment_does_not_leak (environment environment' : Value) {config : Config}
    {x y : Executor CompiledFilter}
    (hx : Executor.create (.filters environment) config = .ok x)
    (hy : Executor.create (.filters environment') config = .ok y) :
    (∀ (requests : List Request) (moves : List Move),
      let v := (Service.start x requests).run moves
      let w := (Service.start y requests).run moves
      v.executor.cache.keys = w.executor.cache.keys ∧
      v.executor.cache.stats = w.executor.cache.stats ∧
      v.executor.locks = w.executor.locks ∧
      ∀ (i : Nat) (r : Request), requests[i]? = some r → r.terms.enableEnv = false →
        ∃ stage, v.calls[i]? = some ⟨r, stage⟩ ∧
          (∀ f, stage.program? = some f →
            CompiledFilter.compile environment r.key = .ok f ∧ f.env = .object []) ∧
          (x.budget r.terms = none → w.calls[i]? = some ⟨r, stage⟩)) ∧
    ∀ commands : List Command,
      let v := x.obeyAll commands
      let w := y.obeyAll commands
      v.cache.keys = w.cache.keys ∧ v.cache.stats = w.cache.stats ∧ v.locks = w.locks ∧
      ∀ r : Request, r.terms.enableEnv = false → x.budget r.terms = none →
        v.answer r = .ok (CompiledFilter.evaluateFresh (.object []) r.json r.key) ∧
          w.answer r = .ok (CompiledFilter.evaluateFresh (.object []) r.json r.key) := by
  have htwin : x.Twin y :=
    Executor.twin_of_create (Engine.filters_acceptsAs environment environment') hx hy
  have hbudget : ∀ terms, y.budget terms = x.budget terms := Executor.budget_congr htwin.config.symm
  refine ⟨fun requests moves => ?_, fun commands => ?_⟩
  · intro v w
    have hrun : v.Twin w := Service.run_twin (Service.start_twin htwin requests) moves
    refine ⟨hrun.executor.cache.keys, hrun.executor.cache.stats, hrun.executor.locks,
      fun i r hi henv => ?_⟩
    obtain ⟨stage, hcall⟩ := Service.exists_stage x moves hi
    obtain ⟨stage', hcall'⟩ := Service.exists_stage y moves hi
    have hfits := Service.fits_of_create hx hcall
    have hfits' := Service.fits_of_create hy hcall'
    refine ⟨stage, hcall, fun f hf => ?_, fun hnone => ?_⟩
    · have hcompile : CompiledFilter.compile environment r.key = .ok f := hfits.compile_eq hf
      have hsees := CompiledFilter.env_of_compile hcompile
      have hkey : r.key.env = false := henv
      rw [hkey] at hsees
      exact ⟨hcompile, hsees⟩
    · have hstage : stage.Twin stage' := (hrun.of_getElem? hcall hcall').2
      have hfresh : (Engine.filters environment).fresh r.json r.key none =
          (Engine.filters environment').fresh r.json r.key none := by
        rw [Engine.fresh_filters, Engine.fresh_filters,
          CompiledFilter.evaluateFresh_congr environment environment' r.json henv]
      rw [hnone] at hfits
      rw [hbudget, hnone] at hfits'
      have hsame : stage = stage' := hfits.eq_of_twin hfits' hstage
        (CompiledFilter.compile_congr environment environment' henv) hfresh
      rw [hsame]
      exact hcall'
  · intro v w
    have hrun : v.Twin w := htwin.obeyAll commands
    refine ⟨hrun.cache.keys, hrun.cache.stats, hrun.locks, fun r henv hnone => ?_⟩
    have hanswer : v.answer r = _ := Executor.answer_of_create hx commands hnone
    have hanswer' : w.answer r = _ :=
      Executor.answer_of_create hy commands ((hbudget r.terms).trans hnone)
    rw [hanswer, hanswer', CompiledFilter.evaluateFresh_congr environment (.object []) r.json henv,
      CompiledFilter.evaluateFresh_congr environment' (.object []) r.json henv]
    exact ⟨rfl, rfl⟩

/-- A filter that reads a variable is evaluated with the environment and then without it.  The first of
the two evaluations tells the processes apart, and the second one does not.  If both are requests, the
second one finds the entry of the first in the cache, and is served a program of its own. -/
theorem environment_does_not_leak_mixed :
    let environment := environmentValue [("HOME", "/home")]
    let x : Executor CompiledFilter :=
      { engine := .filters environment, config := {}, cache := .empty 100 .stopAtBusy }
    let y : Executor CompiledFilter :=
      { engine := .filters (.object []), config := {}, cache := .empty 100 .stopAtBusy }
    let seeing : Request := ⟨"null", "$ENV.HOME", { enableEnv := true }⟩
    let blind : Request := ⟨"null", "$ENV.HOME", {}⟩
    let shown (answer : Answer) : Option String :=
      (answer.toOption.bind Except.toOption).join.map Value.compact
    let moves : List Move := List.replicate 9 (.advance 0) ++ List.replicate 5 (.advance 1)
    let v := (Service.start x [seeing, blind]).run moves
    let w := (Service.start y [seeing, blind]).run moves
    Executor.create (.filters environment) {} = .ok x ∧
      Executor.create (.filters (.object [])) {} = .ok y ∧
      shown (x.answer seeing) = some "\"/home\"" ∧ shown (y.answer seeing) = some "null" ∧
      (x.obeyAll [.evaluate seeing]).answer blind = (y.obeyAll [.evaluate seeing]).answer blind ∧
      v.executor.cache.keys = [blind.key, seeing.key] ∧
      ∃ stage, v.calls[1]? = some ⟨blind, stage⟩ ∧ w.calls[1]? = some ⟨blind, stage⟩ ∧
        stage.program?.isSome = true := by
  intro environment x y seeing blind shown moves v w
  have hx : Executor.create (.filters environment) {} = .ok x := rfl
  have hy : Executor.create (.filters (.object [])) {} = .ok y := rfl
  obtain ⟨htogether, halone⟩ := environment_does_not_leak environment (.object []) hx hy
  obtain ⟨-, -, -, hcalls⟩ := htogether [seeing, blind] moves
  obtain ⟨-, -, -, hanswers⟩ := halone [.evaluate seeing]
  obtain ⟨hanswer, hanswer'⟩ := hanswers blind rfl rfl
  obtain ⟨stage, hv, -, hw⟩ := hcalls 1 blind rfl rfl
  have hserved : (v.calls[1]?.bind fun call => call.stage.program?).isSome = true := by
    decide +kernel
  rw [hv] at hserved
  exact ⟨hx, hy, by decide +kernel, by decide +kernel, hanswer.trans hanswer'.symm,
    by decide +kernel, stage, hv, hw rfl, hserved⟩

end JsonFilter
