import JsonFilter.Proofs.Cli.Lines
import JsonFilter.Proofs.Executor.Environment

/-!
# Batches

A batch evaluates one filter on the lines of a file.  Workers share the lines and the executor, and with it
the entry of the filter, so that lines are compiled for, wait and are answered in an order that nobody
knows.  What is printed does not depend on it: every line is given what it would be given alone, and the
results are put back in the order of the file before anything is printed.

## Results

`Outcome.Reports` says what is printed when every line has its result, and what the program ends with.  It
is proved of the printing alone (`outcome_reportResults`), for any results.

## Orders

The lines are requests to a service, and an order is a run of it.  `gathered?` collects the answers when all
of them are there.  Evaluating the lines one after another, as the program is written down here, is treated
apart, because a session goes through an evaluation in one go (`run_evaluateLines`).

* **`batch_is_line_by_line`** — what a batch prints and ends with, in any order.
-/

namespace JsonFilter

open Cache
open Json (Value)

/-! ### What a line is given -/

/-- The evaluation of a compiled filter on a JSON text. -/
def CompiledFilter.given (f : CompiledFilter) (budget : Option Duration) (json : String) : Evaluation :=
  match Value.ofText json with
  | .error e => .error (.invalidInput e)
  | .ok input => ((f.run input).firstValue (.ofBudget budget)).mapError (.ofRun budget)

/-- A filter that compiles gives every line a result, unless no clock can be set. -/
theorem Engine.fresh_of_compile {environment : Value} {key : FilterKey} {f : CompiledFilter}
    {budget : Option Duration} (hcompile : CompiledFilter.compile environment key = .ok f)
    (hclock : Executor.clockFault? budget = none) (json : String) :
    (Engine.filters environment).fresh json key budget = .ok (f.given budget json) := by
  have hsame : (Engine.filters environment).compile key = .ok f := hcompile
  unfold Engine.fresh CompiledFilter.given
  rw [hsame]
  dsimp only
  cases Value.ofText json with
  | error e => rfl
  | ok input =>
    dsimp only
    unfold Executor.drive
    rw [hclock]
    rfl

/-- What has compiled does not fail to compile. -/
theorem CompiledFilter.given_ne_compile (f : CompiledFilter) (budget : Option Duration) (json : String)
    (e : CompileError) : f.given budget json ≠ .error (.compile e) := by
  unfold given
  cases Value.ofText json with
  | error e => nofun
  | ok input =>
    dsimp only
    rcases (f.run input).firstValue (.ofBudget budget) with (text | -) | first <;> nofun

/-! ### What is printed -/

namespace Evaluation

/-- What the result of a line adds to the standard output. -/
def printed : Evaluation → String
  | .ok (some v) => v.compact ++ "\n"
  | _ => ""

/-- What the result of a line adds to the standard error output. -/
def complaint (number : Nat) : Evaluation → String
  | .error e => s!"error line {number}: {e.message}\n"
  | .ok _ => ""

/-- Whether a line has failed. -/
def failed : Evaluation → Bool
  | .error _ => true
  | .ok _ => false

theorem failed_iff {evaluation : Evaluation} : failed evaluation = true ↔ ∃ e, evaluation = .error e := by
  cases evaluation <;> simp [failed]

end Evaluation

namespace Cli

open Evaluation (printed complaint failed)

/-- The number of lines that have failed. -/
def failuresOf (results : List (Nat × Evaluation)) : Nat :=
  results.countP fun result => failed result.2

/-- What is printed in the end if lines have failed. -/
def summary (failures count : Nat) : String :=
  if failures = 0 then "" else "Error: " ++ s!"{failures} of {count} inputs failed" ++ "\n"

/-- **The report on some lines**, each of which is given a result: the values and the failures are printed
in the order of the lines, each failure with the number of its line, and the program fails if there is a
failure. -/
structure Outcome.Reports (o : Outcome) (lines : List (Nat × String)) (given : String → Evaluation) :
    Prop where
  stdout : o.stdout = String.join (lines.map fun line => printed (given line.2))
  stderr : o.stderr = String.join (lines.map fun line => complaint line.1 (given line.2)) ++
    summary (lines.countP fun line => failed (given line.2)) lines.length
  code : o.code ≠ 0 ↔ ∃ line ∈ lines, ∃ e, given line.2 = .error e

namespace Work

/-- The results are printed in their order, and the failures counted. -/
theorem run_printResults (results : List (Nat × Evaluation)) (s : Shell) :
    (printResults results).run.run s =
      (.ok (failuresOf results),
        { s with
          stdout := s.stdout ++ String.join (results.map fun result => printed result.2)
          stderr := s.stderr ++ String.join (results.map fun result => complaint result.1 result.2) }) := by
  induction results generalizing s with
  | nil =>
    rw [List.map_nil, List.map_nil, String.join_nil, String.append_empty, String.append_empty]
    rfl
  | cons result results ih =>
    obtain ⟨number, e | _ | v⟩ := result
    all_goals rw [List.map_cons, List.map_cons, String.join_cons, String.join_cons, ← String.append_assoc,
      ← String.append_assoc, failuresOf, List.countP_cons]
    · show ((printError (complaint number (.error e)) >>= fun _ => _ : Work Nat)).run.run s = _
      rw [run_bind]
      show ((printResults results >>= fun n => pure (n + 1) : Work Nat)).run.run _ = _
      rw [run_bind, ih]
      simp only [printed, String.append_empty]
      rfl
    · show (printResults results).run.run s = _
      rw [ih]
      simp only [printed, complaint, String.append_empty]
      rfl
    · show ((print (printed (.ok (some v))) >>= fun _ => printResults results : Work Nat)).run.run s = _
      rw [run_bind]
      show (printResults results).run.run _ = _
      rw [ih]
      simp only [complaint, String.append_empty]
      rfl

/-- The message that counts the failures is not the one that is kept back. -/
theorem ne_silentMessage (failures count : Nat) :
    s!"{failures} of {count} inputs failed" ≠ Failure.silentMessage := by
  intro h
  have hlast := congrArg (fun message : String => message.toList.getLast?) h
  have hword : (toString " inputs failed").toList.getLast? = some 'd' := by decide
  simp [Failure.silentMessage, hword] at hlast

/-- **The report** prints all that there is to print, if none of the results is that the filter does not
compile. -/
theorem outcome_reportResults {results : List (Nat × Evaluation)}
    (hcompiles : ∀ result ∈ results, ∀ e, result.2 ≠ .error (.compile e))
    (x : Executor CompiledFilter) :
    (reportResults results).outcome x =
      { code := if failuresOf results = 0 then 0 else 1
        stdout := String.join (results.map fun result => printed result.2)
        stderr := String.join (results.map fun result => complaint result.1 result.2) ++
          summary (failuresOf results) results.length } := by
  have hreport : reportResults results = (do
      let failures ← printResults results
      if 0 < failures then fail s!"{failures} of {results.length} inputs failed") := by
    unfold reportResults
    split
    · rename_i number e rest
      exact absurd rfl (hcompiles (number, .error (.compile e)) List.mem_cons_self e)
    · rfl
  unfold outcome
  rw [hreport, run_bind, run_printResults]
  dsimp only
  rw [String.empty_append, String.empty_append]
  unfold summary
  by_cases hnone : failuresOf results = 0
  · rw [if_pos hnone, if_pos hnone, if_neg (by omega), String.append_empty]
    rfl
  · have htext : (Failure.error s!"{failuresOf results} of {results.length} inputs failed" none).text =
        "Error: " ++ s!"{failuresOf results} of {results.length} inputs failed" ++ "\n" :=
      if_neg (ne_silentMessage _ _)
    rw [if_neg hnone, if_neg hnone, if_pos (by omega), ← htext]
    rfl

end Work

/-- Results that belong to the lines make the report on the lines. -/
theorem Outcome.reports_of_results {lines : List (Nat × String)} {given : String → Evaluation}
    (hcompiles : ∀ json e, given json ≠ .error (.compile e)) (x : Executor CompiledFilter) :
    ((Work.reportResults (lines.map fun line => (line.1, given line.2))).outcome x).Reports lines given := by
  have hresults : ∀ result ∈ lines.map (fun line => (line.1, given line.2)), ∀ e,
      result.2 ≠ .error (.compile e) := by
    intro result hresult e
    obtain ⟨line, -, rfl⟩ := List.mem_map.1 hresult
    exact hcompiles line.2 e
  have hfailures : failuresOf (lines.map fun line => (line.1, given line.2)) =
      lines.countP fun line => failed (given line.2) :=
    List.countP_map
  rw [Work.outcome_reportResults hresults x, hfailures, List.map_map, List.map_map, List.length_map]
  refine ⟨rfl, rfl, ?_⟩
  have hnone : (lines.countP fun line => failed (given line.2)) = 0 ↔
      ¬∃ line ∈ lines, ∃ e, given line.2 = .error e := by
    rw [List.countP_eq_zero]
    simp only [Evaluation.failed_iff, not_exists, not_and]
  dsimp only
  split
  · rename_i hzero
    exact ⟨fun hne => absurd rfl hne, fun hsome => absurd hsome (hnone.1 hzero)⟩
  · rename_i hsome
    exact ⟨fun _ => not_not.1 (mt hnone.2 hsome), fun _ => Nat.one_ne_zero⟩

/-! ### Lines one after another -/

namespace Work

variable {filter : String} {terms : Terms} {given : String → Evaluation}

/-- A session that is not interrupted changes the executor and nothing else. -/
theorem run_session_of_ok {α : Type} {action : Session CompiledFilter α} {s : Shell} {a : α}
    {x : Executor CompiledFilter} (h : action.run.run s.executor = (.ok a, x)) :
    (session action).run.run s = (.ok a, { s with executor := x }) := by
  have hget : (get : Work Shell).run.run s = (.ok s, s) := rfl
  unfold session
  rw [run_bind, hget]
  dsimp only
  rw [h]
  rfl

/-- What is done with the executor that way. -/
def evaluationsOf (filter : String) (terms : Terms) (lines : List (Nat × String)) : List JsonFilter.Command :=
  lines.map fun line => .evaluate ⟨line.2, filter, terms⟩

/-- **Lines one after another** are given what each of them is given alone, and nothing is printed. -/
theorem run_evaluateLines {engine : Engine CompiledFilter} (hsteady : engine.Steady)
    {budget : Option Duration}
    (hgiven : ∀ json, engine.fresh json (Executor.keyOf filter terms) budget = .ok (given json))
    (lines : List (Nat × String)) {s : Shell} (hrest : s.executor.AtRest)
    (hengine : s.executor.engine = engine) (hfills : engine.Fills s.executor.cache)
    (hbudget : s.executor.budget terms = budget) :
    (evaluateLines filter terms lines).run.run s =
      (.ok (lines.map fun line => (line.1, given line.2)),
        { s with executor := s.executor.obeyAll (evaluationsOf filter terms lines) }) := by
  -- every line finds the executor at rest, whatever the lines before it have left in the cache
  induction lines generalizing s with
  | nil => rfl
  | cons line lines ih =>
    obtain ⟨number, json⟩ := line
    subst hengine
    have hanswer : s.executor.answer ⟨json, filter, terms⟩ = .ok (given json) := by
      have hfresh := hrest.answer_obeyAll hsteady hfills [] ⟨json, filter, terms⟩
      rw [hbudget] at hfresh
      exact hfresh.trans (hgiven json)
    have hevaluate : (session (Executor.evaluate json filter terms)).run.run s =
        (.ok (given json), { s with executor := s.executor.obey (.evaluate ⟨json, filter, terms⟩) }) := by
      refine run_session_of_ok (Prod.ext ?_ rfl)
      exact hanswer
    obtain ⟨hrest', hconfig, -⟩ := hrest.obey (.evaluate ⟨json, filter, terms⟩)
    obtain ⟨hsame, hfills'⟩ := hrest.obey_fills hsteady hfills (.evaluate ⟨json, filter, terms⟩)
    have hothers := ih (s := { s with executor := s.executor.obey (.evaluate ⟨json, filter, terms⟩) })
      hrest' hsame hfills' ((Executor.budget_congr hconfig terms).trans hbudget)
    unfold evaluateLines
    rw [run_bind, hevaluate]
    dsimp only
    rw [run_bind, hothers]
    rfl

end Work

/-! ### Lines in any order -/

/-- The results of lines when each of them has been evaluated, in the order of the lines. -/
def gathered? {P : Type} (lines : List (Nat × String)) (calls : List (Call P)) :
    Option (List (Nat × Evaluation)) :=
  (lines.zip calls).mapM fun (line, call) =>
    match call.stage.answer? with
    | some (.ok evaluation) => some (line.1, evaluation)
    | _ => none

section Gathering

variable {P : Type} {filter : String} {terms : Terms} {given : String → Evaluation}

/-- A request for every line. -/
def requestsOf (filter : String) (terms : Terms) (lines : List (Nat × String)) : List JsonFilter.Request :=
  lines.map fun line => ⟨line.2, filter, terms⟩

/-- **What is gathered belongs to the lines** where every answer is the one that its line is given. -/
theorem gathered?_eq {lines : List (Nat × String)} {calls : List (Call P)}
    (hrequests : calls.map Call.request = requestsOf filter terms lines)
    (hanswers : ∀ call ∈ calls, ∀ answer, call.stage.answer? = some answer →
      answer = .ok (given call.request.json)) {results : List (Nat × Evaluation)}
    (hgathered : gathered? lines calls = some results) :
    results = lines.map fun line => (line.1, given line.2) := by
  induction lines generalizing calls results with
  | nil => exact (Option.some.inj hgathered).symm
  | cons line lines ih =>
    obtain ⟨call, calls, rfl, hrequest, hrequests'⟩ := List.map_eq_cons_iff.1 hrequests
    unfold gathered? at hgathered
    rw [List.zip_cons_cons, List.mapM_cons] at hgathered
    obtain ⟨result, hresult, hgathered⟩ := Option.bind_eq_some_iff.1 hgathered
    obtain ⟨others, hothers, hgathered⟩ := Option.bind_eq_some_iff.1 hgathered
    obtain rfl := Option.some.inj hgathered
    have hrest := ih hrequests' (fun other hother => hanswers other (List.mem_cons_of_mem _ hother)) hothers
    rw [List.map_cons, ← hrest]
    dsimp only at hresult
    cases hanswer : call.stage.answer? with
    | none =>
      rw [hanswer] at hresult
      cases hresult
    | some answer =>
      obtain rfl := hanswers call List.mem_cons_self answer hanswer
      rw [hanswer, hrequest] at hresult
      rw [← Option.some.inj hresult]

/-- All results are there when all answers are. -/
theorem gathered?_isSome {lines : List (Nat × String)} {calls : List (Call P)}
    (hanswered : ∀ call ∈ calls, ∃ evaluation, call.stage.answer? = some (.ok evaluation)) :
    (gathered? lines calls).isSome = true := by
  induction lines generalizing calls with
  | nil => rfl
  | cons line lines ih =>
    cases calls with
    | nil => rfl
    | cons call calls =>
      obtain ⟨evaluation, hanswer⟩ := hanswered call List.mem_cons_self
      obtain ⟨others, hothers⟩ := Option.isSome_iff_exists.1
        (ih fun other hother => hanswered other (List.mem_cons_of_mem _ hother))
      unfold gathered? at hothers ⊢
      rw [List.zip_cons_cons, List.mapM_cons, hothers]
      dsimp only
      rw [hanswer]
      rfl

end Gathering

section Orders

variable {P : Type} {x : Executor P} {filter : String} {terms : Terms} {given : String → Evaluation}
  {capacity : Nat} {policy : SweepPolicy}

/-- The request for a line is given what the line is given. -/
theorem fresh_of_mem_requestsOf
    (hgiven : ∀ json, x.engine.fresh json (Executor.keyOf filter terms) (x.budget terms) =
      .ok (given json)) {lines : List (Nat × String)} {r : JsonFilter.Request}
    (hr : r ∈ requestsOf filter terms lines) :
    x.engine.fresh r.json r.key (x.budget r.terms) = .ok (given r.json) := by
  obtain ⟨line, -, rfl⟩ := List.mem_map.1 hr
  exact hgiven line.2

/-- **In any order**, an answer is the one that its line is given. -/
theorem answer_of_order (hsteady : x.engine.Steady) (hcache : x.cache = .empty capacity policy)
    (hgiven : ∀ json, x.engine.fresh json (Executor.keyOf filter terms) (x.budget terms) =
      .ok (given json)) {lines : List (Nat × String)} {moves : List Move} {call : Call P}
    (hcall : call ∈ ((Service.start x (requestsOf filter terms lines)).run moves).calls) {answer : Answer}
    (hanswer : call.stage.answer? = some answer) : answer = .ok (given call.request.json) := by
  have hrequest : call.request ∈ requestsOf filter terms lines := by
    rw [← Service.calls_run_requests x (requestsOf filter terms lines) moves]
    exact List.mem_map_of_mem hcall
  obtain ⟨r, stage⟩ := call
  obtain rfl := Stage.answer?_eq_some_iff.1 hanswer
  exact (Service.answer_eq_fresh hsteady hcache hcall).trans (fresh_of_mem_requestsOf hgiven hrequest)

/-- **After any order so far** the lines that are left can be evaluated. -/
theorem exists_gathered (hsteady : x.engine.Steady) (hcache : x.cache = .empty capacity policy)
    (hgiven : ∀ json, x.engine.fresh json (Executor.keyOf filter terms) (x.budget terms) =
      .ok (given json)) (lines : List (Nat × String)) (moves : List Move) :
    ∃ more, (gathered? lines
      (((Service.start x (requestsOf filter terms lines)).run moves).run more).calls).isSome = true := by
  -- no request has more than nine steps, and in every round each of them has a turn
  let requests := requestsOf filter terms lines
  let round : List Move := (List.range requests.length).map .advance
  let rounds := List.replicate (9 * requests.length) round
  have hturns : ∀ round' ∈ rounds, ∀ i < requests.length, .advance i ∈ round' := by
    intro round' hround' i hi
    rw [List.eq_of_mem_replicate hround']
    exact List.mem_map_of_mem (List.mem_range.2 hi)
  have hcalls : (((Service.start x requests).run moves).run rounds.flatten).calls.map Call.request =
      requests := by
    rw [← Service.run_append]
    exact Service.calls_run_requests x requests (moves ++ rounds.flatten)
  refine ⟨rounds.flatten, gathered?_isSome fun call hcall => ⟨given call.request.json, ?_⟩⟩
  obtain ⟨i, hi, hget⟩ := List.getElem_of_mem hcall
  have hrequest : requests[i]? = some call.request := by
    rw [← hcalls, List.getElem?_map, List.getElem?_eq_getElem hi, hget]
    rfl
  have hanswered := Service.answered_after_rounds hsteady hcache moves hturns
    (Nat.le_of_eq List.length_replicate.symm) hrequest
  rw [List.getElem?_eq_getElem hi, hget] at hanswered
  have hstage := congrArg Call.stage (Option.some.inj hanswered)
  rw [fresh_of_mem_requestsOf hgiven (List.mem_of_getElem? hrequest)] at hstage
  exact Stage.answer?_eq_some_iff.2 hstage

end Orders

/-! ### The whole program -/

namespace Work

/-- A batch without a timeout reads its file, evaluates the lines and reports the results. -/
theorem outcome_batch {w : Surroundings} {filter file text : String} {args : EvalArgs}
    {x y : Executor CompiledFilter} {results : List (Nat × Evaluation)} (htimeout : args.timeout = none)
    (htext : w.contentOf file = .ok text)
    (hresults : (evaluateLines filter { enableEnv := args.enableEnv } (numberedLines text)).run.run
      { executor := x } = (.ok results, { executor := y })) :
    (batch w filter file args).outcome x = (reportResults results).outcome y := by
  have hterms : (terms args).run.run { executor := x } =
      (.ok { enableEnv := args.enableEnv }, { executor := x }) := by
    unfold terms
    rw [htimeout]
    rfl
  have hread : (readPath w "failed to read " file).run.run { executor := x } =
      (.ok text, { executor := x }) := by
    unfold readPath
    rw [htext]
    rfl
  unfold outcome batch
  rw [run_bind, hterms]
  dsimp only
  rw [run_bind, hread]
  dsimp only
  rw [run_bind, hresults]

end Work

/-- The executor of an invocation is a new one. -/
theorem Invocation.exists_create {i : Invocation} {w : Surroundings} {x : Executor CompiledFilter}
    (hx : i.executor w = .ok x) :
    ∃ config, Executor.create (.filters (environmentValue w.environment)) config = .ok x := by
  unfold Invocation.executor at hx
  cases hconfig : i.config w with
  | error e =>
    rw [hconfig] at hx
    cases hx
  | ok config =>
    rw [hconfig] at hx
    exact ⟨config, hx⟩

/-- Without statistics, an invocation of a batch is the batch. -/
theorem Invocation.run_batch {i : Invocation} {w : Surroundings} {filter file : String} {args : EvalArgs}
    {x : Executor CompiledFilter} (hcommand : i.command = .batch filter file args)
    (hx : i.executor w = .ok x) (hstats : i.stats = false) :
    i.run w = (Work.batch w filter file args).outcome x := by
  have hwork : i.work w = Work.batch w filter file args := by
    unfold Invocation.work
    rw [hcommand, hstats]
    exact bind_pure_unit
  unfold Invocation.run
  rw [hx, hwork]

/-- **A batch is line by line.**  A batch without a timeout of its own has a filter that compiles, and no
default timeout or one that a clock can be set to.  Let every line have what a new executor with the same
settings gives when nothing but this line is evaluated.

However the evaluations of the lines take turns with the executor, and even if entries of the cache go in
between, the results that are gathered make the report on the lines with what they have: their values in
the order of the file, their failures with their numbers, and an exit code that is zero unless a line
fails.  All results can always be gathered in the end.

The same report is what the program leaves behind when it goes through the lines one after another.  A line
has its number among all lines of the file, which its line feeds cut apart, and those that are blank are
left out. -/
theorem batch_is_line_by_line {i : Invocation} {w : Surroundings} {filter file text : String}
    {args : EvalArgs} {x : Executor CompiledFilter} {f : CompiledFilter}
    (hcommand : i.command = .batch filter file args) (htimeout : args.timeout = none)
    (htext : w.contentOf file = .ok text) (hx : i.executor w = .ok x)
    (hcompile : CompiledFilter.compile (environmentValue w.environment)
      (Executor.keyOf filter { enableEnv := args.enableEnv }) = .ok f)
    (hclock : Executor.clockFault? (x.budget { enableEnv := args.enableEnv }) = none) :
    let terms : Terms := { enableEnv := args.enableEnv }
    let lines := Work.numberedLines text
    ∃ given : String → Evaluation,
      (∀ json, x.answer ⟨json, filter, terms⟩ = .ok (given json)) ∧
      (∀ moves,
        let s := (Service.start x (requestsOf filter terms lines)).run moves
        (∀ results, gathered? lines s.calls = some results →
          ((Work.reportResults results).outcome s.executor).Reports lines given) ∧
        ∃ more, (gathered? lines (s.run more).calls).isSome = true) ∧
      ((Work.batch w filter file args).outcome x).Reports lines given ∧
      (i.stats = false → (i.run w).Reports lines given) ∧
      (lines.Pairwise fun line line' => line.1 < line'.1) ∧
      (∀ number json, (number, json) ∈ lines ↔
        0 < number ∧ ∃ line, (Work.linesOf text.toList)[number - 1]? = some line ∧
          (Text.trim line).isEmpty = false ∧ json = .ofList line) ∧
      ∀ (ended : List (List Char)) (last : List Char), (∀ line ∈ ended, '\n' ∉ line) → '\n' ∉ last →
        text.toList = ended.flatMap (· ++ ['\n']) ++ last →
        Work.linesOf text.toList =
          (ended.map fun line => (Text.dropEnd? ['\r'] line).getD line) ++ [last].filter (· ≠ []) := by
  intro terms lines
  obtain ⟨config, hnew⟩ := Invocation.exists_create hx
  obtain ⟨hengine, hsteady, hrest, hfills⟩ := Executor.atRest_of_create hnew
  obtain ⟨-, capacity, policy, hcache⟩ := Executor.create_eq_ok hnew
  have hgiven : ∀ json, x.engine.fresh json (Executor.keyOf filter terms) (x.budget terms) =
      .ok (f.given (x.budget terms) json) := by
    rw [hengine]
    exact Engine.fresh_of_compile hcompile hclock
  have hcompiles := CompiledFilter.given_ne_compile f (x.budget terms)
  have hbatch : ((Work.batch w filter file args).outcome x).Reports lines (f.given (x.budget terms)) := by
    rw [Work.outcome_batch htimeout htext
      (Work.run_evaluateLines hsteady hgiven lines (s := { executor := x }) hrest rfl hfills rfl)]
    exact Outcome.reports_of_results hcompiles _
  refine ⟨f.given (x.budget terms), fun json => ?_, fun moves => ⟨fun results hgathered => ?_, ?_⟩, hbatch,
    fun hstats => ?_, Work.numberedLines_increasing text, fun number json => Work.mem_numberedLines_iff,
    fun ended last hended hlast hcut => ?_⟩
  · exact (hrest.answer_obeyAll hsteady hfills [] ⟨json, filter, terms⟩).trans (hgiven json)
  · rw [gathered?_eq (Service.calls_run_requests x _ moves)
      (fun call hcall answer => answer_of_order hsteady hcache hgiven hcall) hgathered]
    exact Outcome.reports_of_results hcompiles _
  · exact exists_gathered hsteady hcache hgiven lines moves
  · rw [Invocation.run_batch hcommand hx hstats]
    exact hbatch
  · rw [hcut]
    exact Work.linesOf_join hended hlast

/-- The second line is blank, the third has no value, and the last one is no JSON text: its failure has
the number four. -/
theorem batch_is_line_by_line_mixed :
    let w : Surroundings :=
      { contentOf := fun _ => .ok "[7, 8]\n \n[]\nx", stdin := "", environment := [] }
    let i : Invocation := { command := .batch ".[]" "inputs" {} }
    ∃ given : String → Evaluation,
      (i.run w).Reports [(1, "[7, 8]"), (3, "[]"), (4, "x")] given ∧
        (i.run w).stdout = "7\n" ∧ (i.run w).code = 1 := by
  intro w i
  let x : Executor CompiledFilter :=
    { engine := .filters (environmentValue []), config := {}, cache := .empty 100 .stopAtBusy }
  have hx : i.executor w = .ok x := rfl
  have hlines : Work.numberedLines "[7, 8]\n \n[]\nx" = [(1, "[7, 8]"), (3, "[]"), (4, "x")] := by
    decide +kernel
  have hchecked : (CompiledFilter.check ".[]").isOk = true := by decide +kernel
  obtain ⟨f, hcompile⟩ : ∃ f, CompiledFilter.compile (environmentValue []) ⟨".[]", false⟩ = .ok f := by
    rw [CompiledFilter.compile_eq_map]
    cases hcheck : CompiledFilter.check ".[]" with
    | error e =>
      rw [hcheck] at hchecked
      cases hchecked
    | ok body => exact ⟨_, rfl⟩
  obtain ⟨given, -, -, -, hrun, -⟩ :=
    batch_is_line_by_line (i := i) (w := w) (x := x) rfl rfl rfl hx hcompile rfl
  have hreports := hrun rfl
  rw [hlines] at hreports
  exact ⟨given, hreports, by decide +kernel, by decide +kernel⟩

end Cli
end JsonFilter
