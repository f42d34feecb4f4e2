import JsonFilter.Cli.Run
import JsonFilter.Proofs.Executor.HandOff
import JsonFilter.Proofs.Executor.OnWorkers
import JsonFilter.Proofs.Numeric.Durations

/-!
# Time budgets beyond the clock

A time budget comes from the command line, from the environment or from the settings, and each of the
three has its own test.  The command line wants a finite number of seconds above zero and turns it into a
duration unasked, the environment asks for a duration that is not zero, and the settings only ask that it
is not zero.  A duration may have almost `2 ^ 64` seconds.  A clock counts up to `2 ^ 63` of them, and
nobody compares the two before the clock is set.

* `Duration.exists_overlong_iff` — which numbers of seconds no clock can be set to.
* `Engine.fresh_eq_error_iff` — a fresh evaluation crashes where its clock cannot be set.
* **`time_budgets_that_crash`** — what each of the three accepts, and that of all evaluations exactly those
  crash that get as far as a clock which cannot be set.
* **`accepted_timeout_crashes`** — a timeout that passes every test and crashes the first evaluation.
-/

namespace JsonFilter

open Cache
open Json (Value)

/-! ### Time beyond all clocks -/

namespace Duration

/-- Time that no clock can be set to: there are too many seconds in it. -/
def Overlong (d : Duration) : Prop := Executor.clockLimit ≤ d.nanoseconds / perSecond

instance (d : Duration) : Decidable d.Overlong :=
  inferInstanceAs (Decidable (_ ≤ _))

/-- Seconds above zero are too long for a clock from half a nanosecond below `2 ^ 63` of them on. -/
theorem exists_overlong_iff {x : Finite64} (hx : 0 < x.value) (hshort : x.value < 2 ^ 64) :
    ∃ d, ofSeconds (.finite x) = .ok d ∧ (d = .zero ↔ x.value ≤ halfNanosecond) ∧
      (d.Overlong ↔ 2 ^ 63 ≤ x.value + halfNanosecond) := by
  obtain ⟨d, hd, hzero, hreached⟩ := ofSeconds_eq_ok hx hshort
  have hunit : 0 < perSecond := by decide
  have heven : Executor.clockLimit * perSecond % 2 = 0 := by decide +kernel
  have hseconds : ((Executor.clockLimit * perSecond : Nat) : ℚ) / perSecond = 2 ^ 63 := by
    rw [Nat.cast_mul, mul_div_cancel_right₀ _ perSecond_pos.ne']
    exact_mod_cast rfl
  refine ⟨d, hd, hzero, ?_⟩
  rw [Overlong, Nat.le_div_iff_mul_le hunit, hreached _ heven, hseconds]

end Duration

/-! ### Where time budgets come from -/

/-- **A timeout of the command line** is refused unless it is above zero and finite.  One of `2 ^ 64`
seconds or more crashes the command, and any other is a time budget. -/
theorem Cli.Work.run_terms (seconds : Binary64) (enableEnv : Bool) (shell : Cli.Shell) :
    let outcome := ((Cli.Work.terms { timeout := some seconds, enableEnv }).run.run shell).1
    ((∀ x, seconds = .finite x → x.value ≤ 0) → outcome =
      .error (.error s!"--timeout must be a positive number of seconds, got {seconds.plainText}" none)) ∧
    ∀ x, seconds = .finite x → 0 < x.value →
      (2 ^ 64 ≤ x.value → outcome =
        .error (.crashed "cannot convert float seconds to Duration: value is either too big or NaN")) ∧
      (x.value < 2 ^ 64 → ∃ d, outcome = .ok { timeout := some d, enableEnv } ∧
        (d.Overlong ↔ 2 ^ 63 ≤ x.value + Duration.halfNanosecond)) := by
  intro outcome
  have hzero : (Finite64.zero false).value = 0 := Finite64.value_zero false
  refine ⟨fun hnone => ?_, ?_⟩
  · have hrefused : (!seconds.isFinite || seconds.le .zero) = true := by
      cases seconds with
      | finite x =>
        have hle := (Binary64.le_finite_iff x (.zero false)).2 (hzero ▸ hnone x rfl)
        rw [Binary64.zero, hle, Bool.or_true]
      | _ => rfl
    show ((Cli.Work.terms _).run.run shell).1 = _
    simp only [Cli.Work.terms, hrefused, if_true]
    rfl
  · rintro x rfl hx
    have hle : (Binary64.finite x).le .zero = false := by
      rw [← Bool.not_eq_true, Binary64.zero, Binary64.le_finite_iff, hzero]
      exact not_le.2 hx
    have hterms : (!(Binary64.finite x).isFinite || (Binary64.finite x).le .zero) = false := by
      rw [hle]
      rfl
    refine ⟨fun hlong => ?_, fun hshort => ?_⟩
    · show ((Cli.Work.terms _).run.run shell).1 = _
      simp only [Cli.Work.terms, hterms, Duration.ofSeconds_eq_error hlong]
      rfl
    · obtain ⟨d, hd, -, hoverlong⟩ := Duration.exists_overlong_iff hx hshort
      refine ⟨d, ?_, hoverlong⟩
      show ((Cli.Work.terms _).run.run shell).1 = _
      simp only [Cli.Work.terms, hterms, hd]
      rfl

/-- **A timeout of the environment** is accepted if it is a number of less than `2 ^ 64` seconds that is
not rounded to nothing.  Every other text is refused. -/
theorem readSeconds_ok_or_refused (key text : String) :
    let number? := Binary64.ofText? (.ofList (Text.trim text.toList))
    (∀ x, number? = some (.finite x) → Duration.halfNanosecond < x.value → x.value < 2 ^ 64 →
      ∃ d, readSeconds key text = .ok d ∧ d ≠ .zero ∧
        (d.Overlong ↔ 2 ^ 63 ≤ x.value + Duration.halfNanosecond)) ∧
    ((¬∃ x, number? = some (.finite x) ∧ Duration.halfNanosecond < x.value ∧ x.value < 2 ^ 64) →
      ∃ reason, readSeconds key text = .error ⟨key, text, reason⟩) := by
  intro number?
  have hhalf := Duration.halfNanosecond_pos
  constructor
  · intro x hnumber hlow hhigh
    obtain ⟨d, hd, hzero, hoverlong⟩ := Duration.exists_overlong_iff (hhalf.trans hlow) hhigh
    have hnonzero : d ≠ .zero := mt hzero.1 (not_le.2 hlow)
    refine ⟨d, ?_, hnonzero, hoverlong⟩
    unfold readSeconds
    simp only [number?] at hnumber
    simp only [hnumber, hd, if_neg hnonzero]
  · intro hnone
    unfold readSeconds
    cases hnumber : number? with
    | none =>
      simp only [number?] at hnumber
      simp only [hnumber]
      exact ⟨_, rfl⟩
    | some seconds =>
      have hrefused := Duration.ofSeconds_of_refused fun x hx hlow hhigh =>
        hnone ⟨x, hnumber.trans (congrArg some hx), hlow, hhigh⟩
      simp only [number?] at hnumber
      simp only [hnumber]
      rcases hrefused with hzero | ⟨fault, hfault⟩
      · simp only [hzero, if_true]
        exact ⟨_, rfl⟩
      · simp only [hfault]
        exact ⟨_, rfl⟩

/-- Settings that can be used can be used with any default timeout but none at all. -/
theorem Config.validate_defaultTimeout {c : Config} (hc : c.validate = .ok ()) (d : Duration) :
    { c with defaultTimeout := some d }.validate = .ok () ↔ d ≠ .zero := by
  rw [validate] at hc ⊢
  split_ifs at hc with hcapacity hworkers hleast htimeout
  rw [if_neg hcapacity, if_neg hworkers, if_neg hleast]
  split_ifs with hzero
  · exact iff_of_false nofun fun h => h (Option.some.inj hzero)
  · exact iff_of_true rfl fun h => hzero (congrArg some h)

/-- An executor keeps the settings that it was given, and they can be used. -/
theorem Executor.config_of_create {P : Type} {engine : Engine P} {config : Config} {x : Executor P}
    (hx : create engine config = .ok x) : config.validate = .ok () ∧ x.config = config := by
  unfold create at hx
  cases hvalid : config.validate with
  | error e =>
    rw [hvalid] at hx
    cases hx
  | ok valid =>
    rw [hvalid] at hx
    cases hx
    exact ⟨rfl, rfl⟩

/-! ### Where they are spent -/

section Evaluations

variable {environment : Value} {r : Request} {budget : Option Duration}

/-- An evaluation gets as far as its clock: the filter compiles and the input can be read. -/
def Request.GetsToRun (environment : Value) (r : Request) : Prop :=
  (∃ f, CompiledFilter.compile environment r.key = .ok f) ∧ ∃ input, Value.ofText r.json = .ok input

theorem Executor.clockFault?_cases (budget : Option Duration) :
    (∃ d, budget = some d ∧ d.Overlong ∧
      clockFault? budget = some "overflow when adding duration to instant") ∨
    ((∀ d, budget = some d → ¬d.Overlong) ∧ clockFault? budget = none) := by
  cases budget with
  | none => exact .inr ⟨nofun, rfl⟩
  | some d =>
    rw [clockFault?]
    split_ifs with hoverlong
    · exact .inl ⟨d, rfl, hoverlong, rfl⟩
    · refine .inr ⟨fun d' hd => ?_, rfl⟩
      cases hd
      exact hoverlong

/-- **A fresh evaluation crashes** where its clock cannot be set, and nowhere else. -/
theorem Engine.fresh_eq_error_iff {interruption : Interruption} :
    (Engine.filters environment).fresh r.json r.key budget = .error interruption ↔
      interruption = .crashed "overflow when adding duration to instant" ∧
        r.GetsToRun environment ∧ ∃ d, budget = some d ∧ d.Overlong := by
  have hcompile : (Engine.filters environment).compile r.key =
      CompiledFilter.compile environment r.key := rfl
  unfold fresh Request.GetsToRun
  rw [hcompile]
  cases CompiledFilter.compile environment r.key with
  | error e => simp
  | ok f =>
    cases Value.ofText r.json with
    | error e => simp
    | ok input =>
      unfold Executor.drive
      rcases Executor.clockFault?_cases budget with ⟨d, hd, hoverlong, hfault⟩ | ⟨hshort, hfault⟩
      · rw [hfault]
        refine ⟨fun h => ?_, ?_⟩
        · cases h
          exact ⟨rfl, ⟨⟨f, rfl⟩, input, rfl⟩, d, hd, hoverlong⟩
        · rintro ⟨rfl, -, -⟩
          rfl
      · rw [hfault]
        refine ⟨fun h => (by cases h), ?_⟩
        rintro ⟨-, -, d, hd, hoverlong⟩
        exact absurd hoverlong (hshort d hd)

end Evaluations

/-- What a client of a worker sees of an answer: a crash is reported as an error. -/
def Answer.reported : Answer → Answer
  | .error (.crashed message) => .ok (.error (Executor.crashReport message))
  | answer => answer

/-- An evaluation on a worker gives what one on the spot gives, with crashes reported. -/
theorem Executor.run_evaluateOnWorker_fst {P : Type} (json filter : String) (terms : Terms)
    (x : Executor P) :
    ((evaluateOnWorker json filter terms).run.run x).1 =
      Answer.reported ((evaluate json filter terms).run.run x).1 := by
  have hspawn : (modify (fun x => { x with tasks := x.tasks.spawn }) : Session P Unit).run.run x =
      (.ok (), x.counting x.tasks.spawn) := rfl
  unfold evaluateOnWorker
  rw [run_bind, hspawn]
  dsimp only
  rw [run_bind, run_tryCatch, run_evaluate_counting]
  rcases (evaluate json filter terms).run.run x with ⟨(message | -) | evaluation, y⟩ <;> rfl

/-- **Which time budgets crash.**  A finite timeout above zero on the command line crashes the command if it
has `2 ^ 64` seconds or more, and otherwise it is a time budget.  A text in the environment is refused, or
it is one, and settings can be used with any default timeout but zero.  None of the three looks at the
clock.  So evaluations meet budgets of `2 ^ 63` seconds and more, when they are rounded to nanoseconds.

On an executor that is shared with other requests, in any interleaving, an evaluation crashes exactly if
it has such a budget, its own or the default one, and gets as far as its clock: the filter compiles and
the input can be read.  On a worker the crash is reported as an error. -/
theorem time_budgets_that_crash {environment : Value} {config : Config} {x : Executor CompiledFilter}
    (hx : Executor.create (.filters environment) config = .ok x) (requests : List Request)
    (moves : List Move) :
    let w := (Service.start x requests).run moves
    let crashes (r : Request) (i : Interruption) : Prop :=
      i = .crashed "overflow when adding duration to instant" ∧ r.GetsToRun environment ∧
        ∃ d, (r.terms.timeout <|> config.defaultTimeout) = some d ∧ d.Overlong
    (∀ (seconds : Binary64) (enableEnv : Bool) (shell : Cli.Shell),
      let outcome := ((Cli.Work.terms { timeout := some seconds, enableEnv }).run.run shell).1
      ((∀ n, seconds = .finite n → n.value ≤ 0) → outcome =
        .error (.error s!"--timeout must be a positive number of seconds, got {seconds.plainText}" none)) ∧
      ∀ n, seconds = .finite n → 0 < n.value →
        (2 ^ 64 ≤ n.value → outcome =
          .error (.crashed "cannot convert float seconds to Duration: value is either too big or NaN")) ∧
        (n.value < 2 ^ 64 → ∃ d, outcome = .ok { timeout := some d, enableEnv } ∧
          (d.Overlong ↔ 2 ^ 63 ≤ n.value + Duration.halfNanosecond))) ∧
    (∀ key text : String,
      let number? := Binary64.ofText? (.ofList (Text.trim text.toList))
      (∀ n, number? = some (.finite n) → Duration.halfNanosecond < n.value → n.value < 2 ^ 64 →
        ∃ d, readSeconds key text = .ok d ∧ d ≠ .zero ∧
          (d.Overlong ↔ 2 ^ 63 ≤ n.value + Duration.halfNanosecond)) ∧
      ((¬∃ n, number? = some (.finite n) ∧ Duration.halfNanosecond < n.value ∧ n.value < 2 ^ 64) →
        ∃ reason, readSeconds key text = .error ⟨key, text, reason⟩)) ∧
    (∀ d, { config with defaultTimeout := some d }.validate = .ok () ↔ d ≠ .zero) ∧
    (drivenOf (Service.holdingsOf w.calls) = [] → ∀ r : Request,
      let answer : Answer := ((Executor.evaluate r.json r.filter r.terms).run.run w.executor).1
      (∀ i, answer = .error i ↔ crashes r i) ∧
      ((Executor.evaluateOnWorker r.json r.filter r.terms).run.run w.executor).1 = answer.reported) ∧
    (∀ r answer, ⟨r, .finished answer⟩ ∈ w.calls → ∀ i, answer = .error i ↔ crashes r i) := by
  intro w crashes
  obtain ⟨hengine, capacity, policy, hcache⟩ := Executor.create_eq_ok hx
  obtain ⟨hvalid, hconfig⟩ := Executor.config_of_create hx
  have hsteady := Engine.filters_steady environment
  have hfresh : ∀ (r : Request) i, (Engine.filters environment).fresh r.json r.key (x.budget r.terms) =
      .error i ↔ crashes r i := by
    intro r i
    rw [Executor.budget, hconfig]
    exact Engine.fresh_eq_error_iff
  refine ⟨Cli.Work.run_terms, readSeconds_ok_or_refused, Config.validate_defaultTimeout hvalid,
    fun hfree r => ?_, fun r answer hcall i => ?_⟩
  · intro answer
    have hanswer : answer = _ := Executor.run_evaluate_fst hsteady hx requests moves hfree r
    rw [hanswer]
    refine ⟨hfresh r, ?_⟩
    rw [Executor.run_evaluateOnWorker_fst]
    exact congrArg Answer.reported hanswer
  · have hanswer := Service.answer_eq_fresh (hengine ▸ hsteady) hcache hcall
    rw [hengine] at hanswer
    rw [show answer = _ from hanswer]
    exact hfresh r i

/-- The identity gets as far as its clock on null. -/
theorem Request.getsToRun_identity (environment : Value) (terms : Terms) :
    Request.GetsToRun environment ⟨"null", ".", terms⟩ := by
  obtain ⟨f, hf, -⟩ := CompiledFilter.exists_compile environment (Executor.keyOf "." terms)
    isIdentity_check
  have htext : Value.null.compact = "null" := by decide +kernel
  have hinput : Value.ofText "null" = .ok .null := htext ▸ Value.ofText_compact_null
  exact ⟨⟨f, hf⟩, .null, hinput⟩

/-- Ten to the nineteenth seconds are a default timeout, and with it the identity crashes on null; ten
times as many crash the command line. -/
theorem time_budgets_that_crash_many_seconds :
    let d : Duration := ⟨10 ^ 19 * 10 ^ 9⟩
    let config : Config := { defaultTimeout := some d }
    let x : Executor CompiledFilter :=
      { engine := .filters (.object []), config, cache := .empty 100 .stopAtBusy }
    let w := (Service.start x [⟨"2", ".", {}⟩]).run [.advance 0]
    let many : Finite64 := ⟨false, 4882812500000000, 11⟩
    let more : Finite64 := ⟨false, 6103515625000000, 14⟩
    d.Overlong ∧ many.value = 10 ^ 19 ∧ more.value = 10 ^ 20 ∧
    (∀ shell, ((Cli.Work.terms { timeout := some (.finite more) }).run.run shell).1 =
      .error (.crashed "cannot convert float seconds to Duration: value is either too big or NaN")) ∧
    Binary64.ofText? (.ofList (Text.trim " 1e19".toList)) = some (.finite many) ∧
    (∃ d, readSeconds "JQEXEC_TIMEOUT_SECS" " 1e19" = .ok d ∧ d.Overlong) ∧
    ((Executor.evaluate "null" "." {}).run.run w.executor).1 =
      .error (.crashed "overflow when adding duration to instant") := by
  intro d config x w many more
  have hoverlong : d.Overlong := by decide +kernel
  have hmany : many.value = 10 ^ 19 := by norm_num [Finite64.value, Finite64.signedSignificand, many]
  have hmore : more.value = 10 ^ 20 := by norm_num [Finite64.value, Finite64.signedSignificand, more]
  have hnumber : Binary64.ofText? (.ofList (Text.trim " 1e19".toList)) = some (.finite many) := by
    decide +kernel
  have hhalf : Duration.halfNanosecond < many.value := by
    have hunit : (Duration.perSecond : ℚ) = 10 ^ 9 := by exact_mod_cast (by decide +kernel)
    rw [hmany, Duration.halfNanosecond, hunit]
    norm_num
  have hx : Executor.create (.filters (.object [])) config = .ok x := rfl
  obtain ⟨hterms, hread, -, hfree, -⟩ := time_budgets_that_crash hx [⟨"2", ".", {}⟩] [.advance 0]
  obtain ⟨seconds, hseconds, -, hlong⟩ :=
    (hread "JQEXEC_TIMEOUT_SECS" " 1e19").1 many hnumber hhalf (by rw [hmany]; norm_num)
  have hbeyond : (2 : ℚ) ^ 63 ≤ many.value + Duration.halfNanosecond := by
    have hpos := Duration.halfNanosecond_pos
    rw [hmany]
    linarith
  refine ⟨hoverlong, hmany, hmore, fun shell => ?_, hnumber, ⟨seconds, hseconds, hlong.2 hbeyond⟩, ?_⟩
  · exact ((hterms (.finite more) false shell).2 more rfl (by rw [hmore]; norm_num)).1
      (by rw [hmore]; norm_num)
  · exact ((hfree rfl ⟨"null", ".", {}⟩).1 _).2
      ⟨rfl, Request.getsToRun_identity _ {}, d, rfl, hoverlong⟩

/-- **An accepted timeout that crashes.**  The environment sets ten to the nineteenth seconds, the settings
with them can be used, and the first evaluation on an executor with these settings crashes. -/
theorem accepted_timeout_crashes :
    let lookup : String → Option String :=
      fun key => if key = "JQEXEC_TIMEOUT_SECS" then some "1e19" else none
    let config : Config := { defaultTimeout := some ⟨10 ^ 19 * 10 ^ 9⟩ }
    let x : Executor CompiledFilter :=
      { engine := .filters (.object []), config, cache := .empty 100 .stopAtBusy }
    Config.withEnvironment {} lookup = .ok config ∧ config.validate = .ok () ∧
      Executor.create (.filters (.object [])) config = .ok x ∧
      ((Executor.evaluate "null" "." {}).run.run x).1 =
        .error (.crashed "overflow when adding duration to instant") := by
  intro lookup config x
  have hsettings : Config.withEnvironment {} lookup = .ok config := by decide +kernel
  have hx : Executor.create (.filters (.object [])) config = .ok x := rfl
  refine ⟨hsettings, rfl, hx, ?_⟩
  have hanswer := Executor.run_evaluate_fst (Engine.filters_steady (.object [])) hx [] [] rfl
    ⟨"null", ".", {}⟩
  exact hanswer.trans (Engine.fresh_eq_error_iff.2
    ⟨rfl, Request.getsToRun_identity _ {}, _, rfl, by decide +kernel⟩)

end JsonFilter
