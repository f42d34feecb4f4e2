import Mathlib.Data.List.Forall2
import JsonFilter.Proofs.Eval.Termination

/-!
# What a deadline does to a run

Two runs of one filter on one input differ only in when their deadline passes.  Up to the earlier deadline
they are the same.  Behind it the one run passes on a timeout as its next result, if it still has one, and
no construct of the language takes a timeout for a value or for an error to be caught.

## Two consumers

`Cut late early full` compares what two consumers find ahead of them: the first one's deadline passes
first, and `late` says that it has.  From then on the two no longer look at the clock together, so each
may be ahead of the other, and a loop that the one does not go through may be cut off for the other.

* **`cut_compositional`** — every combinator of the evaluation passes the relation on.
* **`Cut.results`** — the first consumer sees what the other sees, up to a timeout.
* **`deadline_truncates`** — so a deadline only cuts a run short.
-/

namespace JsonFilter

open Eval
open Json (Value Outcome)

namespace Eval

/-- The streams ahead of two consumers, the first of which has the earlier deadline; `late` says that this
deadline has passed. -/
inductive Cut : Bool → Outputs → Outputs → Prop
  | exhausted {late : Bool} : Cut late .exhausted .exhausted
  | done {late : Bool} : Cut late .done .done
  | emit {late : Bool} (r : Result) {early full : Unit → Outputs} :
    Cut late (early ()) (full ()) → Cut late (.emit r early) (.emit r full)
  | pause {late : Bool} {early full : Unit → Outputs} :
    Cut late (early ()) (full ()) → Cut late (.pause early) (.pause full)
  /-- Before its deadline the first consumer is not alone. -/
  | check {early full : Bool → Outputs} :
    Cut false (early false) (full false) → (∀ expired, Cut true (early true) (full expired)) →
      Cut false (.check early) (.check full)
  | checkLeft {early : Bool → Outputs} {full : Outputs} :
    Cut true (early true) full → Cut true (.check early) full
  | checkRight {early : Outputs} {full : Bool → Outputs} :
    (∀ expired, Cut true early (full expired)) → Cut true early (.check full)
  | exhaustedLeft {full : Outputs} : Cut true .exhausted full
  | exhaustedRight {early : Outputs} : Cut true early .exhausted
  | timeout {early : Unit → Outputs} {full : Outputs} :
    Cut true (.emit (.error .timeout) early) full

namespace Cut

variable {late : Bool} {early full more more' : Outputs}

/-- The deadline may pass at any time. -/
theorem expire (h : Cut late early full) : Cut true early full := by
  induction h with
  | exhausted => exact .exhausted
  | done => exact .done
  | emit r _ ih => exact .emit r ih
  | pause _ ih => exact .pause ih
  | check _ _ _ ihtrue => exact .checkLeft (.checkRight ihtrue)
  | checkLeft _ ih => exact .checkLeft ih
  | checkRight _ ih => exact .checkRight ih
  | exhaustedLeft => exact .exhaustedLeft
  | exhaustedRight => exact .exhaustedRight
  | timeout => exact .timeout

theorem one (r : Result) : Cut late (.one r) (.one r) := .emit r .done

/-- A look past the deadline gives a timeout. -/
theorem guarded (h : late = false → Cut false early full) :
    Cut late (.guarded fun _ => early) (.guarded fun _ => full) := by
  cases late with
  | false => exact .check (h rfl) fun _ => .timeout
  | true => exact .checkLeft .timeout

/-! ### Combination -/

theorem append (h : Cut late early full) (hmore : Cut late more more') :
    Cut late (early.append fun _ => more) (full.append fun _ => more') := by
  induction h with
  | exhausted => exact .exhausted
  | done => exact .pause hmore
  | emit r _ ih => exact .emit r (ih hmore)
  | pause _ ih => exact .pause (ih hmore)
  | check _ _ ih ihtrue => exact .check (ih hmore) fun expired => ihtrue expired hmore.expire
  | checkLeft _ ih => exact .checkLeft (ih hmore)
  | checkRight _ ih => exact .checkRight fun expired => ih expired hmore
  | exhaustedLeft => exact .exhaustedLeft
  | exhaustedRight => exact .exhaustedRight
  | timeout => exact .timeout

theorem bind {f f' : Value → Outputs} (h : Cut late early full) (hf : ∀ v, Cut late (f v) (f' v)) :
    Cut late (early.bind f) (full.bind f') := by
  induction h with
  | exhausted => exact .exhausted
  | done => exact .done
  | emit r _ ih =>
    cases r with
    | ok v => exact .pause ((hf v).append (ih hf))
    | error e => exact .emit (.error e) (ih hf)
  | pause _ ih => exact .pause (ih hf)
  | check _ _ ih ihtrue => exact .check (ih hf) fun expired => ihtrue expired fun v => (hf v).expire
  | checkLeft _ ih => exact .checkLeft (ih hf)
  | checkRight _ ih => exact .checkRight fun expired => ih expired hf
  | exhaustedLeft => exact .exhaustedLeft
  | exhaustedRight => exact .exhaustedRight
  | timeout => exact .timeout

theorem mapOutcome (f : Value → Outcome Value) (h : Cut late early full) :
    Cut late (early.mapOutcome f) (full.mapOutcome f) := by
  induction h with
  | exhausted => exact .exhausted
  | done => exact .done
  | emit r _ ih =>
    cases r with
    | ok v => exact .emit _ ih
    | error e => exact .emit (.error e) ih
  | pause _ ih => exact .pause ih
  | check _ _ ih ihtrue => exact .check ih ihtrue
  | checkLeft _ ih => exact .checkLeft ih
  | checkRight _ ih => exact .checkRight ih
  | exhaustedLeft => exact .exhaustedLeft
  | exhaustedRight => exact .exhaustedRight
  | timeout => exact .timeout

theorem take_succ (n : Nat) (h : Cut late early full) :
    Cut late (early.take (n + 1)) (full.take (n + 1)) := by
  induction h generalizing n with
  | exhausted => exact .exhausted
  | done => exact .done
  | @emit late r early full _ ih =>
    have hrest : Cut late ((early ()).take n) ((full ()).take n) := by
      cases n with
      | zero => simpa only [Outputs.take_zero] using .done
      | succ n => exact ih n
    exact .emit r hrest
  | pause _ ih => exact .pause (ih n)
  | check _ _ ih ihtrue => exact .check (ih n) fun expired => ihtrue expired n
  | checkLeft _ ih => exact .checkLeft (ih n)
  | checkRight _ ih => exact .checkRight fun expired => ih expired n
  | exhaustedLeft => exact .exhaustedLeft
  | exhaustedRight => exact .exhaustedRight
  | timeout => exact .timeout

theorem take (n : Nat) (h : Cut late early full) : Cut late (early.take n) (full.take n) := by
  cases n with
  | zero => simpa only [Outputs.take_zero] using .done
  | succ n => exact h.take_succ n

theorem checkEach (h : Cut late early full) : Cut late early.checkEach full.checkEach := by
  induction h with
  | exhausted => exact .exhausted
  | done => exact .done
  | @emit late r _ _ _ ih =>
    cases late with
    | false => exact .check (.emit r ih) fun _ => .timeout
    | true => exact .checkLeft .timeout
  | pause _ ih => exact .pause ih
  | check _ _ ih ihtrue => exact .check ih ihtrue
  | checkLeft _ ih => exact .checkLeft ih
  | checkRight _ ih => exact .checkRight ih
  | exhaustedLeft => exact .exhaustedLeft
  | exhaustedRight => exact .exhaustedRight
  | timeout => exact .checkLeft .timeout

theorem catchWith {handler handler' : Value → Outputs} (h : Cut late early full)
    (hhandler : ∀ v, Cut late (handler v) (handler' v)) :
    Cut late (early.catchWith handler) (full.catchWith handler') := by
  induction h with
  | exhausted => exact .exhausted
  | done => exact .done
  | emit r _ ih =>
    match r with
    | .ok v => exact .emit (.ok v) (ih hhandler)
    | .error (.raised v) => exact .pause (hhandler v)
    | .error .timeout => exact one _
  | pause _ ih => exact .pause (ih hhandler)
  | check _ _ ih ihtrue =>
    exact .check (ih hhandler) fun expired => ihtrue expired fun v => (hhandler v).expire
  | checkLeft _ ih => exact .checkLeft (ih hhandler)
  | checkRight _ ih => exact .checkRight fun expired => ih expired hhandler
  | exhaustedLeft => exact .exhaustedLeft
  | exhaustedRight => exact .exhaustedRight
  | timeout => exact .timeout

/-! ### Work done ahead -/

theorem settle_right {next : Outputs → Outputs} (h : ∀ left, Cut true early (next left))
    (full : Outputs) : Cut true early (full.settle next) := by
  induction full with
  | check k ih => exact .checkRight ih
  | exhausted => exact .exhaustedRight
  | _ => exact h _

/-- What is left of two streams after their work ahead may be related behind the deadline. -/
theorem settle {next next' : Outputs → Outputs} (h : Cut late early full)
    (hnext : ∀ late' left left', (late = true → late' = true) → Cut late' left left' →
      Cut late' (next left) (next' left')) :
    Cut late (early.settle next) (full.settle next') := by
  induction h with
  | exhausted => exact .exhausted
  | done => exact hnext _ _ _ id .done
  | emit r h _ => exact hnext _ _ _ id (.emit r h)
  | pause h _ => exact hnext _ _ _ id (.pause h)
  | check _ _ ih ihtrue =>
    refine .check (ih hnext) fun expired => ihtrue expired fun late' left left' hlate => ?_
    exact hnext late' left left' fun _ => hlate rfl
  | checkLeft _ ih => exact .checkLeft (ih hnext)
  | checkRight _ ih => exact .checkRight fun expired => ih expired hnext
  | exhaustedLeft => exact .exhaustedLeft
  | exhaustedRight => exact .exhaustedRight
  | timeout => exact settle_right (fun left => hnext true _ left id .timeout) _

/-! ### Consumption -/

theorem drain {σ : Type} {step step' : σ → Result → σ ⊕ Outputs} {finish finish' : σ → Outputs}
    (h : Cut late early full) (hfinish : ∀ s, Cut late (finish s) (finish' s))
    (hstep : ∀ s r, Sum.LiftRel (· = ·) (Cut late) (step s r) (step' s r))
    (htimeout : ∀ s, step s (.error .timeout) = .inr (.fail .timeout)) (s : σ) :
    Cut late (.drain step finish s early) (.drain step' finish' s full) := by
  have hexpire (late : Bool) (hstep : ∀ s r, Sum.LiftRel (· = ·) (Cut late) (step s r) (step' s r)) :
      ∀ s r, Sum.LiftRel (· = ·) (Cut true) (step s r) (step' s r) :=
    fun s r => (hstep s r).mono (fun _ _ => id) fun _ _ => expire
  induction h generalizing s with
  | exhausted => exact .exhausted
  | done => exact hfinish s
  | emit r _ ih =>
    have hlead := hstep s r
    simp only [Outputs.drain]
    revert hlead
    cases step s r with
    | inl s' =>
      cases step' s r with
      | inl s'' => exact fun hlead => Sum.liftRel_inl_inl.1 hlead ▸ ih hfinish hstep s'
      | inr out => exact fun hlead => absurd hlead Sum.not_liftRel_inl_inr
    | inr out =>
      cases step' s r with
      | inl s'' => exact fun hlead => absurd hlead Sum.not_liftRel_inr_inl
      | inr out' => exact Sum.liftRel_inr_inr.1
  | pause _ ih => exact ih hfinish hstep s
  | check _ _ ih ihtrue =>
    exact .check (ih hfinish hstep s) fun expired =>
      ihtrue expired (fun s => (hfinish s).expire) (hexpire _ hstep) s
  | checkLeft _ ih => exact .checkLeft (ih hfinish hstep s)
  | checkRight _ ih => exact .checkRight fun expired => ih expired hfinish hstep s
  | exhaustedLeft => exact .exhaustedLeft
  | exhaustedRight => exact .exhaustedRight
  | timeout =>
    simp only [Outputs.drain, htimeout]
    exact .timeout

theorem withLast {next next' : Option Value → Outputs} (h : Cut late early full)
    (hnext : ∀ last, Cut late (next last) (next' last)) :
    Cut late (.withLast early next) (.withLast full next') := by
  refine h.drain hnext (fun last r => ?_) ?_ none
  · cases r with
    | ok v => exact .inl rfl
    | error f => exact .inr (one _)
  · exact fun _ => rfl

theorem withFirst {next next' : Option Value → Outputs} (h : Cut late early full)
    (hnext : ∀ first, Cut late (next first) (next' first)) :
    Cut late (.withFirst early next) (.withFirst full next') := by
  refine h.drain (fun _ => hnext none) (fun _ r => ?_) ?_ ()
  · cases r with
    | ok v => exact .inr (hnext (some v))
    | error f => exact .inr (one _)
  · exact fun _ => rfl

theorem fold {update update' : Value → Value → Outputs} {next next' : Value → Outputs}
    (h : Cut late early full) (hupdate : ∀ acc v, Cut late (update acc v) (update' acc v))
    (hnext : ∀ acc, Cut late (next acc) (next' acc)) (acc : Value) :
    Cut late (.fold update next early acc) (.fold update' next' full acc) := by
  induction h generalizing acc with
  | exhausted => exact .exhausted
  | done => exact hnext acc
  | emit r _ ih =>
    cases r with
    | ok v =>
      refine guarded fun hlate => ?_
      subst hlate
      exact (hupdate acc v).withLast fun last => ih hupdate hnext (last.getD .null)
    | error f => exact one _
  | pause _ ih => exact ih hupdate hnext acc
  | check _ _ ih ihtrue =>
    exact .check (ih hupdate hnext acc) fun expired =>
      ihtrue expired (fun acc v => (hupdate acc v).expire) (fun acc => (hnext acc).expire) acc
  | checkLeft _ ih => exact .checkLeft (ih hupdate hnext acc)
  | checkRight _ ih => exact .checkRight fun expired => ih expired hupdate hnext acc
  | exhaustedLeft => exact .exhaustedLeft
  | exhaustedRight => exact .exhaustedRight
  | timeout => exact .timeout

theorem untilFailure (h : Cut late early full) : Cut late early.untilFailure full.untilFailure := by
  induction h with
  | exhausted => exact .exhausted
  | done => exact .done
  | emit r _ ih =>
    cases r with
    | ok v =>
      refine guarded fun hlate => ?_
      subst hlate
      exact .emit (.ok v) ih
    | error f => exact one _
  | pause _ ih => exact .pause ih
  | check _ _ ih ihtrue => exact .check ih ihtrue
  | checkLeft _ ih => exact .checkLeft ih
  | checkRight _ ih => exact .checkRight ih
  | exhaustedLeft => exact .exhaustedLeft
  | exhaustedRight => exact .exhaustedRight
  | timeout => exact .timeout

/-! ### Loops

Before the earlier deadline the two loops have the same number of turns left. -/

theorem countUp (bound current : Binary64) (turns : Nat) :
    Cut false (.countUp bound turns current) (.countUp bound turns current) := by
  induction turns generalizing current with
  | zero => exact .exhausted
  | succ turns ih =>
    simp only [Outputs.countUp]
    split
    · exact .done
    · exact guarded fun _ => .emit _ (ih (current.add .one))

/-- Induction on the turns that the two loops have left together. -/
theorem traverse {step step' : Value → Outputs} (hstep : ∀ v, Cut false (step v) (step' v)) {n n' : Nat}
    (hturns : late = false → n = n') {stack stack' : List Outputs}
    (hstack : List.Forall₂ (Cut late) stack stack') :
    Cut late (.traverse step n stack) (.traverse step' n' stack') := by
  induction hsum : n + n' using Nat.strong_induction_on generalizing late n n' stack stack' with
  | h sum ih =>
  match n, n' with
  | 0, n' =>
    cases late with
    | false =>
      obtain rfl := hturns rfl
      exact .exhausted
    | true => exact .exhaustedLeft
  | n + 1, 0 =>
    cases late with
    | false => cases hturns rfl
    | true => exact .exhaustedRight
  | n + 1, n' + 1 =>
    have hnext : late = false → n = n' := fun hlate => Nat.succ_inj.1 (hturns hlate)
    have hexpire {rest rest' : List Outputs} (h : List.Forall₂ (Cut late) rest rest') :
        List.Forall₂ (Cut true) rest rest' := h.imp fun _ _ => expire
    cases hstack with
    | nil => exact .done
    | cons htop hrest =>
      cases htop with
      | exhausted => exact .exhausted
      | done => exact ih _ (by omega) hnext hrest rfl
      | emit r hbehind =>
        cases r with
        | ok v =>
          refine guarded fun hlate => (hstep v).settle fun late' left left' _ hleft => .emit (.ok v) ?_
          subst hlate
          refine ih _ (by omega) (fun _ => hnext rfl) (.cons hleft ?_) rfl
          cases late' with
          | false => exact .cons hbehind hrest
          | true => exact hexpire (.cons hbehind hrest)
        | error f => exact .emit (.error f) (ih _ (by omega) hnext (.cons hbehind hrest) rfl)
      | pause hahead => exact ih _ (by omega) hnext (.cons hahead hrest) rfl
      | check hfalse htrue =>
        exact .check (ih _ (by omega) hnext (.cons hfalse hrest) rfl) fun expired =>
          ih _ (by omega) (fun _ => hnext rfl) (.cons (htrue expired) (hexpire hrest)) rfl
      | checkLeft hahead =>
        refine .checkLeft (ih _ ?_ ?_ (.cons hahead hrest) rfl)
        · omega
        · exact fun h => by cases h
      | checkRight hahead =>
        refine .checkRight fun expired => ih (n + 1 + n') ?_ ?_ (.cons (hahead expired) hrest) rfl
        · omega
        · exact fun h => by cases h
      | exhaustedLeft => exact .exhaustedLeft
      | exhaustedRight => exact .exhaustedRight
      | timeout => exact .timeout

section

variable {condition condition' update update' : Value → Outputs}
  (hcondition : ∀ v, Cut false (condition v) (condition' v))
  (hupdate : ∀ v, Cut false (update v) (update' v))
include hcondition hupdate

theorem untilTrue (turns : Nat) (state : Value) :
    Cut false (.untilTrue condition update turns state) (.untilTrue condition' update' turns state) := by
  induction turns generalizing state with
  | zero => exact .exhausted
  | succ turns ih =>
    refine guarded fun _ => (hcondition state).withFirst fun first => ?_
    cases first with
    | none => exact .done
    | some holds =>
      dsimp only
      split
      · exact one _
      · refine (hupdate state).withFirst fun first => ?_
        cases first with
        | none => exact .done
        | some next => exact ih next

theorem whileTrue (turns : Nat) (state : Value) :
    Cut false (.whileTrue condition update turns state) (.whileTrue condition' update' turns state) := by
  induction turns generalizing state with
  | zero => exact .exhausted
  | succ turns ih =>
    refine guarded fun _ => (hcondition state).withFirst fun first => ?_
    cases first with
    | none => exact .done
    | some holds =>
      dsimp only
      split
      · refine .emit (.ok state) ((hupdate state).withFirst fun first => ?_)
        cases first with
        | none => exact .done
        | some next => exact ih next
      · exact .done

end

/-! ### Transcripts -/

/-- **The first consumer sees what the other one sees, up to a timeout,** if neither comes to a loop that
is cut off. -/
theorem results (h : Cut late early full) {n m : Nat} (hlate : late = true → n = 0) (hle : n ≤ m)
    (hearly : (early.transcript (.after n)).complete = true)
    (hfull : (full.transcript (.after m)).complete = true) :
    (early.transcript (.after n)).results = (full.transcript (.after m)).results ∨
      ∃ common rest, common <+: (full.transcript (.after m)).results ∧
        (early.transcript (.after n)).results = common ++ .error .timeout :: rest := by
  induction h generalizing n m with
  | exhausted => cases hearly
  | done => exact .inl rfl
  | emit r _ ih =>
    obtain heq | ⟨common, rest, hcommon, heq⟩ := ih hlate hle hearly hfull
    · exact .inl (congrArg (r :: ·) heq)
    · exact .inr ⟨r :: common, rest, List.cons_prefix_cons.2 ⟨rfl, hcommon⟩, congrArg (r :: ·) heq⟩
  | pause _ ih => exact ih hlate hle hearly hfull
  | check _ _ ih ihtrue =>
    -- The next look of the first consumer tells which of the two clocks go on.
    match n, m with
    | 0, 0 => exact ihtrue true (fun _ => rfl) le_rfl hearly hfull
    | 0, m + 1 => exact ihtrue false (fun _ => rfl) (Nat.zero_le m) hearly hfull
    | n + 1, m + 1 => exact ih (fun h => by cases h) (Nat.le_of_succ_le_succ hle) hearly hfull
  | checkLeft _ ih =>
    obtain rfl := hlate rfl
    exact ih hlate hle hearly hfull
  | checkRight _ ih =>
    obtain rfl := hlate rfl
    cases m with
    | zero => exact ih true hlate le_rfl hearly hfull
    | succ m => exact ih false hlate (Nat.zero_le m) hearly hfull
  | exhaustedLeft => cases hearly
  | exhaustedRight => cases hfull
  | timeout => exact .inr ⟨[], _, List.nil_prefix, rfl⟩

end Cut

/-- Every combinator keeps two consumers together up to the earlier deadline. -/
theorem cut_compositional (turns : Nat) :
    Compositional (fun _ : Bool => turns) fun o => Cut false (o false) (o true) where
  done := .done
  emit r _ h := .emit r h
  guarded h := .guarded fun _ => h
  pause h := .pause h
  append ho hmore := ho.append hmore
  bind ho hf := ho.bind hf
  mapOutcome f ho := ho.mapOutcome f
  take n ho := ho.take n
  limit n ho := ho.settle fun _ _ _ _ hleft => (hleft.take n).checkEach
  catchWith ho hhandler := ho.catchWith hhandler
  drain ho hfinish hstep htimeout s := by
    refine ho.drain hfinish (fun s r => ?_) (htimeout false) s
    obtain ⟨s', hs'⟩ | ⟨out, hout, hleave⟩ := (hstep s r).inl_or_inr
    · rw [hs' false, hs' true]
      exact .inl rfl
    · rw [hleave false, hleave true]
      exact .inr hout
  fold ho hupdate hnext acc := ho.fold hupdate hnext acc
  recurseWith hstep v :=
    .pause (.traverse hstep (fun _ => rfl) (.cons (.one (.ok v)) .nil))
  countUp bound start := .countUp bound start turns
  untilTrue hcondition hupdate v := .untilTrue hcondition hupdate turns v
  whileTrue hcondition hupdate v := .whileTrue hcondition hupdate turns v

/-! ### Runs -/

/-- The results of a run that may have been cut short: all results of the full run, or some of its values,
from the first one on, and a timeout. -/
def CutShort (early full : List Result) : Prop :=
  early = full ∨
    ∃ values : List Value, values.map .ok <+: full ∧ early = values.map .ok ++ [.error .timeout]

/-- A run gives values and then at most one failure. -/
theorem untilFailure_results (o : Outputs) (clock : Clock) :
    ∃ values : List Value, ∃ failures : List Failure, failures.length ≤ 1 ∧
      (o.untilFailure.transcript clock).results = values.map .ok ++ failures.map .error := by
  induction o generalizing clock with
  | done => exact ⟨[], [], Nat.zero_le 1, rfl⟩
  | emit r rest ih =>
    cases r with
    | error f => exact ⟨[], [f], le_rfl, rfl⟩
    | ok v =>
      simp only [Outputs.untilFailure, Outputs.guarded, Outputs.transcript]
      split
      · exact ⟨[], [.timeout], le_rfl, rfl⟩
      · obtain ⟨values, failures, hlength, hresults⟩ := ih () clock.look.2
        exact ⟨v :: values, failures, hlength, congrArg ((.ok v : Result) :: ·) hresults⟩
  | check next ih => exact ih _ _
  | pause next ih => exact ih () clock
  | exhausted => exact ⟨[], [], Nat.zero_le 1, rfl⟩

/-- The first failure of a run is its last result. -/
theorem values_of_failure {values : List Value} {failures : List Failure} (hlength : failures.length ≤ 1)
    {common rest : List Result} {f : Failure}
    (h : values.map .ok ++ failures.map .error = common ++ .error f :: rest) :
    common = values.map .ok ∧ rest = [] := by
  induction values generalizing common with
  | nil =>
    match failures, common with
    | [], [] => cases h
    | [], _ :: _ => cases h
    | [g], [] =>
      cases h
      exact ⟨rfl, rfl⟩
    | [g], _ :: common =>
      exact absurd (List.cons.inj h).2 (by simp)
  | cons v values ih =>
    cases common with
    | nil => cases h
    | cons r common =>
      obtain ⟨rfl, htail⟩ := List.cons.inj h
      obtain ⟨rfl, rfl⟩ := ih htail
      exact ⟨rfl, rfl⟩

end Eval

namespace CompiledFilter

variable {environment : Value} {key : FilterKey} {f : CompiledFilter}

/-- Two runs of a compiled filter, the first of which has the earlier deadline. -/
theorem cut_runWithin (h : compile environment key = .ok f) (turns : Nat) (input : Value) :
    Cut false (f.runWithin turns input) (f.runWithin turns input) := by
  obtain ⟨hnames, hcomplete⟩ := compile_resolved h
  exact (eval_compositional (cut_compositional turns) hcomplete hnames
    (Contexts.Fits.empty f.env fun _ => .failWith) input).untilFailure

/-- **A deadline only truncates.**  Of two runs of a compiled filter on one input, whose deadlines pass
after `n` and after `m` looks at the clock, both end, and the one with the earlier deadline gives the
same results as the other, or some of its values, from the first one on, and then a timeout. -/
theorem deadline_truncates (h : compile environment key = .ok f) (input : Value) {n m : Nat}
    (hle : n ≤ m) :
    (∃ turns, ∀ more ≥ turns,
      ((f.runWithin more input).transcript (.after n)).complete = true ∧
        ((f.runWithin more input).transcript (.after m)).complete = true) ∧
    ∀ turns,
      ((f.runWithin turns input).transcript (.after n)).complete = true →
      ((f.runWithin turns input).transcript (.after m)).complete = true →
      CutShort ((f.runWithin turns input).transcript (.after n)).results
        ((f.runWithin turns input).transcript (.after m)).results := by
  refine ⟨?_, fun turns hearly hfull => ?_⟩
  · obtain ⟨t, ht, hearly⟩ := (ends_runWithin h input n).transcript
    obtain ⟨t', ht', hfull⟩ := (ends_runWithin h input m).transcript
    obtain ⟨turns, hturns⟩ := Filter.eventually_atTop.1 (hearly.and hfull)
    refine ⟨turns, fun more hmore => ?_⟩
    obtain ⟨hn, hm⟩ := hturns more hmore
    exact ⟨hn ▸ ht, hm ▸ ht'⟩
  · obtain heq | ⟨common, rest, hcommon, heq⟩ :=
      (cut_runWithin h turns input).results (fun h => by cases h) hle hearly hfull
    · exact .inl heq
    · obtain ⟨values, failures, hlength, hresults⟩ :=
        untilFailure_results (eval f.body (.empty f.env turns) input) (.after n)
      obtain ⟨rfl, rfl⟩ := values_of_failure hlength (hresults.symm.trans heq)
      exact .inr ⟨values, hcommon, heq⟩

/-- A timeout below a limit, a handler, an alternative and a fold. -/
theorem deadline_truncates_constructs :
    ∃ f, compile (.object []) ⟨"[limit(3; repeat(.))], (try error(.) catch .)?, " ++
        "(range(3) // 0), reduce .[]? as $x (0; . + $x)", false⟩ = .ok f ∧ 4 ≤ 40 ∧
      (∃ turns, ∀ more ≥ turns,
        ((f.runWithin more (.ofNat 1)).transcript (.after 4)).complete = true ∧
          ((f.runWithin more (.ofNat 1)).transcript (.after 40)).complete = true) ∧
      ∀ turns,
        ((f.runWithin turns (.ofNat 1)).transcript (.after 4)).complete = true →
        ((f.runWithin turns (.ofNat 1)).transcript (.after 40)).complete = true →
        CutShort ((f.runWithin turns (.ofNat 1)).transcript (.after 4)).results
          ((f.runWithin turns (.ofNat 1)).transcript (.after 40)).results :=
  (exists_ok (by decide +kernel)).imp fun _ hf =>
    ⟨hf, by decide, deadline_truncates hf (.ofNat 1) (by decide)⟩

end CompiledFilter

end JsonFilter
