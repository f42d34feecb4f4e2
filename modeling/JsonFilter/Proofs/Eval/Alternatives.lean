import JsonFilter.Proofs.Eval.Definitions

/-!
# Alternatives

`left // right` gives the true values of `left`, and the results of `right` where there are none.  The first
of these values is known as soon as `left` gives it, but the evaluation goes through all of `left` before it
passes the value on.  So what a consumer gets who wants no more than the first value depends on results of
`left` that it does not want.

## When the first value arrives

* `Yields` — a run gives one value and no more, without a deadline or with a late one.
* **`alternative_waits_for_the_end`** — where `left` halts, `first(left // right)` yields its first true
  value; where it does not, no clock lets a run give a value, and a deadline ends the run in a timeout.
* `alternative_of_endless` — `repeat(1)` gives a true value at once, and `first(repeat(1) // 2)` none.
-/

namespace JsonFilter.Eval

open JsonFilter.Filter Json

/-! ### Streams that yield one value -/

/-- A consumer gets the value and nothing else: without a deadline, and with every deadline that is late
enough. -/
structure Yields (o : Nat → Outputs) (v : Value) : Prop where
  unlimited : Gives o [.ok v]
  late : ∃ looks, ∀ later ≥ looks, ∀ᶠ turns in Filter.atTop,
    ((o turns).transcript (.after later)).results = [.ok v] ∧
      ((o turns).transcript (.after later)).complete = true

/-- A stream that reaches a tree with one value at its end yields this value. -/
theorem Reaches.yields {part : Outputs} {o : Nat → Outputs} (h : Reaches part o) {v : Value}
    (hresults : (part.transcript .unlimited).results = [.ok v])
    (hends : (part.transcript .unlimited).complete = true) : Yields o v := by
  have hunlimited : Gives o [.ok v] := hresults ▸ h.gives hends
  refine ⟨hunlimited, ?_⟩
  obtain ⟨looks, hlate⟩ := h.eventually_late hends
  refine ⟨looks, fun later hlater => ?_⟩
  filter_upwards [hlate later hlater, hunlimited] with turns heq hturns
  rw [heq]
  exact hturns

/-! ### The first value of a run -/

namespace Outputs

/-- A run that wants one value. -/
def firstOf (o : Outputs) : Outputs := (o.take 1).untilFailure

theorem firstOf_emit_ok (v : Value) (rest : Unit → Outputs) :
    (Outputs.emit (.ok v) rest).firstOf = .guarded fun _ => .single v := by
  simp only [firstOf, take, take_zero, untilFailure, single, one]

theorem firstOf_emit_error (f : Failure) (rest : Unit → Outputs) :
    (Outputs.emit (.error f) rest).firstOf = .fail f := by
  simp only [firstOf, take, untilFailure]

theorem firstOf_check (next : Bool → Outputs) :
    (Outputs.check next).firstOf = .check fun expired => (next expired).firstOf := by
  simp only [firstOf, take, untilFailure]

theorem firstOf_guarded (next : Unit → Outputs) :
    (guarded next).firstOf = guarded fun _ => (next ()).firstOf := by
  rw [guarded, firstOf_check, guarded]
  refine congrArg Outputs.check (funext fun expired => ?_)
  cases expired with
  | false => rfl
  | true => exact firstOf_emit_error .timeout _

theorem untilFailure_guarded (next : Unit → Outputs) :
    (guarded next).untilFailure = guarded fun _ => (next ()).untilFailure := by
  rw [guarded, untilFailure, guarded]
  refine congrArg Outputs.check (funext fun expired => ?_)
  cases expired with
  | false => rfl
  | true => rfl

/-! ### What `//` goes through -/

/-- How `//` treats a result of its left side. -/
def keepTruthy (found : List Value) : Result → List Value ⊕ Outputs
  | .ok v => .inl (if v.truthy then v :: found else found)
  | .error (.raised _) => .inl found
  | .error .timeout => .inr (.fail .timeout)

theorem withTruthy_eq_drain (o : Outputs) (next : List Value → Outputs) :
    withTruthy o next = drain keepTruthy (fun found => next found.reverse) [] o := by
  refine congrArg (fun step => drain step _ _ _) (funext fun found => funext fun r => ?_)
  cases r with
  | ok v => rfl
  | error f => cases f <;> rfl

/-- The results that `//` leaves out of its left side: false values and raised errors. -/
def Skipped : Result → Prop
  | .ok v => v.truthy = false
  | .error (.raised _) => True
  | .error .timeout => False

/-- The true values among some results. -/
def truthyValues (results : List Result) : List Value :=
  results.filterMap fun
    | .ok v => if v.truthy then some v else none
    | .error _ => none

theorem truthyValues_append_of_skipped {skipped rest : List Result} (h : ∀ r ∈ skipped, Skipped r) :
    truthyValues (skipped ++ rest) = truthyValues rest := by
  induction skipped with
  | nil => rfl
  | cons r skipped ih =>
    obtain ⟨hr, hskipped⟩ := List.forall_mem_cons.1 h
    cases r with
    | ok v =>
      have hv : v.truthy = false := hr
      simpa [truthyValues, hv] using ih hskipped
    | error f =>
      cases f with
      | raised v => simpa [truthyValues] using ih hskipped
      | timeout => cases hr

theorem truthyValues_ok_cons {v : Value} (hv : v.truthy = true) (rest : List Result) :
    truthyValues (.ok v :: rest) = v :: truthyValues rest := by
  simp [truthyValues, hv]

/-- The left side comes to its end, and `//` goes on with all of its true values. -/
theorem firstOf_drain_of_complete {o : Outputs} (next : List Value → Outputs)
    (hends : (o.transcript .unlimited).complete = true)
    (hclean : .error .timeout ∉ (o.transcript .unlimited).results) (found : List Value) :
    let after := (next (found.reverse ++ truthyValues (o.transcript .unlimited).results)).firstOf
    let all := (drain keepTruthy (fun found => next found.reverse) found o).firstOf
    (all.transcript .unlimited).results = (after.transcript .unlimited).results ∧
      (all.transcript .unlimited).complete = (after.transcript .unlimited).complete := by
  induction o generalizing found with
  | done => simp [drain, transcript, truthyValues]
  | emit r rest ih =>
    simp only [transcript, Transcript.behind, List.mem_cons, not_or] at hends hclean
    obtain ⟨hr, hclean⟩ := hclean
    cases r with
    | ok v =>
      have hrest := ih () hends hclean (if v.truthy then v :: found else found)
      by_cases hv : v.truthy = true
      · simpa [drain, keepTruthy, transcript, Transcript.behind, truthyValues, hv] using hrest
      · simpa [drain, keepTruthy, transcript, Transcript.behind, truthyValues, hv] using hrest
    | error f =>
      cases f with
      | raised v =>
        simpa [drain, keepTruthy, transcript, Transcript.behind, truthyValues] using
          ih () hends hclean found
      | timeout => exact absurd rfl hr
  | check next' ih =>
    rw [drain, firstOf_check]
    exact ih false hends hclean found
  | pause next' ih =>
    rw [drain]
    exact ih () hends hclean found
  | exhausted => cases hends

/-- A run without a value: it is cut off in a loop, or all that it gives is a timeout. -/
def Barren (o : Outputs) (clock : Clock) : Prop :=
  (o.transcript clock).results = [] ∧ (o.transcript clock).complete = false ∨
    (o.transcript clock).results = [.error .timeout]

/-- Past the deadline a run gives no value any more. -/
theorem barren_guarded_late (next : Unit → Outputs) : Barren (guarded next) (.after 0) := .inr rfl

theorem Barren.guarded {next : Unit → Outputs} (h : ∀ clock, Barren (next ()) clock) (clock : Clock) :
    Barren (.guarded next) clock := by
  obtain ⟨_ | _ | looks⟩ := clock
  · exact h .unlimited
  · exact barren_guarded_late next
  · exact h (.after looks)

theorem barren_timeout (clock : Clock) : Barren (fail .timeout) clock := .inr rfl

/-- Past the deadline it does not matter what is still to come of the left side. -/
theorem barren_drain_late {next : List Value → Outputs}
    (hnext : ∀ found, Barren (next found).firstOf (.after 0)) (o : Outputs) (found : List Value) :
    Barren (drain keepTruthy (fun found => next found.reverse) found o).firstOf (.after 0) := by
  induction o generalizing found with
  | done => exact hnext found.reverse
  | emit r rest ih =>
    cases r with
    | ok v => exact ih () _
    | error f =>
      cases f with
      | raised v => exact ih () _
      | timeout => exact barren_timeout _
  | check next' ih =>
    rw [drain, firstOf_check]
    exact ih true found
  | pause next' ih => exact ih () found
  | exhausted => exact .inl ⟨rfl, rfl⟩

/-- Where the left side has no end without a deadline, the end of it is not reached on any clock that
has not run out on the way. -/
theorem barren_drain {o : Outputs} {next : List Value → Outputs}
    (hnext : ∀ found, Barren (next found).firstOf (.after 0))
    (hendless : (o.transcript .unlimited).complete = true →
      .error .timeout ∈ (o.transcript .unlimited).results) (clock : Clock) (found : List Value) :
    Barren (drain keepTruthy (fun found => next found.reverse) found o).firstOf clock := by
  -- Before the deadline the clock changes nothing, so what is said of the stream without one goes on to hold.
  induction o generalizing clock found with
  | done => cases hendless rfl
  | emit r rest ih =>
    cases r with
    | ok v =>
      exact ih () (fun hends => (List.mem_cons.1 (hendless hends)).resolve_left (by simp)) clock _
    | error f =>
      cases f with
      | raised v =>
        exact ih () (fun hends => (List.mem_cons.1 (hendless hends)).resolve_left (by simp)) clock _
      | timeout => exact barren_timeout _
  | check next' ih =>
    rw [drain, firstOf_check]
    obtain ⟨_ | _ | looks⟩ := clock
    · exact ih false hendless .unlimited found
    · exact barren_drain_late hnext (next' true) found
    · exact ih false hendless (.after looks) found
  | pause next' ih => exact ih () hendless clock found
  | exhausted => exact .inl ⟨rfl, rfl⟩

end Outputs

open Outputs

/-! ### `//` under `first` -/

/-- What `//` goes on with once it has gone through its left side. -/
def alternativeResults (right : Expr) (c : Context) (input : Value) (found : List Value) : Outputs :=
  if found.isEmpty then eval right c input else .ofList found

theorem untilFailure_first_alternative (left right : Expr) (span : Span) (c : Context) (input : Value) :
    (eval (.call "first" [.alternative left right] span) c input).untilFailure =
      .guarded fun _ => .guarded fun _ =>
        (drain keepTruthy (fun found => alternativeResults right c input found.reverse) []
          (eval left c input)).firstOf := by
  have hfirst : eval (.call "first" [.alternative left right] span) c input =
      .guarded fun _ => (eval (.alternative left right) c input).take 1 := by
    simp only [eval, evalCall, show Unary.ofName? "first" = some .first from by decide, callUnary]
  have halternative : eval (.alternative left right) c input =
      .guarded fun _ => withTruthy (eval left c input) (alternativeResults right c input) := by
    rw [eval]
    rfl
  rw [hfirst, untilFailure_guarded]
  refine congrArg Outputs.guarded (funext fun _ => ?_)
  change (eval (.alternative left right) c input).firstOf = _
  rw [halternative, firstOf_guarded, withTruthy_eq_drain]

theorem firstOf_alternativeResults_cons (right : Expr) (c : Context) (input v : Value)
    (found : List Value) :
    (alternativeResults right c input (v :: found)).firstOf = .guarded fun _ => .single v :=
  firstOf_emit_ok v _

/-- Past the deadline, neither true values found in time nor the right side give a value. -/
theorem barren_alternativeResults (right : Expr) (c : Context) (input : Value) (found : List Value) :
    Barren (alternativeResults right c input found).firstOf (.after 0) := by
  unfold alternativeResults
  split
  · rw [eval_eq_guarded, firstOf_guarded]
    exact barren_guarded_late _
  · cases found with
    | nil => contradiction
    | cons v found =>
      rw [ofList, firstOf_emit_ok]
      exact barren_guarded_late _

/-- Without an end of the left side no run gives a value. -/
theorem barren_first_alternative {left : Expr} (right : Expr) (span : Span) {c : Context} {input : Value}
    (hendless : ((eval left c input).transcript .unlimited).complete = true →
      .error .timeout ∈ ((eval left c input).transcript .unlimited).results) (clock : Clock) :
    Barren (eval (.call "first" [.alternative left right] span) c input).untilFailure clock := by
  rw [untilFailure_first_alternative]
  refine .guarded (fun clock => .guarded (fun clock => ?_) clock) clock
  exact barren_drain (barren_alternativeResults right c input) hendless clock []

section

variable {left right : Expr} {s : Scope} {C : Contexts Nat id} (hC : C.Arises s)
include hC

/-- What the trees of a stream that halts show begins its results. -/
theorem exists_last_tree (hcomplete : left.Complete) (hnames : s.undefined left = []) {input : Value}
    (hhalts : Halts fun turns => eval left (C.get turns) input) :
    ∃ turns, ((eval left (C.get turns) input).transcript .unlimited).complete = true ∧
      .error .timeout ∉ ((eval left (C.get turns) input).transcript .unlimited).results ∧
      ∀ reached, ((eval left (C.get reached) input).transcript .unlimited).results <+:
        ((eval left (C.get turns) input).transcript .unlimited).results := by
  obtain ⟨turns, hends, hclean⟩ := hhalts
  refine ⟨turns, hends, hclean, fun reached => ?_⟩
  have hreaches n := (eval_reaches hC.fits hcomplete hnames input n).eventually_results
  obtain ⟨more, hreached, hturns⟩ := ((hreaches reached).and (hreaches turns)).exists
  rw [← (hturns.2 hends).2]
  exact hreached.1

/-- **`//` waits for the end of its left side.**  Let the left side come to a true value behind false values
and raised errors.  If the left side halts, `first(left // right)` yields this value.  If it does not, no run
gives a value, on whatever clock, and with a deadline, wherever it is, every run ends in a timeout. -/
theorem alternative_waits_for_the_end (hcomplete : (Expr.alternative left right).Complete)
    (hnames : s.undefined (.alternative left right) = []) (input : Value) (span : Span) {reached : Nat}
    {skipped rest : List Result} {v : Value}
    (hreached : ((eval left (C.get reached) input).transcript .unlimited).results =
      skipped ++ .ok v :: rest)
    (hskipped : ∀ r ∈ skipped, Skipped r) (hv : v.truthy = true) :
    let run turns :=
      (eval (.call "first" [.alternative left right] span) (C.get turns) input).untilFailure
    ((Halts fun turns => eval left (C.get turns) input) → Yields run v) ∧
      ((¬ Halts fun turns => eval left (C.get turns) input) →
        (∀ clock turns, ((run turns).transcript clock).results = [] ∨
          ((run turns).transcript clock).results = [.error .timeout]) ∧
        ∀ looks, ∀ᶠ turns in Filter.atTop,
          ((run turns).transcript (.after looks)).results = [.error .timeout]) := by
  intro run
  obtain ⟨hleft, hright⟩ := List.append_eq_nil_iff.1 hnames
  have hcallComplete : (Expr.call "first" [.alternative left right] span).Complete :=
    .ofParts trivial (by simpa [Expr.parts] using hcomplete)
  have hcallNames : s.undefined (.call "first" [.alternative left right] span) = [] := by
    simp [Scope.undefined, Scope.undefinedAll, Scope.callErrors, Scope.hasFunction, hleft, hright]
    decide
  have hrun turns : run turns = _ := untilFailure_first_alternative left right span (C.get turns) input
  constructor
  · intro hhalts
    -- A tree with all of the left side begins with whatever another one has shown of it.
    obtain ⟨turns, hends, hclean, hprefix⟩ :=
      exists_last_tree hC (hcomplete.part (by simp [Expr.parts])) hleft hhalts
    obtain ⟨behind, hresults⟩ := hprefix reached
    rw [hreached] at hresults
    have hfound : truthyValues ((eval left (C.get turns) input).transcript .unlimited).results =
        v :: truthyValues (rest ++ behind) := by
      rw [← hresults, List.append_assoc, List.cons_append, truthyValues_append_of_skipped hskipped,
        truthyValues_ok_cons hv]
    obtain ⟨hshown, hcompleted⟩ := firstOf_drain_of_complete
      (alternativeResults right (C.get turns) input) hends hclean []
    rw [List.reverse_nil, List.nil_append, hfound, firstOf_alternativeResults_cons] at hshown hcompleted
    have hreaches : Reaches (run turns) run :=
      (eval_reaches hC.fits hcallComplete hcallNames input turns).untilFailure
    refine hreaches.yields ?_ ?_
    · rw [hrun]
      exact hshown
    · rw [hrun]
      exact hcompleted
  · intro hendless
    have hbarren clock turns : Barren (run turns) clock := by
      refine barren_first_alternative right span (fun hends => ?_) clock
      by_contra hclean
      exact hendless ⟨turns, hends, hclean⟩
    refine ⟨fun clock turns => (hbarren clock turns).imp And.left id, fun looks => ?_⟩
    obtain ⟨t, ht, hturns⟩ := (eval_compositional ends_compositional hcallComplete hcallNames
      (hC.fits_of_compositional ends_compositional) input looks).untilFailure.transcript
    filter_upwards [hturns] with turns heq
    refine (hbarren (.after looks) turns).resolve_left fun hcut => ?_
    have hlast := hcut.2
    rw [heq, ht] at hlast
    cases hlast

end

/-- `first((null, error, "a", $x) // .)`, where `$x` is bound. -/
theorem alternative_waits_for_the_end_finite :
    let left : Expr := .comma (.literal .null) (.comma (.call "error" [] (.point 0))
      (.comma (.literal (.string "a")) (.variable "x" (.point 0))))
    let C := (Contexts.empty id .null fun _ => .failWith).bind "x" (.bool true)
    Yields (fun turns => (eval (.call "first" [.alternative left .identity] (.point 0)) (C.get turns)
      (.string "e")).untilFailure) (.string "a") := by
  intro left C
  have hC : C.Arises (Scope.empty.bind "x") := .bind "x" (.bool true) (.empty .null)
  have hcomplete : (Expr.alternative left .identity).Complete := by
    simp [Expr.Complete, Expr.Everywhere.iff_forall_parts, Expr.parts, Expr.KeysHaveValues, left]
  have hreached : ((eval left (C.get 0) (.string "e")).transcript .unlimited).results =
      [.ok .null, .error (.raised (.string "e"))] ++ .ok (.string "a") :: [.ok (.bool true)] := by
    rfl
  have hskipped : ∀ r ∈ [.ok .null, .error (.raised (.string "e"))], Skipped r := by
    simp [Skipped, Value.truthy]
  have hwaits := alternative_waits_for_the_end hC hcomplete (by decide) (.string "e") (.point 0)
    hreached hskipped rfl
  refine hwaits.1 ⟨0, rfl, ?_⟩
  rw [hreached]
  simp

/-! ### An endless left side -/

/-- A traversal in which every value leads to another one is cut off, however many turns it has. -/
theorem traverse_endless {step : Value → Outputs}
    (hstep : ∀ v, ∃ w rest, step v = .guarded fun _ => .emit (.ok w) rest) (n : Nat) (v : Value)
    (rest : Unit → Outputs) (stack : List Outputs) :
    ((Outputs.traverse step n (.emit (.ok v) rest :: stack)).transcript .unlimited).complete = false := by
  induction n generalizing v rest stack with
  | zero => rfl
  | succ n ih =>
    obtain ⟨w, inner, hw⟩ := hstep v
    rw [Outputs.traverse, hw]
    exact ih w inner (rest () :: stack)

/-- `repeat(c)` with a constant `c` has no end. -/
theorem repeat_constant_endless (value : Literal) (span : Span) (c : Context) (input : Value) :
    ((eval (.call "repeat" [.literal value] span) c input).transcript .unlimited).complete = false := by
  simp only [eval, evalCall, show Unary.ofName? "repeat" = some .repeat from by decide, callUnary]
  exact traverse_endless (fun v => ⟨literalValue value, fun _ => .done, rfl⟩) c.budget input _ []

/-- The second result of `repeat(1)` is a true value, and no run of `first(repeat(1) // 2)` gives one. -/
theorem alternative_of_endless :
    let left : Expr := .call "repeat" [.literal (.number .one)] (.point 0)
    let C := Contexts.empty id .null fun _ => .failWith
    let run turns := (eval (.call "first" [.alternative left (.literal (.number (.ofInt 2)))] (.point 0))
      (C.get turns) .null).untilFailure
    C.Arises .empty ∧
      ((eval left (C.get 2) .null).transcript .unlimited).results = [.ok .null, .ok (.ofNat 1)] ∧
      (Value.ofNat 1).truthy = true ∧ ¬ Yields run (.ofNat 1) := by
  intro left C run
  refine ⟨.empty .null, rfl, rfl, fun hyields => ?_⟩
  obtain ⟨turns, hresults, -⟩ := hyields.unlimited.exists
  have hbarren : Barren (run turns) .unlimited :=
    barren_first_alternative _ _ (fun hends => absurd hends (by simp [left, repeat_constant_endless]))
      .unlimited
  rcases hbarren with ⟨hnone, -⟩ | htimeout
  · rw [hresults] at hnone
    cases hnone
  · rw [hresults] at htimeout
    cases htimeout

end JsonFilter.Eval
