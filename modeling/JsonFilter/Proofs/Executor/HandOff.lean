import JsonFilter.Proofs.Executor.Lenient
import JsonFilter.Proofs.Filter.Printing
import JsonFilter.Proofs.Json.ReadBack
import Mathlib.Algebra.Group.Int.Defs
import Mathlib.Algebra.Group.Nat.Defs

/-!
# Values handed over as text

An executor takes and gives texts.  Who has a value writes it, and the executor reads it again before it
runs anything, so that a value goes through its text once in a lenient evaluation and twice through a filter
that writes and reads.  Nothing is lost on the way.

The identity still has a clock to obey.  It looks at the time before it begins and before it gives its
value out, and when the time is over it has no value; a lenient evaluation gives null then, which is not
the value that was handed over (`lenient_identity_out_of_time`).

* **`handed_over_and_back`** — reading what was written, writing and reading in a filter, and the identity
  in a lenient evaluation.
-/

namespace JsonFilter

open Cache
open Json (Value)
open JsonFilter.Filter (Expr Nullary)
open Eval (Clock Context Outputs)

/-! ### The two filters -/

theorem Filter.Expr.eq_identity {e : Expr} (h : e.isIdentity = true) : e = .identity := by
  unfold isIdentity at h
  split at h
  · rfl
  · cases h

/-- A filter that writes its input and reads what it has written. -/
def Filter.Expr.isRoundTrip : Expr → Bool
  | .pipe (.call "tojson" [] _) (.call "fromjson" [] _) => true
  | _ => false

/-- A filter whose tree passes a test compiles to a program with such a tree. -/
theorem CompiledFilter.exists_compile {test : Expr → Bool} (environment : Value) (key : FilterKey)
    (h : (check key.source).toOption.any test = true) :
    ∃ f, compile environment key = .ok f ∧ test f.body = true := by
  unfold compile
  cases hcheck : check key.source with
  | error e =>
    rw [hcheck] at h
    cases h
  | ok body =>
    rw [hcheck] at h
    exact ⟨_, rfl, h⟩

theorem isIdentity_check : (CompiledFilter.check ".").toOption.any Expr.isIdentity = true := by
  decide +kernel

theorem isRoundTrip_check :
    (CompiledFilter.check "tojson | fromjson").toOption.any Expr.isRoundTrip = true := by
  decide +kernel

/-- The first value of the identity is its input, unless the time is over. -/
theorem firstValue_identity {f : CompiledFilter} (hf : f.body.isIdentity = true) (v : Value)
    (clock : Clock) :
    (f.run v).firstValue clock = .ok (some v) ∨
      (clock ≠ .unlimited ∧ (f.run v).firstValue clock = .error .timeout) := by
  unfold CompiledFilter.run
  rw [Expr.eq_identity hf, Eval.eval]
  obtain ⟨remaining⟩ := clock
  match remaining with
  | none => exact .inl rfl
  | some 0 => exact .inr ⟨nofun, rfl⟩
  | some 1 => exact .inr ⟨nofun, rfl⟩
  | some (looks + 2) => exact .inl rfl

/-- To read the text of a value is to give the value. -/
theorem callNullary_fromJson {v : Value} (h : Value.ofText v.compact = .ok v) (c : Context) :
    Eval.callNullary c (.string v.compact) .fromJson = .single v := by
  have hread : Eval.fromJson (.string v.compact) = .ok v := by
    unfold Eval.fromJson
    dsimp only [Eval.stringInput, bind, Except.bind]
    rw [h]
    rfl
  show Outputs.lift (Eval.fromJson (.string v.compact)) = _
  rw [hread]
  rfl

/-- **Writing and reading** gives the input and nothing else. -/
theorem pullValues_roundTrip {f : CompiledFilter} (hf : f.body.isRoundTrip = true) {v : Value}
    (h : Value.ofText v.compact = .ok v) (wanted : Nat) :
    (f.run v).pullValues (wanted + 2) .unlimited = ([v], .done) := by
  have hto : Nullary.ofName? "tojson" = some .toJson := by decide
  have hfrom : Nullary.ofName? "fromjson" = some .fromJson := by decide
  unfold CompiledFilter.run
  generalize f.body = body at hf
  unfold Expr.isRoundTrip at hf
  split at hf
  case h_2 => cases hf
  case h_1 s t =>
    have hnone : ∀ name, (Context.empty f.env CompiledFilter.loopBudget).definition? name = none :=
      fun _ => rfl
    have hread := callNullary_fromJson h (.empty f.env CompiledFilter.loopBudget)
    simp only [Eval.eval, Eval.evalCall, hnone, hto, hfrom]
    show (((Eval.callNullary (.empty f.env CompiledFilter.loopBudget) (.string v.compact) .fromJson).append
      fun _ => .done).untilFailure.pullValues (wanted + 2) .unlimited) = _
    rw [hread]
    rfl

/-! ### The identity on an executor -/

section Executor

variable {environment : Value} {v : Value} {terms : Terms}

/-- The identity on the text of a value gives what its run on the value gives. -/
theorem exists_fresh_identity (h : Value.ofText v.compact = .ok v) (budget : Option Duration)
    (hclock : Executor.clockFault? budget = none) (environment : Value) (terms : Terms) :
    ∃ f : CompiledFilter, f.body.isIdentity = true ∧
      (Engine.filters environment).fresh v.compact (Executor.keyOf "." terms) budget =
        .ok (((f.run v).firstValue (.ofBudget budget)).mapError (.ofRun budget)) := by
  obtain ⟨f, hf, hbody⟩ := CompiledFilter.exists_compile environment
    (Executor.keyOf "." terms) isIdentity_check
  refine ⟨f, hbody, ?_⟩
  have hcompile : (Engine.filters environment).compile (Executor.keyOf "." terms) = .ok f := hf
  unfold Engine.fresh Executor.drive
  rw [hcompile, h, hclock]
  rfl

/-- An answer is the value, or a timeout where there is a time budget. -/
def Answer.IsOrTimesOut (answer : Answer) (v : Value) (limit : Option Duration) : Prop :=
  answer = .ok (.ok (some v)) ∨ ∃ time, limit = some time ∧ answer = .ok (.error (.timeout time))

/-- The identity gives the value that was written, or it times out. -/
theorem fresh_identity (h : Value.ofText v.compact = .ok v) {limit : Option Duration}
    (hclock : Executor.clockFault? limit = none) (environment : Value) (terms : Terms) :
    ((Engine.filters environment).fresh v.compact (Executor.keyOf "." terms) limit).IsOrTimesOut v
      limit := by
  obtain ⟨f, hbody, hfresh⟩ := exists_fresh_identity h limit hclock environment terms
  rw [hfresh]
  rcases firstValue_identity hbody v (.ofBudget limit) with hvalue | ⟨hlimited, htimeout⟩
  · rw [hvalue]
    exact .inl rfl
  · rw [htimeout]
    cases limit with
    | none => exact absurd rfl hlimited
    | some time => exact .inr ⟨time, rfl, rfl⟩

/-- Without a time budget nothing but the value is left. -/
theorem Answer.IsOrTimesOut.of_unlimited {answer : Answer} (h : answer.IsOrTimesOut v none) :
    answer = .ok (.ok (some v)) := by
  rcases h with hvalue | ⟨time, htime, -⟩
  · exact hvalue
  · cases htime

theorem Answer.IsOrTimesOut.orNull {answer : Answer} {limit : Option Duration}
    (h : answer.IsOrTimesOut v limit) :
    answer.map Evaluation.orNull = .ok v ∨ answer.map Evaluation.orNull = .ok .null := by
  rcases h with rfl | ⟨time, -, rfl⟩
  · exact .inl rfl
  · exact .inr rfl

/-- **Handed over and back.**  A value whose numbers are whole and have 64 bits, whose objects have distinct
keys and whose containers nest no deeper than the reader follows is read from its own text as it was, its
keys in their order.  So a filter that writes and reads gives it as its only value; and on an executor that
is shared with other requests, in any interleaving, the identity gives it in a lenient evaluation.  Only
where a time budget is set, and one that a clock can be set to, the identity may time out instead, and what
is given is null. -/
theorem handed_over_and_back {config : Config} {x : Executor CompiledFilter}
    (hx : Executor.create (.filters environment) config = .ok x) (requests : List Request)
    (moves : List Move) (hwhole : v.Everywhere Value.Whole64) (hproper : v.Proper)
    (hnesting : v.nesting ≤ Json.maxDepth) (terms : Terms) :
    let w := (Service.start x requests).run moves
    let limit := x.budget terms
    Value.ofText v.compact = .ok v ∧
    (∀ env : Bool, ∃ f, CompiledFilter.compile environment ⟨"tojson | fromjson", env⟩ = .ok f ∧
      ∀ wanted, (f.run v).pullValues (wanted + 2) .unlimited = ([v], .done)) ∧
    (drivenOf (Service.holdingsOf w.calls) = [] →
      let given := ((Executor.lenient Executor.evaluate v terms ".").run.run w.executor).1
      (limit = none → given = .ok v) ∧
      (Executor.clockFault? limit = none → given = .ok v ∨ given = .ok .null)) ∧
    (∀ answer, ⟨⟨v.compact, Filter.doubleQuoted ".", terms⟩, .finished answer⟩ ∈ w.calls →
      Executor.clockFault? limit = none → answer.IsOrTimesOut v limit) := by
  intro w limit
  have hread := Value.ofText_compact hwhole hproper hnesting
  have hquotes : Filter.doubleQuoted "." = "." := by decide +kernel
  have hsteady := Engine.filters_steady environment
  refine ⟨hread, fun env => ?_, fun hfree => ?_, fun answer hcall hclock => ?_⟩
  · obtain ⟨f, hf, hbody⟩ := CompiledFilter.exists_compile environment
      ⟨"tojson | fromjson", env⟩ isRoundTrip_check
    exact ⟨f, hf, pullValues_roundTrip hbody hread⟩
  · intro given
    have hanswer := Executor.run_evaluate_fst hsteady hx requests moves hfree ⟨v.compact, ".", terms⟩
    have hgiven : given = ((Engine.filters environment).fresh v.compact (Executor.keyOf "." terms)
        limit).map Evaluation.orNull := by
      show ((Executor.lenient Executor.evaluate v terms ".").run.run w.executor).1 = _
      rw [Executor.run_lenient, hquotes]
      exact congrArg (Except.map Evaluation.orNull) hanswer
    rw [hgiven]
    refine ⟨fun hnone => ?_, fun hclock => (fresh_identity hread hclock environment terms).orNull⟩
    rw [hnone, (fresh_identity hread (by rfl) environment terms).of_unlimited]
    rfl
  · obtain ⟨hengine, capacity, policy, hcache⟩ := Executor.create_eq_ok hx
    have hanswer := Service.answer_eq_fresh (hengine ▸ hsteady) hcache hcall
    rw [hengine, hquotes] at hanswer
    rw [show answer = _ from hanswer]
    exact fresh_identity hread hclock environment terms

end Executor

/-- **Out of time.**  Without any time to run in, the identity has no value, and what is given for the
number that was handed over is null. -/
theorem lenient_identity_out_of_time :
    let v : Value := .ofNat 1
    let terms : Terms := { timeout := some .zero }
    let x : Executor CompiledFilter :=
      { engine := .filters (.object []), config := {}, cache := .empty 100 .stopAtBusy }
    Executor.create (.filters (.object [])) {} = .ok x ∧ v.Everywhere Value.Whole64 ∧ v.Proper ∧
      v.nesting ≤ Json.maxDepth ∧
      ((Executor.lenient Executor.evaluate v terms ".").run.run x).1 = .ok .null ∧ Value.null ≠ v := by
  intro v terms x
  have hx : Executor.create (.filters (.object [])) {} = .ok x := rfl
  have hwhole : v.Everywhere Value.Whole64 := .intro ⟨by decide, by decide⟩ nofun
  have hproper : v.Proper := .intro trivial nofun
  have hread : Value.ofText v.compact = .ok v := Value.ofText_compact hwhole hproper (by decide)
  have hquotes : Filter.doubleQuoted "." = "." := by decide +kernel
  have hanswer := Executor.run_evaluate_fst (Engine.filters_steady (.object [])) hx [] [] rfl
    ⟨v.compact, ".", terms⟩
  obtain ⟨f, hbody, hfresh⟩ := exists_fresh_identity hread (some .zero) rfl (.object []) terms
  refine ⟨hx, hwhole, hproper, by decide, ?_, nofun⟩
  rw [Executor.run_lenient, hquotes]
  refine (congrArg (Except.map Evaluation.orNull) (hanswer.trans hfresh)).trans ?_
  rw [CompiledFilter.run, Expr.eq_identity hbody]
  rfl

/-- An object with a quote in a key, the least and the greatest numbers of 64 bits, a control and a
character beyond sixteen bits, handed over to an executor that is busy with another request. -/
theorem handed_over_and_back_escapes :
    let v : Value := .object [("say \"x\"", .array [.ofInt (-(2 ^ 63)), .ofNat (2 ^ 64 - 1)]),
      ("a", .string "\u0001\\ 😀"), ("", .object [])]
    let x : Executor CompiledFilter :=
      { engine := .filters (.object []), config := {}, cache := .empty 100 .stopAtBusy }
    let w := (Service.start x [⟨"1", ".", {}⟩]).run [.advance 0, .advance 0]
    Value.ofText v.compact = .ok v ∧
      ((Executor.lenient Executor.evaluate v {} ".").run.run w.executor).1 = .ok v := by
  intro v x w
  have hx : Executor.create (.filters (.object [])) {} = .ok x := rfl
  have hwhole : v.Everywhere Value.Whole64 := by
    refine .intro trivial (List.forall_mem_cons.2 ⟨.intro trivial (List.forall_mem_cons.2
      ⟨.intro ⟨by decide, by decide⟩ nofun, List.forall_mem_cons.2
        ⟨.intro ⟨by decide, by decide⟩ nofun, nofun⟩⟩), ?_⟩)
    exact List.forall_mem_cons.2 ⟨.intro trivial nofun, List.forall_mem_cons.2
      ⟨.intro trivial nofun, nofun⟩⟩
  have hproper : v.Proper := .object (by decide)
    ⟨.array ⟨.intro trivial nofun, .intro trivial nofun⟩, .intro trivial nofun, .object (by decide) trivial⟩
  obtain ⟨hread, -, hgiven, -⟩ := handed_over_and_back hx [⟨"1", ".", {}⟩] [.advance 0, .advance 0]
    hwhole hproper (by decide) {}
  exact ⟨hread, (hgiven rfl).1 rfl⟩

end JsonFilter
