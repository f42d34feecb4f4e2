import JsonFilter.Proofs.Executor.Transparency
import JsonFilter.Proofs.Filter.Requoting

/-!
# Lenient evaluations

A lenient evaluation converts the quotes of its filter before the filter is compiled, and it gives null
for no value and for every error.  So a filter that compiles as it is may be another one by the time that
it is compiled, and nothing tells the two apart but the value.

* **`lenient_is_plain`** — a filter that keeps its strings gives the first value of its own run.
* **`lenient_cuts_a_string`** — a quote before a blank ends a string too early, and the value is null.
-/

namespace JsonFilter

open Cache
open Json (Value)
open JsonFilter.Filter (tokenize doubleQuoted KeepsStrings)

variable {P : Type}

/-- What an evaluation gives leniently: null stands for no value and for every error. -/
def Evaluation.orNull : Evaluation → Value
  | .ok (some v) => v
  | _ => .null

/-- The first value of a run without a time budget; null if the run has no value or fails before it. -/
def CompiledFilter.firstOrNull (f : CompiledFilter) (input : Value) : Value :=
  match (f.run input).firstValue .unlimited with
  | .ok (some v) => v
  | _ => .null

/-- A lenient evaluation does what an evaluation does with the converted filter, and turns the answer
into a value. -/
theorem Executor.run_lenient (way : String → String → Terms → Session P Evaluation) (input : Value)
    (terms : Terms) (filter : String) (x : Executor P) :
    (lenient way input terms filter).run.run x =
      (((way input.compact (doubleQuoted filter) terms).run.run x).1.map Evaluation.orNull,
        ((way input.compact (doubleQuoted filter) terms).run.run x).2) := by
  unfold lenient
  rw [run_bind]
  rcases (way input.compact (doubleQuoted filter) terms).run.run x with ⟨result, x'⟩
  cases result with
  | error interruption => rfl
  | ok evaluation =>
    cases evaluation with
    | error e => rfl
    | ok first => cases first <;> rfl

/-- The text of a value that is one. -/
def Json.Value.text? : Value → Option String
  | .string text => some text
  | _ => none

theorem Json.Value.text?_eq_some_iff {v : Value} {text : String} :
    v.text? = some text ↔ v = .string text := by
  cases v <;> simp [text?]

section Filters

variable {environment : Value} {filter : String} {terms : Terms} {f : CompiledFilter} {input : Value}

/-- The fresh evaluation of a filter that keeps its strings, with its quotes converted. -/
theorem CompiledFilter.evaluateFresh_doubleQuoted
    (hcompile : compile environment (Executor.keyOf filter terms) = .ok f)
    (hkeeps : ∀ tokens, tokenize filter = .ok tokens → KeepsStrings filter tokens)
    (hinput : Value.ofText input.compact = .ok input) :
    (evaluateFresh environment input.compact (Executor.keyOf (doubleQuoted filter) terms)).orNull =
      f.firstOrNull input := by
  have hkey : Executor.keyOf (doubleQuoted filter) terms =
      { Executor.keyOf filter terms with source := doubleQuoted (Executor.keyOf filter terms).source } :=
    rfl
  unfold evaluateFresh firstOrNull
  rw [hkey, compile_doubleQuoted hcompile hkeeps, hinput]
  dsimp only
  show Evaluation.orNull (((f.run input).firstValue .unlimited).mapError _) = _
  cases (f.run input).firstValue .unlimited with
  | error e => rfl
  | ok first => cases first <;> rfl

/-- **A lenient evaluation is a fresh one of the converted filter,** for an executor in use, while nobody
drives a program. -/
theorem Executor.run_lenient_fst {config : Config} {x : Executor CompiledFilter}
    (hx : create (.filters environment) config = .ok x) (requests : List Request) (moves : List Move)
    (hfree : drivenOf (Service.holdingsOf ((Service.start x requests).run moves).calls) = [])
    (hbudget : x.budget terms = none) :
    ((lenient evaluate input terms filter).run.run ((Service.start x requests).run moves).executor).1 =
      .ok (CompiledFilter.evaluateFresh environment input.compact
        (keyOf (doubleQuoted filter) terms)).orNull := by
  have hanswer := run_evaluate_fst (Engine.filters_steady environment) hx requests moves hfree
    ⟨input.compact, doubleQuoted filter, terms⟩
  dsimp only at hanswer
  rw [hbudget, Engine.fresh_filters] at hanswer
  rw [run_lenient, hanswer]
  rfl

/-- **A lenient evaluation is the plain one,** for a filter that compiles as it is and that keeps its
strings: no string in it has a single quote that the rule converts.  Requests share an executor with
others, in any interleaving.  Then a lenient evaluation without a time budget, which begins and ends while
nobody drives a program, gives the first value of a run of exactly this filter on the input, or null if
the run has none or fails; and so does one that is itself one of the interleaved requests.  Quotes in
comments may be converted. -/
theorem lenient_is_plain {config : Config} {x : Executor CompiledFilter}
    (hx : Executor.create (.filters environment) config = .ok x) (requests : List Request)
    (moves : List Move)
    (hcompile : CompiledFilter.compile environment (Executor.keyOf filter terms) = .ok f)
    (hkeeps : ∀ tokens, tokenize filter = .ok tokens → KeepsStrings filter tokens)
    (hinput : Value.ofText input.compact = .ok input) (hbudget : x.budget terms = none) :
    let w := (Service.start x requests).run moves
    (drivenOf (Service.holdingsOf w.calls) = [] →
      ((Executor.lenient Executor.evaluate input terms filter).run.run w.executor).1 =
        .ok (f.firstOrNull input)) ∧
    ∀ answer, ⟨⟨input.compact, doubleQuoted filter, terms⟩, .finished answer⟩ ∈ w.calls →
      answer.map Evaluation.orNull = .ok (f.firstOrNull input) := by
  intro w
  have hfresh := CompiledFilter.evaluateFresh_doubleQuoted hcompile hkeeps hinput
  refine ⟨fun hfree => ?_, fun answer hcall => ?_⟩
  · rw [Executor.run_lenient_fst hx requests moves hfree hbudget, hfresh]
  · obtain ⟨hengine, capacity, policy, hcache⟩ := Executor.create_eq_ok hx
    have hsteady : x.engine.Steady := by
      rw [hengine]
      exact Engine.filters_steady environment
    have hanswer := Service.answer_eq_fresh hsteady hcache hcall
    dsimp only at hanswer
    rw [hbudget, hengine, Engine.fresh_filters] at hanswer
    rw [hanswer]
    exact congrArg Except.ok hfresh

end Filters

/-- A filter that compiles and whose first value is a text. -/
theorem CompiledFilter.exists_firstOrNull {environment input : Value} {key : FilterKey} {text : String}
    (h : ((compile environment key).toOption.bind fun f => (f.firstOrNull input).text?) = some text) :
    ∃ f, compile environment key = .ok f ∧ f.firstOrNull input = .string text := by
  cases hcompile : compile environment key with
  | error e =>
    rw [hcompile] at h
    cases h
  | ok f =>
    rw [hcompile] at h
    exact ⟨f, rfl, Json.Value.text?_eq_some_iff.1 h⟩

/-- The text of null can be read back. -/
theorem Json.Value.ofText_compact_null : ofText Value.null.compact = .ok .null := by
  have hletters : Value.null.compact.toList = ['n', 'u', 'l', 'l'] := by decide +kernel
  unfold ofText Input.ofText readValue
  rw [hletters]
  rfl

/-- Both the apostrophe in the string and the one in the comment are inside of words, but only the second
one is followed by a blank and is converted. -/
theorem lenient_is_plain_word :
    let filter := "\"it's\" # the cat' s"
    let x : Executor CompiledFilter :=
      { engine := .filters (.object []), config := {}, cache := .empty 100 .stopAtBusy }
    doubleQuoted filter = "\"it's\" # the cat\" s" ∧
      ((Executor.lenient Executor.evaluate .null {} filter).run.run x).1 = .ok (.string "it's") := by
  intro filter x
  have hx : Executor.create (.filters (.object [])) {} = .ok x := rfl
  obtain ⟨f, hf, hvalue⟩ : ∃ f, CompiledFilter.compile (.object []) (Executor.keyOf filter {}) = .ok f ∧
      f.firstOrNull .null = .string "it's" := CompiledFilter.exists_firstOrNull (by decide +kernel)
  have hkeeps : ∀ tokens, tokenize filter = .ok tokens → KeepsStrings filter tokens := by
    have hall : (tokenize filter).toOption.all fun tokens => decide (KeepsStrings filter tokens) := by
      decide +kernel
    intro tokens htokens
    rw [htokens] at hall
    exact of_decide_eq_true hall
  have hplain := (lenient_is_plain hx [] [] hf hkeeps Json.Value.ofText_compact_null rfl).1 rfl
  rw [hvalue] at hplain
  exact ⟨by decide +kernel, hplain⟩

/-- **A string is cut.**  The filter compiles as it is, and its value is its only string.  But the
apostrophe in the string stands before a blank and is converted, so that the string ends there and
another one begins that never ends: nothing is left of the filter but null. -/
theorem lenient_cuts_a_string :
    let filter := "\"it' s\""
    let x : Executor CompiledFilter :=
      { engine := .filters (.object []), config := {}, cache := .empty 100 .stopAtBusy }
    Executor.create (.filters (.object [])) {} = .ok x ∧ x.budget {} = none ∧
      Value.ofText Value.null.compact = .ok .null ∧
      (∃ f, CompiledFilter.compile (.object []) (Executor.keyOf filter {}) = .ok f ∧
        f.firstOrNull .null = .string "it' s") ∧
      ((Executor.lenient Executor.evaluate .null {} filter).run.run x).1 = .ok .null := by
  intro filter x
  have hx : Executor.create (.filters (.object [])) {} = .ok x := rfl
  refine ⟨hx, rfl, Json.Value.ofText_compact_null,
    CompiledFilter.exists_firstOrNull (by decide +kernel), ?_⟩
  have hfails : (CompiledFilter.compile (.object [])
      (Executor.keyOf (doubleQuoted filter) {})).toOption.isNone := by decide +kernel
  have hanswer : ((Executor.lenient Executor.evaluate .null {} filter).run.run x).1 = _ :=
    Executor.run_lenient_fst hx [] [] rfl rfl
  rw [hanswer]
  unfold CompiledFilter.evaluateFresh
  cases hcompile : CompiledFilter.compile (.object []) (Executor.keyOf (doubleQuoted filter) {}) with
  | error e => rfl
  | ok f =>
    rw [hcompile] at hfails
    cases hfails

end JsonFilter
