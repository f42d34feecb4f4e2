import JsonFilter.Proofs.Eval.Expansion
import JsonFilter.Proofs.Eval.Showing

/-!
# The algebra of pipes and commas

A pipe feeds every result of its left side to its right side, and a comma puts one stream behind another.
Results may be failures that other results follow, and streams may be endless, so the laws are about whole
streams: they say which failure stands where, and they hold up to any cut-off loop.

## Grouping

The grammar groups the pipes of a filter to the right and those of an object's value to the left.  Since
pipes are associative, this is a matter of writing.

* `Expr.pipeline` — filters with pipes between, grouped to the right.
* `shown_foldl_pipe` — pipes that are grouped to the left show the same.
* `shown_evalEntries_congr` — so they do as the value of an entry.
* **`pipe_and_comma_laws`** — all the laws.
-/

namespace JsonFilter

namespace Filter.Expr

/-- Filters with pipes between, grouped to the right. -/
def pipeline : Expr → List Expr → Expr
  | first, [] => first
  | first, next :: others => .pipe first (pipeline next others)

end Filter.Expr

namespace Eval

open JsonFilter.Filter Json
open Filter.Expr (pipeline)

variable {c : Context} {input : Value}

/-! ### Pipes -/

theorem shown_pipe_assoc (a b e : Expr) (c : Context) (input : Value) :
    (eval (.pipe a (.pipe b e)) c input).shown = (eval (.pipe (.pipe a b) e) c input).shown := by
  simp only [shown_pipe, Showing.bind_assoc]

/-- **Pipes mean the same however they are grouped.** -/
theorem shown_foldl_pipe (first : Expr) (others : List Expr) (c : Context) (input : Value) :
    (eval (others.foldl .pipe first) c input).shown = (eval (pipeline first others) c input).shown := by
  induction others generalizing first with
  | nil => rfl
  | cons next others ih =>
    rw [List.foldl_cons, ih]
    cases others with
    | nil => rfl
    | cons third others => exact (shown_pipe_assoc first next (pipeline third others) c input).symm

/-- A binding reaches as far to the right as one likes, if what is there does not use the variable. -/
theorem shown_bind_pipe {b e : Expr} {x : String} (hfree : .variable x ∉ e.free) (source : Expr)
    (c : Context) (input : Value) :
    (eval (.bind source x (.pipe b e)) c input).shown =
      (eval (.pipe (.bind source x b) e) c input).shown := by
  have hsame (v : Value) : eval e (c.bind x v) = eval e c :=
    eval_congr ((Context.Agrees.refl c _).bindLeft v hfree)
  simp only [eval, Outputs.shown_guarded, Outputs.shown_bind, Showing.bind_assoc, hsame]

/-! ### Entries of objects

A key and a value go on with something, and only what it shows is shown. -/

theorem shown_evalKey_congr (key : ObjectKey Expr) {next next' : List String → Outputs}
    (h : ∀ names, (next names).shown = (next' names).shown) :
    (evalKey key c input next).shown = (evalKey key c input next').shown := by
  cases key with
  | static name => exact h [name]
  | «variable» name span => exact h [name]
  | computed e =>
    simp only [evalKey, Outputs.shown_collect]
    congr 1
    funext values
    cases keyNames values with
    | ok names => exact h names
    | error e => rfl

theorem shown_evalEntryValue_congr (key : ObjectKey Expr) (value : Option Expr)
    {next next' : List Value → Outputs} (h : ∀ values, (next values).shown = (next' values).shown) :
    (evalEntryValue value key c input next).shown = (evalEntryValue value key c input next').shown := by
  cases value with
  | some e => simp only [evalEntryValue, Outputs.shown_collect, h]
  | none =>
    cases key with
    | static name =>
      simp only [evalEntryValue, withImpliedValue]
      cases input.field name with
      | ok v => exact h [v]
      | error e => rfl
    | «variable» name span =>
      simp only [evalEntryValue, withImpliedValue, Context.withVariable]
      cases c.variableValue? name with
      | some v => exact h [v]
      | none => rfl
    | computed e => rfl

/-- In an object, what shows the same can stand for the value of an entry. -/
theorem shown_evalEntries_congr {e e' : Expr} (h : (eval e c input).shown = (eval e' c input).shown)
    (before after : List ObjectEntry) (key : ObjectKey Expr) (objects : List (Members Value)) :
    (evalEntries (before ++ (key, some e) :: after) c input objects).shown =
      (evalEntries (before ++ (key, some e') :: after) c input objects).shown := by
  induction before generalizing objects with
  | nil =>
    refine shown_evalKey_congr key fun names => ?_
    simp only [evalEntryValue, Outputs.shown_collect, h]
  | cons entry before ih =>
    obtain ⟨key', value⟩ := entry
    refine shown_evalKey_congr key' fun names => ?_
    exact shown_evalEntryValue_congr key' value fun values => ih _

/-! ### The laws -/

/-- **Pipe and comma obey their algebra.**  For all filters, in every context and on every input: both are
associative; a pipe distributes over a comma on its left; the identity is neutral on either side of a pipe,
and `empty` absorbs what is behind it; what stands behind the body of a binding belongs to the body or not,
as long as it does not use the variable.  So pipes in a row mean the same grouped to the left and to the
right, also as the value of an entry of an object. -/
theorem pipe_and_comma_laws (a b e : Expr) :
    Interchangeable [] (.pipe a (.pipe b e)) (.pipe (.pipe a b) e) ∧
      Interchangeable [] (.pipe (.comma a b) e) (.comma (.pipe a e) (.pipe b e)) ∧
      Interchangeable [] (.comma (.comma a b) e) (.comma a (.comma b e)) ∧
      Interchangeable [] (.pipe .identity a) a ∧
      Interchangeable [] (.pipe a .identity) a ∧
      (∀ span, Interchangeable ["empty"] (.pipe (.call "empty" [] span) a) (.call "empty" [] span)) ∧
      (∀ (source : Expr) (x : String), .variable x ∉ e.free →
        Interchangeable [] (.bind source x (.pipe b e)) (.pipe (.bind source x b) e)) ∧
      ∀ (first : Expr) (others : List Expr),
        Interchangeable [] (others.foldl .pipe first) (pipeline first others) ∧
          ∀ (before after : List ObjectEntry) (key : ObjectKey Expr),
            Interchangeable [] (.object (before ++ (key, some (others.foldl .pipe first)) :: after))
              (.object (before ++ (key, some (pipeline first others)) :: after)) := by
  refine ⟨.of_shown ?_, .of_shown ?_, .of_shown ?_, .of_shown ?_, .of_shown ?_, fun span => .of_shown ?_,
    fun source x hfree => .of_shown ?_, fun first others => ⟨.of_shown ?_, ?_⟩⟩
  · intro c _ input
    exact shown_pipe_assoc a b e c input
  · intro c _ input
    simp only [shown_pipe, shown_comma, Showing.append_bind]
  · intro c _ input
    simp only [shown_comma, Showing.append_assoc]
  · intro c _ input
    rw [shown_pipe, shown_identity, Showing.one_bind]
  · intro c _ input
    simp only [shown_pipe, shown_identity, Showing.bind_single]
  · intro c hc input
    have hempty : eval (.call "empty" [] span) c input = .guarded fun _ => .done := by
      simp only [eval, evalCall, hc "empty" List.mem_cons_self,
        show Nullary.ofName? "empty" = some .empty from by decide, callNullary]
    rw [shown_pipe, hempty]
    rfl
  · intro c _ input
    exact shown_bind_pipe hfree source c input
  · intro c _ input
    exact shown_foldl_pipe first others c input
  · intro before after key
    refine .of_shown fun c _ input => ?_
    exact shown_evalEntries_congr (shown_foldl_pipe first others c input) before after key [[]]

/-- A variable that is bound again is not free: a generator that raises in the middle and goes on, in a
binding inside a binding of the same name. -/
theorem pipe_and_comma_laws_rebound :
    let raise : Expr := .call "error" [.variable "x" (.point 0)] (.point 0)
    let again : Expr := .call "repeat" [.identity] (.point 0)
    let generator : Expr := .comma (.variable "x" (.point 0)) (.comma raise again)
    let behind : Expr := .bind (.iterate .identity) "x" generator
    .variable "x" ∉ behind.free ∧
      Interchangeable [] (.bind .recurseAll "x" (.pipe generator behind))
        (.pipe (.bind .recurseAll "x" generator) behind) := by
  intro raise again generator behind
  have hfree : .variable "x" ∉ behind.free := by decide
  obtain ⟨-, -, -, -, -, -, hbind, -⟩ := pipe_and_comma_laws .identity generator behind
  exact ⟨hfree, hbind .recurseAll "x" hfree⟩

end Eval

end JsonFilter
