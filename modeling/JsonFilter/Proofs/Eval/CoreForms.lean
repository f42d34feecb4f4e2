import JsonFilter.Proofs.Eval.Expansion
import JsonFilter.Proofs.Eval.Walks

/-!
# Builtins in terms of the core language

Several builtins abbreviate what a filter can say without them.  Each is evaluated by a loop of its own, and
the filter that it stands for by the streams of its parts; both give the same results for every argument,
whether it gives none, one or several values or raises errors, and for every input, also where the builtin
refuses it.

* `shown_withInside` — what a filter gives for the values inside an input, collected.
* `shown_insideArray`, `shown_map` — `[.[] | f]` and the builtin that means it.
* `shown_insideArray_call` — builtins that take what is inside through a filter first.
* `Showing.fold_ofValues` — a fold with an operation in each step.
* **`builtins_agree_with_core`** — the builtins and what they stand for.
-/

namespace JsonFilter.Eval

open JsonFilter.Filter Json

variable {c : Context} {input : Value}

/-! ### Calls -/

theorem eval_nullary {name : String} {b : Nullary} (hname : c.definition? name = none)
    (hb : Nullary.ofName? name = some b) (span : Span) (input : Value) :
    eval (.call name [] span) c input = .guarded fun _ => callNullary c input b := by
  simp only [eval, evalCall, hname, hb]

theorem eval_unary {name : String} {b : Unary} (hb : Unary.ofName? name = some b) (f : Expr)
    (span : Span) (c : Context) (input : Value) :
    eval (.call name [f] span) c input = .guarded fun _ => callUnary c input (eval f c) b := by
  simp only [eval, evalCall, hb]

theorem eval_binary {name : String} {b : Binary} (hb : Binary.ofName? name = some b) (f g : Expr)
    (span : Span) (c : Context) (input : Value) :
    eval (.call name [f, g] span) c input = .guarded fun _ => callBinary c input (eval f c) (eval g c) b := by
  simp only [eval, evalCall, hb]

theorem shown_literal (value : Literal) (c : Context) (input : Value) :
    (eval (.literal value) c input).shown = .one (.ok (literalValue value)) := rfl

/-! ### The values inside -/

theorem shown_iterate (c : Context) (input : Value) :
    (eval (.iterate .identity) c input).shown = (iterated input).shown := by
  simp only [eval, Outputs.shown_guarded, Outputs.shown_bind, Outputs.shown_single, Showing.one_bind]

/-- What a function gives for the values inside an input is what it gives for a stream of them, all of it
collected before the next step; both fail on an input that holds no values. -/
theorem shown_withInside (f : Value → Outputs) (input : Value) (next : List Value → Outputs) :
    (withInside input fun values => mapped f values next).shown =
      ((iterated input).shown.bind fun v => (f v).shown).collect fun found => (next found).shown := by
  unfold withInside iterated
  cases input.iterate with
  | ok values =>
    rw [Outputs.shown_ofList]
    exact Outputs.shown_mapped f values next
  | error e => rfl

/-- `[.[] | f]`: all that a filter gives for the values inside the input. -/
def insideArray (f : Expr) : Expr := .array (some (.pipe (.iterate .identity) f))

theorem shown_insideArray (f : Expr) (c : Context) (input : Value) :
    (eval (insideArray f) c input).shown =
      ((iterated input).shown.bind fun v => (eval f c v).shown).collect fun found =>
        .one (.ok (.array found)) := by
  show ((eval (.pipe (.iterate .identity) f) c input).collect fun found =>
    .single (.array found)).shown = _
  rw [Outputs.shown_collect, shown_pipe, shown_iterate]
  rfl

theorem shown_map (f : Expr) (span : Span) (c : Context) (input : Value) :
    (eval (.call "map" [f] span) c input).shown = (eval (insideArray f) c input).shown := by
  rw [eval_unary (b := .map) (by decide), shown_insideArray]
  exact shown_withInside (eval f c) input fun found => .single (.array found)

/-- What goes on with the array goes on with the values collected in it. -/
theorem shown_insideArray_pipe (f g : Expr) (c : Context) (input : Value) :
    (eval (.pipe (insideArray f) g) c input).shown =
      ((iterated input).shown.bind fun v => (eval f c v).shown).collect fun found =>
        (eval g c (.array found)).shown := by
  rw [shown_pipe, shown_insideArray, Showing.collect_bind]
  simp only [Showing.one_bind]

/-- A builtin with an argument that goes on with what the argument gives for the values inside, where the
builtin of the same name without one goes on with an array. -/
theorem shown_insideArray_call {name : String} {b : Unary} {n : Nullary} {next : List Value → Outputs}
    (hname : c.definition? name = none) (hunary : Unary.ofName? name = some b)
    (hnullary : Nullary.ofName? name = some n)
    (hb : ∀ f, callUnary c input f b = withInside input fun values => mapped f values next)
    (hn : ∀ found, callNullary c (.array found) n = next found) (f : Expr) (p q : Span) :
    (eval (.call name [f] p) c input).shown =
      (eval (.pipe (insideArray f) (.call name [] q)) c input).shown := by
  rw [eval_unary hunary, shown_insideArray_pipe]
  simp only [eval_nullary hname hnullary, Outputs.shown_guarded, hb, hn]
  exact shown_withInside (eval f c) input next

theorem shown_any (hany : c.definition? "any" = none) (f : Expr) (p q : Span) (input : Value) :
    (eval (.call "any" [f] p) c input).shown =
      (eval (.pipe (insideArray f) (.call "any" [] q)) c input).shown :=
  shown_insideArray_call (b := .any) (n := .any) hany (by decide) (by decide) (fun _ => rfl)
    (fun _ => rfl) f p q

theorem shown_all (hall : c.definition? "all" = none) (f : Expr) (p q : Span) (input : Value) :
    (eval (.call "all" [f] p) c input).shown =
      (eval (.pipe (insideArray f) (.call "all" [] q)) c input).shown :=
  shown_insideArray_call (b := .all) (n := .all) hall (by decide) (by decide) (fun _ => rfl)
    (fun _ => rfl) f p q

theorem shown_with_entries (hto : c.definition? "to_entries" = none)
    (hfrom : c.definition? "from_entries" = none) (f : Expr) (p q r s : Span) (input : Value) :
    (eval (.call "with_entries" [f] p) c input).shown =
      (eval (.pipe (.call "to_entries" [] q) (.pipe (.call "map" [f] r) (.call "from_entries" [] s)))
        c input).shown := by
  rw [eval_unary (b := .withEntries) (by decide), shown_pipe,
    eval_nullary (b := .toEntries) hto (by decide)]
  simp only [Outputs.shown_guarded, callUnary, callNullary, Outputs.shown_lift]
  cases toEntries input with
  | error e => rfl
  | ok entries =>
    show _ = (Showing.one (.ok (.array entries))).bind _
    rw [Showing.one_bind, shown_pipe, shown_map, ← shown_pipe, shown_insideArray_pipe]
    simp only [eval_nullary (b := .fromEntries) hfrom (by decide)]
    exact shown_withInside (eval f c) (.array entries) fun found => .lift (insertEntries found [])

/-! ### Choices and limits -/

theorem shown_select (hempty : c.definition? "empty" = none) (f : Expr) (p q : Span) (input : Value) :
    (eval (.call "select" [f] p) c input).shown =
      (eval (.cond f .identity (some (.call "empty" [] q))) c input).shown := by
  rw [eval_unary (b := .select) (by decide)]
  simp only [eval, evalBranch, Outputs.shown_guarded, callUnary, Outputs.shown_bind]
  refine congrArg (Showing.bind _) (funext fun t => ?_)
  unfold selected
  cases t.truthy with
  | true => rfl
  | false =>
    show Showing.ended = (eval (.call "empty" [] q) c input).shown
    rw [eval_nullary (b := .empty) hempty (by decide)]
    rfl

theorem shown_first (f : Expr) (p q : Span) (c : Context) (input : Value) :
    (eval (.call "first" [f] p) c input).shown =
      (eval (.call "limit" [.literal (.number .one), f] q) c input).shown := by
  have hone : (literalValue (.number .one)).number? = some .one := by decide +kernel
  have hcount : Binary64.one.toCount = 1 := by decide +kernel
  have hpositive : Binary64.lt .zero .one = true := by decide +kernel
  rw [eval_unary (b := .first) (by decide), eval_binary (b := .limit) (by decide)]
  simp only [Outputs.shown_guarded, callUnary, callBinary, Outputs.shown_bind, shown_literal,
    Showing.one_bind, hone, hpositive, hcount, if_true]
  exact (Outputs.shown_take 1 _).trans (Outputs.shown_limit 0 _).symm

theorem shown_range (f : Expr) (p q : Span) (c : Context) (input : Value) :
    (eval (.call "range" [f] p) c input).shown =
      (eval (.call "range" [.literal (.number .zero), f] q) c input).shown := by
  have hzero : (literalValue (.number .zero)).number? = some .zero := by decide +kernel
  rw [eval_unary (b := .range) (by decide), eval_binary (b := .range) (by decide)]
  simp only [Outputs.shown_guarded, callUnary, callBinary, Outputs.shown_bind, shown_literal,
    Showing.one_bind, hzero]
  refine congrArg (Showing.bind _) (funext fun bound => ?_)
  cases bound.number? with
  | some x => rfl
  | none => rfl

/-! ### Null -/

theorem equals_null (v : Value) : v.equals .null = true ↔ v = .null := by
  cases v with
  | null => exact ⟨fun _ => rfl, fun _ => rfl⟩
  | bool b => cases b <;> exact ⟨fun h => (by cases h), fun h => (by cases h)⟩
  | number | string | array | object => exact ⟨fun h => (by cases h), fun h => (by cases h)⟩

theorem shown_values (hvalues : c.definition? "values" = none) (p q : Span) (input : Value) :
    (eval (.call "values" [] p) c input).shown =
      (eval (.call "select" [.binary .ne .identity (.literal .null)] q) c input).shown := by
  rw [eval_nullary (b := .values) hvalues (by decide), eval_unary (b := .select) (by decide)]
  have htest : (eval (.binary .ne .identity (.literal .null)) c input).shown =
      .one (.ok (.bool !input.equals .null)) := rfl
  simp only [Outputs.shown_guarded, callUnary, Outputs.shown_bind, htest, Showing.one_bind]
  by_cases hnull : input = .null
  · rw [hnull]
    rfl
  · have hdiffers : input.equals .null = false := by
      rw [← Bool.not_eq_true, equals_null]
      exact hnull
    rw [hdiffers]
    cases input with
    | null => exact absurd rfl hnull
    | _ => rfl

/-! ### Order -/

/-- Items are sorted by themselves as well as by arrays of just them. -/
theorem sortByKeys_singletons (items : List Value) :
    sortByKeys (((items.map fun v => [v]).map Value.array).zip items) = Value.sort items := by
  have hcompare (a b : Value) : (Value.array [a]).compare (.array [b]) = a.compare b := by
    show (a.compare b).then .eq = a.compare b
    cases a.compare b <;> rfl
  rw [List.map_map]
  refine (sortByKeys_map items fun v => .array [v]).trans ?_
  simp only [hcompare]
  rfl

theorem shown_sort (hsort : c.definition? "sort" = none) (p q : Span) (input : Value) :
    (eval (.call "sort" [] p) c input).shown = (eval (.call "sort_by" [.identity] q) c input).shown := by
  rw [eval_nullary (b := .sort) hsort (by decide), eval_unary (b := .sortBy) (by decide)]
  cases input with
  | array items =>
    have hgives : (Outputs.collectEach (eval .identity c)
        (fun keys => .single (.array (sortByKeys ((keys.map .array).zip items)))) items []).Gives
          [.array (sortByKeys (((items.map fun v => [v]).map Value.array).zip items))] :=
      .collectEach (fun v _ => (Outputs.Gives.single v).guarded) (.single _)
    rw [sortByKeys_singletons] at hgives
    exact hgives.shown.symm
  | _ => rfl

/-! ### Sums -/

/-- Arrays and objects hold values. -/
theorem exists_iterate {v : Value} (h : v.typeName = "array" ∨ v.typeName = "object") :
    ∃ values, v.iterate = .ok values := by
  cases v with
  | array items => exact ⟨items, rfl⟩
  | object members => exact ⟨Members.values members, rfl⟩
  | null | bool | number | string => simp [Value.typeName] at h

/-- A fold whose updates are an operation is a fold with that operation. -/
theorem Showing.fold_ofValues (op : Value → Value → Outcome Value) (values : List Value) (acc : Value) :
    (Showing.ofValues values).fold (fun acc v => .one (resultOf (op acc v))) (fun acc => .one (.ok acc))
      acc = .one (resultOf (values.foldlM op acc)) := by
  induction values generalizing acc with
  | nil => rfl
  | cons v values ih =>
    rw [List.foldlM_cons]
    show (Showing.one (resultOf (op acc v))).withLast none _ = _
    cases op acc v with
    | ok next => exact ih next
    | error e => rfl

theorem shown_add (hadd : c.definition? "add" = none) (x : String) (p q : Span) {values : List Value}
    (hinput : input.iterate = .ok values) :
    (eval (.call "add" [] p) c input).shown =
      (eval (.reduce (.iterate .identity) x (.literal .null) (.binary .add .identity (.variable x q)))
        c input).shown := by
  have hsum : sumInside input = values.foldlM Value.add .null := by
    cases input with
    | array | object =>
      unfold sumInside
      dsimp only
      rw [hinput]
      rfl
    | _ => cases hinput
  have hupdate (acc v : Value) :
      (eval (.binary .add .identity (.variable x q)) (c.bind x v) acc).shown =
        .one (resultOf (acc.add v)) := by
    simp only [eval, Context.withVariable, Context.variableValue?_bind, if_true]
    rfl
  have hinside : (iterated input).shown = .ofValues values := by
    unfold iterated
    rw [hinput]
    exact Outputs.shown_ofList values
  have hreduce : (eval (.reduce (.iterate .identity) x (.literal .null)
      (.binary .add .identity (.variable x q))) c input).shown = .one (resultOf (sumInside input)) := by
    rw [eval, Outputs.shown_guarded, Outputs.shown_bind, shown_literal, Showing.one_bind,
      Outputs.shown_fold, shown_iterate, hinside, hsum]
    simp only [hupdate]
    exact Showing.fold_ofValues Value.add values .null
  rw [eval_nullary (b := .add) hadd (by decide), hreduce]
  rfl

/-! ### Walks -/

/-- `.[]?`, which drops the error of a value that holds no values, leads to the values inside. -/
theorem stepsInside_iterate (c : Context) :
    StepsInside fun v => eval (.attempt (.iterate .identity) none) c v := by
  intro v
  have hcatch : (eval (.attempt (.iterate .identity) none) c v).shown =
      (iterated v).shown.catchWith fun _ => .ended := by
    rw [eval, Outputs.shown_guarded, Outputs.shown_catchWith, shown_iterate]
    rfl
  rw [hcatch]
  cases v with
  | array items => exact (congrArg _ (Outputs.shown_ofList items)).trans (Showing.catchWith_ofValues _ items)
  | object members =>
    exact (congrArg _ (Outputs.shown_ofList (Members.values members))).trans
      (Showing.catchWith_ofValues _ (Members.values members))
  | _ => rfl

theorem stepsInside_children : StepsInside fun v => .ofList v.children :=
  fun v => Outputs.shown_ofList v.children

/-- A loop is behind a look at the clock, which does not show. -/
theorem Gives.guarded {o : Nat → Outputs} {results : List Result} (h : Gives o results) :
    Gives (fun turns => .guarded fun _ => o turns) results := h

/-! ### All of them -/

/-- **Builtins agree with what they stand for in the core language.**  For every argument and every input,
in contexts whose definitions take none of the names used, each builtin gives the same results as the filter
that it stands for, raised errors included.  The two that walk through a value agree turn by turn.  The loop
that steps with `.[]?` spends other numbers of turns, so with it the three are compared in the end: given
turns enough, all of them give the value and everything inside it, depth first, and end.  Sums agree on
arrays and objects; of the two only `add` accepts null. -/
theorem builtins_agree_with_core (f : Expr) (x : String) (p q r s : Span) :
    Interchangeable [] (.call "map" [f] p) (insideArray f) ∧
      Interchangeable ["empty"] (.call "select" [f] p)
        (.cond f .identity (some (.call "empty" [] q))) ∧
      Interchangeable ["to_entries", "from_entries"] (.call "with_entries" [f] p)
        (.pipe (.call "to_entries" [] q) (.pipe (.call "map" [f] r) (.call "from_entries" [] s))) ∧
      Interchangeable ["any"] (.call "any" [f] p) (.pipe (insideArray f) (.call "any" [] q)) ∧
      Interchangeable ["all"] (.call "all" [f] p) (.pipe (insideArray f) (.call "all" [] q)) ∧
      Interchangeable [] (.call "first" [f] p) (.call "limit" [.literal (.number .one), f] q) ∧
      Interchangeable [] (.call "range" [f] p) (.call "range" [.literal (.number .zero), f] q) ∧
      Interchangeable ["recurse"] (.call "recurse" [] p) .recurseAll ∧
      (∀ c : Context, c.definition? "recurse" = none → ∀ input : Value,
        let within (e : Expr) (turns : Nat) : Outputs := eval e { c with budget := turns } input
        Gives (within (.call "recurse" [] p)) (input.depthFirst.map .ok) ∧
          Gives (within .recurseAll) (input.depthFirst.map .ok) ∧
          Gives (within (.call "recurse" [.attempt (.iterate .identity) none] q))
            (input.depthFirst.map .ok)) ∧
      Interchangeable ["sort"] (.call "sort" [] p) (.call "sort_by" [.identity] q) ∧
      Interchangeable ["values"] (.call "values" [] p)
        (.call "select" [.binary .ne .identity (.literal .null)] q) ∧
      ∀ c : Context, c.definition? "add" = none → ∀ input : Value,
        input.typeName = "array" ∨ input.typeName = "object" →
          (eval (.call "add" [] p) c input).Alike
            (eval (.reduce (.iterate .identity) x (.literal .null)
              (.binary .add .identity (.variable x q))) c input) := by
  refine ⟨.of_shown fun c _ => shown_map f p c, .of_shown fun c hc => ?_, .of_shown fun c hc => ?_,
    .of_shown fun c hc => ?_, .of_shown fun c hc => ?_, .of_shown fun c _ => shown_first f p q c,
    .of_shown fun c _ => shown_range f p q c, .of_shown fun c hc input => ?_,
    fun c hc input => ⟨?_, ?_, ?_⟩, .of_shown fun c hc => ?_, .of_shown fun c hc => ?_,
    fun c hc input hinput => ?_⟩
  · exact shown_select (hc "empty" List.mem_cons_self) f p q
  · exact shown_with_entries (hc "to_entries" (by decide)) (hc "from_entries" (by decide)) f p q r s
  · exact shown_any (hc "any" List.mem_cons_self) f p q
  · exact shown_all (hc "all" List.mem_cons_self) f p q
  · rw [eval_nullary (b := .recurse) (hc "recurse" List.mem_cons_self) (by decide)]
    rfl
  · have hcall (turns : Nat) : eval (.call "recurse" [] p) { c with budget := turns } input =
        .guarded fun _ => .recurseWith turns (fun v => .ofList v.children) input :=
      eval_nullary (c := { c with budget := turns }) (b := .recurse) hc (by decide) p input
    simp only [hcall]
    exact (recurseWith_walks stepsInside_children input).guarded
  · exact (recurseWith_walks stepsInside_children input).guarded
  · have hcall (turns : Nat) : eval (.call "recurse" [.attempt (.iterate .identity) none] q)
        { c with budget := turns } input = .guarded fun _ =>
          .recurseWith turns (eval (.attempt (.iterate .identity) none) c) input :=
      eval_unary (b := .recurse) (by decide) (.attempt (.iterate .identity) none) q
        { c with budget := turns } input
    simp only [hcall]
    exact (recurseWith_walks (stepsInside_iterate c) input).guarded
  · exact shown_sort (hc "sort" List.mem_cons_self) p q
  · exact shown_values (hc "values" List.mem_cons_self) p q
  · obtain ⟨values, hvalues⟩ := exists_iterate hinput
    exact Outputs.alike_iff.2 (shown_add hc x p q hvalues)

/-- An argument that gives a value, raises an error and goes on, next to definitions of other names; the walk
through an object with an array inside, and the sum of what the object holds. -/
theorem builtins_agree_with_core_raising :
    let f : Expr := .comma .identity (.comma (.call "error" [.identity] (.point 0)) (.literal .null))
    let c := (Context.empty .null 5).define "map" fun _ => .done
    let input : Value := .object [("a", .null), ("b", .array [.string "x"])]
    c.definition? "any" = none ∧
      (eval (.call "any" [f] (.point 0)) c input).Alike
        (eval (.pipe (insideArray f) (.call "any" [] (.point 0))) c input) ∧
      c.definition? "recurse" = none ∧
      Gives (fun turns =>
        eval (.call "recurse" [.attempt (.iterate .identity) none] (.point 0))
          { c with budget := turns } input)
        [.ok input, .ok .null, .ok (.array [.string "x"]), .ok (.string "x")] ∧
      c.definition? "add" = none ∧ input.typeName = "object" ∧
      (eval (.call "add" [] (.point 0)) c input).Alike
        (eval (.reduce (.iterate .identity) "v" (.literal .null)
          (.binary .add .identity (.variable "v" (.point 0)))) c input) := by
  intro f c input
  obtain ⟨-, -, -, hany, -, -, -, -, hwalk, -, -, hadd⟩ :=
    builtins_agree_with_core f "v" (.point 0) (.point 0) (.point 0) (.point 0)
  have horder : input.depthFirst = [input, .null, .array [.string "x"], .string "x"] := by
    simp [input, Value.depthFirst_eq, Value.children]
  have hsteps := (hwalk c rfl input).2.2
  rw [horder] at hsteps
  exact ⟨rfl, hany c (List.forall_mem_singleton.2 rfl) input, rfl, hsteps, rfl, rfl,
    hadd c rfl input (.inr rfl)⟩

end JsonFilter.Eval
