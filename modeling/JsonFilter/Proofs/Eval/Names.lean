import JsonFilter.Compile
import JsonFilter.Proofs.Eval.Composition
import JsonFilter.Proofs.Filter.Derivations

/-!
# Names of compiled filters

The names of a filter are checked before it is evaluated, against a scope that the check carries along.
The evaluation carries a context along, and a definition keeps the context that it was written in.  The
two agree, so that a compiled filter never uses a name that nothing defines.

## What "never" means here

What such a use would give is a part of the context.  In a run it is an error, but an error can be
caught, its message can come from elsewhere, and a stream can be dropped before its end.  So the
statement is about all contexts: whatever an undefined name would give, even a look at the clock or a
stream that was not unfolded far enough, the evaluation is the same.

* **`compile_resolved`** — a compiled filter has passed the check, and its computed keys have values.
* **`compiled_names_are_defined`** — so its evaluation does not depend on what undefined names give.
-/

namespace JsonFilter

open Eval
open JsonFilter.Filter (Expr Scope)
open Json (Value ValueError)

namespace Eval

/-! ### Streams that do not depend on the index -/

/-- The same at all indices. -/
def Constant {ι α : Type} (a : ι → α) : Prop := ∀ i j, a i = a j

namespace Constant

variable {ι α β γ : Type} {a : ι → α} {b : ι → β}

theorem map (F : α → β) (ha : Constant a) : Constant fun i => F (a i) :=
  fun i j => congrArg F (ha i j)

theorem map₂ (F : α → β → γ) (ha : Constant a) (hb : Constant b) : Constant fun i => F (a i) (b i) :=
  fun i j => congrArg₂ F (ha i j) (hb i j)

/-- A function that gives the same for every argument is the same. -/
theorem fn {f : ι → α → β} (h : ∀ x, Constant fun i => f i x) : Constant f :=
  fun i j => funext fun x => h x i j

theorem ofLeads {σ : Type} {leads : ι → σ ⊕ Outputs} (h : Leads Constant leads) : Constant leads := by
  cases h with
  | goOn s => exact fun _ _ => rfl
  | leave h => exact h.map Sum.inr

end Constant

/-- What combinators make of the same streams is the same. -/
theorem constant_compositional {ι : Type} (budget : Nat) :
    Compositional (fun _ : ι => budget) Constant where
  done _ _ := rfl
  emit r _ h := h.map fun o => Outputs.emit r fun _ => o
  guarded h := h.map fun o => Outputs.guarded fun _ => o
  pause h := h.map fun o => Outputs.pause fun _ => o
  append ho hmore := ho.map₂ (fun o more => o.append fun _ => more) hmore
  bind ho hf := ho.map₂ Outputs.bind (.fn hf)
  mapOutcome f ho := ho.map (Outputs.mapOutcome f)
  take n ho := ho.map (Outputs.take n)
  limit n ho := ho.map (Outputs.settle fun out => (out.take n).checkEach)
  catchWith ho hhandler := (Constant.fn hhandler).map₂ Outputs.catchWith ho
  drain ho hfinish hstep _ s i j := by
    have hsteps := Constant.fn fun s => Constant.fn fun r => Constant.ofLeads (hstep s r)
    dsimp only
    rw [ho i j, hsteps i j, Constant.fn hfinish i j]
  fold ho hupdate hnext acc i j := by
    have hupdates := Constant.fn fun acc => Constant.fn fun v => hupdate acc v
    dsimp only
    rw [ho i j, hupdates i j, Constant.fn hnext i j]
  recurseWith hstep v := (Constant.fn hstep).map fun step => Outputs.recurseWith budget step v
  countUp _ _ _ _ := rfl
  untilTrue hcondition hupdate v := (Constant.fn hcondition).map₂
    (fun condition update => Outputs.untilTrue condition update budget v) (.fn hupdate)
  whileTrue hcondition hupdate v := (Constant.fn hcondition).map₂
    (fun condition update => Outputs.whileTrue condition update budget v) (.fn hupdate)

end Eval

namespace CompiledFilter

/-- What does not fail gives a value. -/
theorem exists_ok {ε α : Type} {e : Except ε α} (h : e.toBool = true) : ∃ a, e = .ok a := by
  cases e with
  | ok a => exact ⟨a, rfl⟩
  | error _ => cases h

/-- A filter that passes the check was read from its tokens, or there is none. -/
theorem check_eq_ok {source : String} {body : Expr} (h : check source = .ok body) :
    ∃ tokens, Filter.tokenize source = .ok tokens ∧ Scope.empty.undefined body = [] ∧
      (body = .identity ∨ Filter.parse tokens = .ok body) := by
  unfold check at h
  cases htokens : Filter.tokenize source with
  | error errors =>
    rw [htokens] at h
    cases h
  | ok tokens =>
    refine ⟨tokens, rfl, ?_⟩
    rw [htokens] at h
    dsimp only [Except.mapError, bind, Except.bind] at h
    split at h
    · cases h
      exact ⟨rfl, .inl rfl⟩
    · cases hparse : Filter.parse tokens with
      | error e =>
        rw [hparse] at h
        cases h
      | ok e =>
        rw [hparse] at h
        dsimp only at h
        split at h
        · next hnames =>
          cases h
          exact ⟨hnames, .inr rfl⟩
        · cases h

/-- The filter of a compiled key has passed the check. -/
theorem check_of_compile {environment : Value} {key : FilterKey} {f : CompiledFilter}
    (h : compile environment key = .ok f) : check key.source = .ok f.body := by
  unfold compile at h
  cases hcheck : check key.source with
  | error e =>
    rw [hcheck] at h
    cases h
  | ok body =>
    rw [hcheck] at h
    cases h
    rfl

/-- **A compiled filter has passed the checks:** its names are defined, and its computed keys have
values. -/
theorem compile_resolved {environment : Value} {key : FilterKey} {f : CompiledFilter}
    (h : compile environment key = .ok f) :
    Scope.empty.undefined f.body = [] ∧ f.body.Complete := by
  obtain ⟨tokens, -, hnames, hidentity | hparse⟩ := check_eq_ok (check_of_compile h)
  · rw [hidentity] at hnames ⊢
    exact ⟨hnames, .ofParts trivial (List.forall_mem_nil _)⟩
  · exact ⟨hnames, Filter.parse_complete hparse⟩

/-- **Names of compiled filters are defined.**  Whatever the use of an undefined name gives, in place of
a variable, of a function or of the value of an object key, the stream of a compiled filter is the
same, for every environment and input and however far its loops are unfolded. -/
theorem compiled_names_are_defined {environment : Value} {key : FilterKey} {f : CompiledFilter}
    (h : compile environment key = .ok f) (env : Value) (budget : Nat)
    (unresolved : ValueError → Outputs) (input : Value) :
    eval f.body { Context.empty env budget with unresolved } input =
      eval f.body (.empty env budget) input := by
  obtain ⟨hnames, hcomplete⟩ := compile_resolved h
  -- The index is what undefined names give.
  have hconstant := eval_compositional (constant_compositional budget) hcomplete hnames
    (Contexts.Fits.empty env fun unresolved : ValueError → Outputs => unresolved) input
  exact hconstant unresolved .failWith

/-- Definitions that call definitions, an argument that uses a variable of its caller, a binding inside a
definition and an object that takes values from its keys. -/
theorem compiled_names_are_defined_scopes :
    ∃ f, compile (.object []) ⟨"def a: . + 1; def b: a as $y | $y, a; " ++
        ". as $x | \x7b$x, k: [limit(2; .[] | $x | b)]\x7d", true⟩ = .ok f ∧
      eval f.body { Context.empty .null 5 with unresolved := fun _ => .exhausted } (.ofNat 1) =
        eval f.body (.empty .null 5) (.ofNat 1) :=
  (exists_ok (by decide +kernel)).imp fun _ hf =>
    ⟨hf, compiled_names_are_defined hf .null 5 (fun _ => .exhausted) (.ofNat 1)⟩

/-- Without the check an undefined name is reached. -/
example (unresolved : ValueError → Outputs) :
    eval (.variable "x" (.point 0)) { Context.empty .null 0 with unresolved } .null =
      .guarded fun _ => unresolved (.undefinedVariable "x") := rfl

end CompiledFilter

end JsonFilter
