import JsonFilter.Eval.Eval
import JsonFilter.Proofs.Filter.Expansion

/-!
# Evaluating an expanded filter

An evaluation looks up names in a context, and only the free names of the filter matter.  So a body that
stands in place of a call is evaluated as in the context of its definition, as long as nothing around the
call has bound one of its free names again.

## One induction

`eval_expand` compares an expanded filter with the filter that still has the calls, in a context that says
what the calls mean.  Without any bodies it says that contexts which agree on the free names of a filter
give the same stream.

* `Context.Agrees` — contexts that agree on some names.
* **`eval_expand`** — calls and bodies evaluate to the same stream.
* **`eval_congr`** — only free names matter.
-/

namespace JsonFilter.Eval

open JsonFilter.Filter Json

/-! ### Contexts -/

namespace Context

/-- Two contexts agree on some names, and on all that is no name. -/
structure Agrees (c c' : Context) (names : Name → Prop) : Prop where
  env : c.env = c'.env
  budget : c.budget = c'.budget
  unresolved : c.unresolved = c'.unresolved
  values : ∀ x, names (.variable x) → c.variableValue? x = c'.variableValue? x
  meanings : ∀ g, names (.definition g) → c.definition? g = c'.definition? g

theorem variableValue?_bind (c : Context) (x : String) (v : Value) (y : String) :
    (c.bind x v).variableValue? y = if y = x then some v else c.variableValue? y := by
  unfold variableValue? bind
  dsimp only
  rw [List.lookup_cons]
  by_cases h : y = x
  · rw [if_pos h, h, beq_self_eq_true]
  · rw [if_neg h, beq_false_of_ne h]

theorem definition?_define (c : Context) (g : String) (body : Value → Outputs) (other : String) :
    (c.define g body).definition? other = if other = g then some body else c.definition? other := by
  unfold definition? define
  dsimp only
  rw [List.lookup_cons]
  by_cases h : other = g
  · rw [if_pos h, h, beq_self_eq_true]
  · rw [if_neg h, beq_false_of_ne h]

namespace Agrees

variable {c c' : Context} {names names' : Name → Prop}

theorem refl (c : Context) (names : Name → Prop) : c.Agrees c names :=
  ⟨rfl, rfl, rfl, fun _ _ => rfl, fun _ _ => rfl⟩

theorem symm (h : c.Agrees c' names) : c'.Agrees c names :=
  ⟨h.env.symm, h.budget.symm, h.unresolved.symm, fun x hx => (h.values x hx).symm,
    fun g hg => (h.meanings g hg).symm⟩

theorem mono (h : c.Agrees c' names) (hnames : ∀ n, names' n → names n) : c.Agrees c' names' :=
  ⟨h.env, h.budget, h.unresolved, fun x hx => h.values x (hnames _ hx),
    fun g hg => h.meanings g (hnames _ hg)⟩

/-- Behind a binding the contexts agree on the bound variable, too. -/
theorem bind (h : c.Agrees c' names) (x : String) (v : Value)
    (hnames : ∀ n, names' n → n ≠ .variable x → names n) :
    (c.bind x v).Agrees (c'.bind x v) names' := by
  refine ⟨h.env, h.budget, h.unresolved, fun y hy => ?_, fun g hg => ?_⟩
  · rw [variableValue?_bind, variableValue?_bind]
    split
    · rfl
    · rename_i hne
      exact h.values y (hnames _ hy fun heq => hne (Name.variable.inj heq))
  · exact h.meanings g (hnames _ hg Name.noConfusion)

/-- Behind a definition the contexts agree on the defined name, too. -/
theorem define (h : c.Agrees c' names) (g : String) (body : Value → Outputs)
    (hnames : ∀ n, names' n → n ≠ .definition g → names n) :
    (c.define g body).Agrees (c'.define g body) names' := by
  refine ⟨h.env, h.budget, h.unresolved, fun y hy => ?_, fun other hother => ?_⟩
  · exact h.values y (hnames _ hy Name.noConfusion)
  · rw [definition?_define, definition?_define]
    split
    · rfl
    · rename_i hne
      exact h.meanings other (hnames _ hother fun heq => hne (Name.definition.inj heq))

/-- A binding of another name does not matter. -/
theorem bindLeft (h : c.Agrees c' names) {x : String} (v : Value) (hx : ¬names (.variable x)) :
    (c.bind x v).Agrees c' names := by
  refine ⟨h.env, h.budget, h.unresolved, fun y hy => ?_, h.meanings⟩
  rw [variableValue?_bind, if_neg fun heq : y = x => hx (heq ▸ hy)]
  exact h.values y hy

/-- A definition of another name does not matter. -/
theorem defineLeft (h : c.Agrees c' names) {g : String} (body : Value → Outputs)
    (hg : ¬names (.definition g)) : (c.define g body).Agrees c' names := by
  refine ⟨h.env, h.budget, h.unresolved, h.values, fun other hother => ?_⟩
  rw [definition?_define, if_neg fun heq : other = g => hg (heq ▸ hother)]
  exact h.meanings other hother

end Agrees

/-! ### Builtins -/

variable {c c' : Context}

theorem callNullary_congr (henv : c.env = c'.env) (hbudget : c.budget = c'.budget) (input : Value)
    (b : Nullary) : callNullary c input b = callNullary c' input b := by
  cases b <;> simp only [callNullary, henv, hbudget]

theorem callUnary_congr (hbudget : c.budget = c'.budget) (input : Value) (f : Value → Outputs)
    (b : Unary) : callUnary c input f b = callUnary c' input f b := by
  cases b <;> simp only [callUnary, hbudget]

theorem callBinary_congr (hbudget : c.budget = c'.budget) (input : Value) (f g : Value → Outputs)
    (b : Binary) : callBinary c input f g b = callBinary c' input f g b := by
  cases b <;> simp only [callBinary, hbudget]

end Context

/-! ### Calls and bodies -/

/-- What the names with bodies stand for: the bodies are written in the context `home` and take no names
from it but those of `kept`, and behind a look at the clock they mean `meaning`. -/
structure Expansion where
  bodies : String → Option Expr
  meaning : String → Value → Outputs
  home : Context
  kept : List Name

namespace Expansion

/-- Wherever the kept names are those of the home, the bodies evaluate to what they mean. -/
def Faithful (x : Expansion) : Prop :=
  ∀ name body, x.bodies name = some body → ∀ c : Context, c.Agrees x.home (· ∈ x.kept) →
    ∀ input, eval body c input = .guarded fun _ => x.meaning name input

/-- A filter binds no kept name and defines no name that has a body. -/
def Spares (x : Expansion) (e : Expr) : Prop :=
  ∀ n ∈ e.binder?, n ∉ x.kept ∧ ∀ name, n = .definition name → x.bodies name = none

/-- A context for the bodies and one for the calls: the first is at home, the second knows what the calls
mean, and otherwise they agree on some names. -/
structure Related (x : Expansion) (c c' : Context) (names : List Name) : Prop where
  home : c.Agrees x.home (· ∈ x.kept)
  agrees : c.Agrees c' fun n => n ∈ names ∧ ∀ name, n = .definition name → x.bodies name = none
  means : ∀ name, (x.bodies name).isSome → c'.definition? name = some (x.meaning name)

variable {x : Expansion} {c c' : Context} {names names' : List Name}

namespace Related

theorem mono (h : x.Related c c' names) (hnames : names' ⊆ names) : x.Related c c' names' :=
  ⟨h.home, h.agrees.mono fun _ hn => ⟨hnames hn.1, hn.2⟩, h.means⟩

theorem bind (h : x.Related c c' names) {var : String} (hvar : .variable var ∉ x.kept) (v : Value)
    (hnames : names'.filter (· ≠ .variable var) ⊆ names) :
    x.Related (c.bind var v) (c'.bind var v) names' := by
  refine ⟨h.home.bindLeft v hvar, h.agrees.bind var v fun n hn hne => ⟨hnames ?_, hn.2⟩, h.means⟩
  exact List.mem_filter.2 ⟨hn.1, decide_eq_true hne⟩

theorem define (h : x.Related c c' names) {name : String} (hname : .definition name ∉ x.kept)
    (hbody : x.bodies name = none) (body : Value → Outputs)
    (hnames : names'.filter (· ≠ .definition name) ⊆ names) :
    x.Related (c.define name body) (c'.define name body) names' := by
  refine ⟨h.home.defineLeft body hname,
    h.agrees.define name body fun n hn hne => ⟨hnames ?_, hn.2⟩, fun other hother => ?_⟩
  · exact List.mem_filter.2 ⟨hn.1, decide_eq_true hne⟩
  · rw [Context.definition?_define, if_neg]
    · exact h.means other hother
    · rintro rfl
      rw [hbody] at hother
      cases hother

/-- A variable has the same value in both contexts. -/
theorem withVariable (h : x.Related c c' names) {name : String} (hname : .variable name ∈ names)
    (next : Value → Outputs) : c.withVariable name next = c'.withVariable name next := by
  unfold Context.withVariable
  rw [h.agrees.values name ⟨hname, fun _ heq => Name.noConfusion heq⟩, h.agrees.unresolved]

end Related

/-! ### Parts -/

section Parts

variable {o : Option Expr} {input : Value}

theorem evalMaybe_expand
    (ho : ∀ e ∈ o, eval (e.expand x.bodies) c = eval e c') :
    evalMaybe (Expr.expandMaybe x.bodies o) c input = evalMaybe o c' input := by
  cases o with
  | none => rfl
  | some e => exact congrFun (ho e rfl) input

theorem evalBranch_expand
    (ho : ∀ e ∈ o, eval (e.expand x.bodies) c = eval e c') :
    evalBranch (Expr.expandMaybe x.bodies o) c input = evalBranch o c' input := by
  cases o with
  | none => rfl
  | some e => exact congrFun (ho e rfl) input

theorem evalHandler_expand
    (ho : ∀ e ∈ o, eval (e.expand x.bodies) c = eval e c') :
    evalHandler (Expr.expandMaybe x.bodies o) c = evalHandler o c' := by
  funext v
  cases o with
  | none => rfl
  | some e => exact congrFun (ho e rfl) v

theorem evalArray_expand
    (ho : ∀ e ∈ o, eval (e.expand x.bodies) c = eval e c') :
    evalArray (Expr.expandMaybe x.bodies o) c input = evalArray o c' input := by
  cases o with
  | none => rfl
  | some e => simp only [Expr.expandMaybe, evalArray, ho e rfl]

theorem evalKey_expand {key : ObjectKey Expr}
    (hkey : ∀ e ∈ key.filter?, eval (e.expand x.bodies) c = eval e c')
    (next : List String → Outputs) :
    evalKey (Expr.expandKey x.bodies key) c input next = evalKey key c' input next := by
  cases key with
  | static name => rfl
  | «variable» name span => rfl
  | computed e => simp only [Expr.expandKey, evalKey, hkey e rfl]

theorem evalEntryValue_expand (h : x.Related c c' names) {key : ObjectKey Expr}
    (hfree : Expr.freeKey key ⊆ names) {value : Option Expr}
    (hvalue : ∀ e ∈ value, eval (e.expand x.bodies) c = eval e c')
    (next : List Value → Outputs) :
    evalEntryValue (Expr.expandMaybe x.bodies value) (Expr.expandKey x.bodies key) c input next =
      evalEntryValue value key c' input next := by
  cases value with
  | some e => simp only [Expr.expandMaybe, evalEntryValue, hvalue e rfl]
  | none =>
    cases key with
    | static name => rfl
    | «variable» name span => exact h.withVariable (hfree List.mem_cons_self) _
    | computed e =>
      simp only [Expr.expandMaybe, Expr.expandKey, evalEntryValue, withImpliedValue,
        h.agrees.unresolved]

theorem evalEntries_expand (h : x.Related c c' names) {entries : List ObjectEntry}
    (hfree : Expr.freeEntries entries ⊆ names)
    (hparts : ∀ entry ∈ entries, ∀ e ∈ Expr.entryParts entry, eval (e.expand x.bodies) c = eval e c')
    (objects : List (Members Value)) :
    evalEntries (Expr.expandEntries x.bodies entries) c input objects =
      evalEntries entries c' input objects := by
  induction entries generalizing objects with
  | nil => rfl
  | cons entry entries ih =>
    obtain ⟨key, value⟩ := entry
    simp only [Expr.freeEntries, List.append_subset] at hfree
    obtain ⟨⟨hkey, -⟩, hrest⟩ := hfree
    have hentry := hparts (key, value) List.mem_cons_self
    have hothers := ih hrest fun other hother => hparts other (List.mem_cons_of_mem _ hother)
    simp only [Expr.expandEntries, evalEntries]
    rw [evalKey_expand fun e he => hentry e (List.mem_append_left _ (Option.mem_toList.2 he))]
    simp only [hothers, evalEntryValue_expand h hkey fun e he =>
      hentry e (List.mem_append_right _ (Option.mem_toList.2 he))]

/-- A call with arguments, or of a name without a body. -/
theorem evalCall_expand (h : x.Related c c' names) {name : String} {args : List Expr}
    (hargs : ∀ e ∈ args, eval (e.expand x.bodies) c = eval e c')
    (hname : args = [] → .definition name ∈ names ∧ x.bodies name = none) :
    evalCall name (Expr.expandAll x.bodies args) c input = evalCall name args c' input := by
  match args with
  | [] =>
    obtain ⟨hmem, hbody⟩ := hname rfl
    have hdefinition := h.agrees.meanings name
      ⟨hmem, fun other heq => Name.definition.inj heq ▸ hbody⟩
    simp only [Expr.expandAll, evalCall, hdefinition, h.agrees.unresolved,
      Context.callNullary_congr h.agrees.env h.agrees.budget]
  | [f] =>
    simp only [Expr.expandAll, evalCall, hargs f List.mem_cons_self, h.agrees.unresolved,
      Context.callUnary_congr h.agrees.budget]
  | [f, g] =>
    simp only [Expr.expandAll, evalCall, hargs f List.mem_cons_self,
      hargs g (List.mem_cons_of_mem f List.mem_cons_self), h.agrees.unresolved,
      Context.callBinary_congr h.agrees.budget]
  | f :: g :: k :: rest =>
    simp only [Expr.expandAll, evalCall, List.length_cons, Expr.length_expandAll, h.agrees.unresolved]

end Parts

end Expansion

/-! ### Evaluations -/

/-- **Calls and bodies.**  A filter with faithful bodies in place of calls evaluates to the same stream
as with the calls, in a context that knows what they mean. -/
theorem eval_expand {x : Expansion} (hx : x.Faithful) {e : Expr} (he : e.Everywhere x.Spares)
    {c c' : Context} (h : x.Related c c' e.free) : eval (e.expand x.bodies) c = eval e c' := by
  induction e using Expr.induction generalizing c c' with
  | step e ih =>
  have hpart : ∀ p ∈ e.parts, ∀ {c c' : Context}, x.Related c c' p.free →
      eval (p.expand x.bodies) c = eval p c' := fun p hp c c' hrelated =>
    ih p hp (he.part hp) hrelated
  -- Where nothing is bound, the parts are evaluated in the contexts of the whole.
  have hsame : e.binder? = none → ∀ p ∈ e.parts, eval (p.expand x.bodies) c = eval p c' :=
    fun hbinder p hp => hpart p hp (h.mono (Expr.free_subset hbinder hp))
  funext input
  cases e with
  | identity | literal => rfl
  | recurseAll => simp only [Expr.expand, eval, h.agrees.budget]
  | field target name => simp only [Expr.expand, eval, hsame rfl target (by simp [Expr.parts])]
  | index target i =>
    simp only [Expr.expand, eval, hsame rfl target (by simp [Expr.parts]),
      hsame rfl i (by simp [Expr.parts])]
  | slice target start stop =>
    simp only [Expr.expand, eval, hsame rfl target (by simp [Expr.parts])]
    rw [Expansion.evalMaybe_expand fun p hp => hsame rfl p (by simp [Expr.parts, Option.mem_toList.2 hp])]
    rw [Expansion.evalMaybe_expand fun p hp => hsame rfl p (by simp [Expr.parts, Option.mem_toList.2 hp])]
  | iterate target => simp only [Expr.expand, eval, hsame rfl target (by simp [Expr.parts])]
  | array body =>
    simp only [Expr.expand, eval]
    rw [Expansion.evalArray_expand fun p hp => hsame rfl p (Option.mem_toList.2 hp)]
  | object entries =>
    simp only [Expr.expand, eval]
    rw [Expansion.evalEntries_expand h (List.Subset.refl _) fun entry hentry p hp =>
      hsame rfl p (List.mem_flatMap.2 ⟨entry, hentry, hp⟩)]
  | neg operand => simp only [Expr.expand, eval, hsame rfl operand (by simp [Expr.parts])]
  | binary op left right =>
    have hleft := hsame rfl left (by simp [Expr.parts])
    have hright := hsame rfl right (by simp [Expr.parts])
    cases op <;> simp only [Expr.expand, eval, hleft, hright]
  | alternative left right | pipe left right | comma left right =>
    simp only [Expr.expand, eval, hsame rfl left (by simp [Expr.parts]),
      hsame rfl right (by simp [Expr.parts])]
  | cond test yes no =>
    simp only [Expr.expand, eval, hsame rfl test (by simp [Expr.parts]),
      hsame rfl yes (by simp [Expr.parts])]
    rw [Expansion.evalBranch_expand fun p hp =>
      hsame rfl p (by simp [Expr.parts, Option.mem_toList.2 hp])]
  | attempt body handler =>
    simp only [Expr.expand, eval, hsame rfl body (by simp [Expr.parts])]
    rw [Expansion.evalHandler_expand fun p hp =>
      hsame rfl p (by simp [Expr.parts, Option.mem_toList.2 hp])]
  | reduce source var init update =>
    have hsource := hpart source (by simp [Expr.parts]) (h.mono (by simp [Expr.free]))
    have hinit := hpart init (by simp [Expr.parts]) (h.mono (by simp [Expr.free]))
    have hupdate v := hpart update (by simp [Expr.parts])
      (h.bind (he.self _ rfl).1 v (by simp [Expr.free]))
    simp only [Expr.expand, eval, hsource, hinit, hupdate]
  | bind source var body =>
    have hsource := hpart source (by simp [Expr.parts]) (h.mono (by simp [Expr.free]))
    have hbody v := hpart body (by simp [Expr.parts])
      (h.bind (he.self _ rfl).1 v (by simp [Expr.free]))
    simp only [Expr.expand, eval, hsource, hbody]
  | define name body rest =>
    obtain ⟨hkept, hname⟩ := he.self _ rfl
    have hbody := hpart body (by simp [Expr.parts]) (h.mono (by simp [Expr.free]))
    have hrest := hpart rest (by simp [Expr.parts])
      (h.define hkept (hname name rfl) (eval body c') (by simp [Expr.free]))
    simp only [Expr.expand, eval, hbody, hrest]
  | «variable» name span =>
    have hmem : .variable name ∈ (Expr.variable name span).free := List.mem_cons_self
    simp only [Expr.expand, eval, h.withVariable hmem]
  | call name args span =>
    cases args with
    | cons arg others =>
      have hargs : ∀ p ∈ arg :: others, eval (p.expand x.bodies) c = eval p c' := hsame rfl
      rw [Expr.expand, ← Expr.expandAll]
      simp only [eval]
      rw [Expansion.evalCall_expand h hargs fun hnil => by cases hnil]
    | nil =>
      cases hbody : x.bodies name with
      | none =>
        have hcall : evalCall name [] c input = evalCall name [] c' input :=
          Expansion.evalCall_expand h (List.forall_mem_nil _) fun _ => ⟨List.mem_cons_self, hbody⟩
        simp only [Expr.expand, hbody, Option.getD_none, eval, hcall]
      | some body =>
        simp only [Expr.expand, hbody, Option.getD_some, eval, evalCall,
          h.means name (by rw [hbody]; rfl), hx name body hbody c h.home input]

/-- **Only free names matter.**  Contexts that agree on the free names of a filter give the same
stream. -/
theorem eval_congr {e : Expr} {c c' : Context} (h : c.Agrees c' (· ∈ e.free)) : eval e c = eval e c' := by
  let x : Expansion := ⟨fun _ => none, fun _ _ => .done, c, []⟩
  have hx : x.Faithful := fun name body hbody => by cases hbody
  have hspares : e.Everywhere x.Spares :=
    .of_forall (fun _ n _ => ⟨List.not_mem_nil, fun _ _ => rfl⟩) e
  have hrelated : x.Related c c' e.free :=
    ⟨.refl c _, h.mono fun _ hn => hn.1, fun _ hbody => by cases hbody⟩
  rw [← eval_expand hx hspares hrelated, Expr.expand_none]

end JsonFilter.Eval
