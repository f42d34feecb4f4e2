import JsonFilter.Eval.Eval
import JsonFilter.Filter.Scope
import JsonFilter.Proofs.Filter.Parts

/-!
# What holds of every evaluation

`eval` builds the stream of a filter from the streams of its parts with a fixed set of combinators.  A
property of streams that all of these combinators pass on holds of every stream that `eval` builds.

## Families

Most questions about evaluation compare streams: two answers of a clock, all numbers of turns that loops
are given, all ways to treat an unknown name.  So the properties are about families of streams over some
index `ι`, and a family of contexts says what may differ from one index to another.

* `Combines`, `Loops`, `Compositional` — a property of families that the combinators pass on: all but the
  loops, the loops, and both.
* `Contexts` — contexts that agree on all values and names.
* **`eval_compositional`** — such a property holds of the evaluations of a filter whose names are defined.
* **`eval_combines`** — a property that only the combinators without loops pass on holds where no loop of a
  filter spoils it; the walk through the parts of a value, which is a loop with an end, is a premise.
-/

namespace JsonFilter.Eval

open JsonFilter.Filter Json Outputs

variable {ι : Type} {budget : ι → Nat} {Q : (ι → Outputs) → Prop}

/-- A consumer's answer to a result, at all indices at once: it goes on with one and the same state, or
it leaves for streams with the property. -/
inductive Leads {σ : Type} (Q : (ι → Outputs) → Prop) : (ι → σ ⊕ Outputs) → Prop
  | goOn (s : σ) : Leads Q fun _ => .inl s
  | leave {out : ι → Outputs} : Q out → Leads Q fun i => .inr (out i)

namespace Leads

variable {σ : Type} {leads : ι → σ ⊕ Outputs}

theorem imp {Q' : (ι → Outputs) → Prop} (himp : ∀ out, Q out → Q' out) (h : Leads Q leads) :
    Leads Q' leads := by
  cases h with
  | goOn s => exact .goOn s
  | leave hout => exact .leave (himp _ hout)

theorem inl_or_inr (h : Leads Q leads) :
    (∃ s, ∀ i, leads i = .inl s) ∨ ∃ out, Q out ∧ ∀ i, leads i = .inr (out i) := by
  cases h with
  | goOn s => exact .inl ⟨s, fun _ => rfl⟩
  | leave hout => exact .inr ⟨_, hout, fun _ => rfl⟩

end Leads

/-- A property of families of streams that the combinators of the evaluation without loops pass on. -/
structure Combines (Q : (ι → Outputs) → Prop) : Prop where
  done : Q fun _ => .done
  emit (r : Result) {rest : ι → Outputs} : Q rest → Q fun i => .emit r fun _ => rest i
  guarded {next : ι → Outputs} : Q next → Q fun i => .guarded fun _ => next i
  pause {next : ι → Outputs} : Q next → Q fun i => .pause fun _ => next i
  append {o more : ι → Outputs} : Q o → Q more → Q fun i => (o i).append fun _ => more i
  bind {o : ι → Outputs} {f : ι → Value → Outputs} :
    Q o → (∀ v, Q fun i => f i v) → Q fun i => (o i).bind (f i)
  mapOutcome {o : ι → Outputs} (f : Value → Outcome Value) : Q o → Q fun i => (o i).mapOutcome f
  take {o : ι → Outputs} (n : Nat) : Q o → Q fun i => (o i).take n
  limit {o : ι → Outputs} (n : Nat) : Q o → Q fun i => (o i).settle fun out => (out.take n).checkEach
  catchWith {o : ι → Outputs} {handler : ι → Value → Outputs} :
    Q o → (∀ v, Q fun i => handler i v) → Q fun i => (o i).catchWith (handler i)
  /-- A consumer must pass on a timeout. -/
  drain {σ : Type} {step : ι → σ → Result → σ ⊕ Outputs} {finish : ι → σ → Outputs}
    {o : ι → Outputs} : Q o → (∀ s, Q fun i => finish i s) →
      (∀ s r, Leads Q fun i => step i s r) →
      (∀ i s, step i s (.error .timeout) = .inr (fail .timeout)) →
      ∀ s, Q fun i => drain (step i) (finish i) s (o i)
  fold {o : ι → Outputs} {update : ι → Value → Value → Outputs} {next : ι → Value → Outputs} :
    Q o → (∀ acc v, Q fun i => update i acc v) → (∀ acc, Q fun i => next i acc) →
      ∀ acc, Q fun i => fold (update i) (next i) (o i) acc

/-- A property of families of streams that the loops pass on.  They are unfolded `budget i` times. -/
structure Loops (budget : ι → Nat) (Q : (ι → Outputs) → Prop) : Prop where
  recurseWith {step : ι → Value → Outputs} :
    (∀ v, Q fun i => step i v) → ∀ v, Q fun i => recurseWith (budget i) (step i) v
  countUp (bound start : Binary64) : Q fun i => countUp bound (budget i) start
  untilTrue {condition update : ι → Value → Outputs} :
    (∀ v, Q fun i => condition i v) → (∀ v, Q fun i => update i v) →
      ∀ v, Q fun i => untilTrue (condition i) (update i) (budget i) v
  whileTrue {condition update : ι → Value → Outputs} :
    (∀ v, Q fun i => condition i v) → (∀ v, Q fun i => update i v) →
      ∀ v, Q fun i => whileTrue (condition i) (update i) (budget i) v

/-- **A property of families of streams that every combinator of the evaluation passes on.** -/
structure Compositional (budget : ι → Nat) (Q : (ι → Outputs) → Prop) : Prop
  extends Combines Q, Loops budget Q

namespace Combines

variable (K : Combines Q)
include K

theorem one (r : Result) : Q fun _ => .one r := K.emit r K.done

theorem ofList (values : List Value) : Q fun _ => .ofList values := by
  induction values with
  | nil => exact K.done
  | cons v values ih => exact K.emit (.ok v) ih

theorem collect {o : ι → Outputs} {next : ι → List Value → Outputs} (ho : Q o)
    (hnext : ∀ values, Q fun i => next i values) : Q fun i => .collect (o i) (next i) := by
  refine K.drain ho (fun values => hnext values.reverse) (fun values r => ?_) ?_ []
  · cases r with
    | ok v => exact .goOn (v :: values)
    | error f => exact .leave (K.one (.error f))
  · exact fun _ _ => rfl

theorem withLast {o : ι → Outputs} {next : ι → Option Value → Outputs} (ho : Q o)
    (hnext : ∀ last, Q fun i => next i last) : Q fun i => .withLast (o i) (next i) := by
  refine K.drain ho hnext (fun last r => ?_) ?_ none
  · cases r with
    | ok v => exact .goOn (some v)
    | error f => exact .leave (K.one (.error f))
  · exact fun _ _ => rfl

theorem withTruthy {o : ι → Outputs} {next : ι → List Value → Outputs} (ho : Q o)
    (hnext : ∀ found, Q fun i => next i found) : Q fun i => .withTruthy (o i) (next i) := by
  refine K.drain ho (fun found => hnext found.reverse) (fun found r => ?_) ?_ []
  · cases r with
    | ok v => exact .goOn (if v.truthy then v :: found else found)
    | error f =>
      cases f with
      | raised v => exact .goOn found
      | timeout => exact .leave (K.one (.error .timeout))
  · exact fun _ _ => rfl

theorem collectEach {f : ι → Value → Outputs} {next : ι → List (List Value) → Outputs}
    (hf : ∀ v, Q fun i => f i v) (hnext : ∀ lists, Q fun i => next i lists) (values : List Value)
    (found : List (List Value)) : Q fun i => .collectEach (f i) (next i) values found := by
  induction values generalizing found with
  | nil => exact hnext found.reverse
  | cons v values ih => exact K.collect (hf v) fun list => ih (list :: found)

/-! ### Builtins -/

theorem iterated (v : Value) : Q fun _ => iterated v := by
  unfold Eval.iterated
  cases v.iterate with
  | ok values => exact K.ofList values
  | error e => exact K.one _

theorem selected (input condition : Value) : Q fun _ => selected input condition := by
  unfold Eval.selected
  split
  · exact K.one _
  · exact K.done

theorem withInside (input : Value) {next : ι → List Value → Outputs}
    (hnext : ∀ values, Q fun i => next i values) : Q fun i => withInside input (next i) := by
  unfold Eval.withInside
  cases input.iterate with
  | ok values => exact hnext values
  | error e => exact K.one _

theorem mapped {f : ι → Value → Outputs} {next : ι → List Value → Outputs}
    (hf : ∀ v, Q fun i => f i v) (hnext : ∀ values, Q fun i => next i values) (values : List Value) :
    Q fun i => mapped (f i) values (next i) :=
  K.collectEach hf (fun lists => hnext lists.flatten) values []

theorem withOperand {f : ι → Value → Outputs} (hf : ∀ v, Q fun i => f i v) (input : Value)
    (apply : Value → Value → Outcome Value) : Q fun i => withOperand (f i) input apply :=
  K.bind (hf input) fun operand => K.one (resultOf (apply input operand))

end Combines

/-! ### Contexts -/

/-- Contexts that agree on the environment, on the values of variables and on the names of
definitions. -/
structure Contexts (ι : Type) (budget : ι → Nat) where
  env : Value
  unresolved : ι → ValueError → Outputs
  bindings : List (String × Value)
  definitions : List (String × (ι → Value → Outputs))

namespace Contexts

/-- The context at an index. -/
def get (C : Contexts ι budget) (i : ι) : Context :=
  ⟨C.env, budget i, C.unresolved i, C.bindings, C.definitions.map fun (name, body) => (name, body i)⟩

/-- Nothing is bound. -/
def empty (budget : ι → Nat) (env : Value) (unresolved : ι → ValueError → Outputs) :
    Contexts ι budget :=
  ⟨env, unresolved, [], []⟩

/-- The contexts with one more variable. -/
def bind (C : Contexts ι budget) (name : String) (value : Value) : Contexts ι budget :=
  { C with bindings := (name, value) :: C.bindings }

/-- The contexts with one more definition. -/
def define (C : Contexts ι budget) (name : String) (body : ι → Value → Outputs) :
    Contexts ι budget :=
  { C with definitions := (name, body) :: C.definitions }

theorem get_definition? (C : Contexts ι budget) (i : ι) (name : String) :
    (C.get i).definition? name = (C.definitions.lookup name).map fun body => body i := by
  unfold get Context.definition?
  dsimp only
  induction C.definitions with
  | nil => rfl
  | cons d definitions ih =>
    obtain ⟨other, body⟩ := d
    simp only [List.map_cons, List.lookup_cons, ih]
    cases name == other <;> rfl

/-- All names of a scope are bound, and all definitions have the property. -/
structure Fits (C : Contexts ι budget) (Q : (ι → Outputs) → Prop) (s : Scope) : Prop where
  bindings : ∀ name ∈ s.bindings, (C.bindings.lookup name).isSome
  definitions : ∀ name ∈ s.definitions, (C.definitions.lookup name).isSome
  sound : ∀ name body, C.definitions.lookup name = some body → ∀ v, Q fun i => body i v

namespace Fits

variable {C : Contexts ι budget} {s : Scope}

theorem empty (env : Value) (unresolved : ι → ValueError → Outputs) :
    (Contexts.empty budget env unresolved).Fits Q .empty := by
  refine ⟨fun name h => ?_, fun name h => ?_, fun name body h => ?_⟩
  · cases h
  · cases h
  · cases h

/-- In a scope with one more name the new name is found first. -/
theorem isSome_lookup_cons {α : Type} {l : List (String × α)} {names : List String}
    (h : ∀ name ∈ names, (l.lookup name).isSome) (new : String) (a : α) :
    ∀ name ∈ names ++ [new], (((new, a) :: l).lookup name).isSome := by
  intro name hname
  rw [List.lookup_cons]
  split
  · rfl
  · next hne =>
    rcases List.mem_append.1 hname with hold | hnew
    · exact h name hold
    · rw [List.mem_singleton.1 hnew, beq_self_eq_true] at hne
      cases hne

theorem bind (h : C.Fits Q s) (name : String) (value : Value) :
    (C.bind name value).Fits Q (s.bind name) :=
  ⟨isSome_lookup_cons h.bindings name value, h.definitions, h.sound⟩

theorem define (h : C.Fits Q s) (name : String) {body : ι → Value → Outputs}
    (hbody : ∀ v, Q fun i => body i v) : (C.define name body).Fits Q (s.define name) := by
  refine ⟨h.bindings, isSome_lookup_cons h.definitions name body, fun other found hfound => ?_⟩
  change ((name, body) :: C.definitions).lookup other = some found at hfound
  rw [List.lookup_cons] at hfound
  split at hfound
  · cases hfound
    exact hbody
  · exact h.sound other found hfound

/-- A variable that is in scope has a value, the same at all indices. -/
theorem withVariable (h : C.Fits Q s) {name : String} (hname : s.hasVariable name = true)
    {next : ι → Value → Outputs} (hnext : ∀ v, Q fun i => next i v) :
    Q fun i => (C.get i).withVariable name (next i) := by
  unfold Context.withVariable Context.variableValue? Contexts.get
  dsimp only
  cases hvalue : C.bindings.lookup name with
  | some v => exact hnext v
  | none =>
    have hfree : name ∉ s.bindings := fun hmem => by
      have := h.bindings name hmem
      rw [hvalue] at this
      cases this
    have henv : name = envVariable := by
      simpa [Scope.hasVariable, hfree] using hname
    rw [if_pos henv]
    exact hnext C.env

end Fits

end Contexts

/-! ### Builtins in a context -/

/-- The walk through a value and everything inside it has the property. -/
def Descends (budget : ι → Nat) (Q : (ι → Outputs) → Prop) : Prop :=
  ∀ v, Q fun i => recurseWith (budget i) (fun v => .ofList v.children) v

theorem Compositional.descends (K : Compositional budget Q) : Descends budget Q :=
  K.recurseWith fun v => K.ofList v.children

/-- The builtins whose loops need not come to an end. -/
def loopBuiltins : List (String × Nat) :=
  [("recurse", 1), ("repeat", 1), ("range", 1), ("range", 2), ("until", 2), ("while", 2)]

section

variable (K : Combines Q) (C : Contexts ι budget)
include K

theorem callNullary_compositional (hdescends : Descends budget Q) (input : Value) (b : Nullary) :
    Q fun i => callNullary (C.get i) input b := by
  cases b with
  | empty => exact K.done
  | env => exact K.one (.ok C.env)
  | recurse => exact hdescends input
  | values =>
    cases input with
    | null => exact K.done
    | _ => exact K.one _
  | _ => exact K.one _

theorem callUnary_compositional (input : Value) {f : ι → Value → Outputs}
    (hf : ∀ v, Q fun i => f i v) (b : Unary) (hloops : (b.name, 1) ∈ loopBuiltins → Loops budget Q) :
    Q fun i => callUnary (C.get i) input (f i) b := by
  cases b with
  | map => exact K.withInside input (K.mapped hf fun _ => K.one _)
  | select => exact K.bind (hf input) (K.selected input)
  | recurse => exact (hloops (by decide)).recurseWith hf input
  | «repeat» => exact (hloops (by decide)).recurseWith hf input
  | first => exact K.take 1 (hf input)
  | last =>
    refine K.withLast (hf input) fun last => ?_
    cases last with
    | some v => exact K.one _
    | none => exact K.done
  | range =>
    refine K.bind (hf input) fun bound => ?_
    cases bound.number? with
    | some x => exact (hloops (by decide)).countUp x .zero
    | none => exact K.one _
  | error => exact K.bind (hf input) fun v => K.one _
  | any => exact K.withInside input (K.mapped hf fun _ => K.one _)
  | all => exact K.withInside input (K.mapped hf fun _ => K.one _)
  | withEntries =>
    simp only [callUnary]
    cases toEntries input with
    | ok entries => exact K.mapped hf (fun _ => K.one _) entries
    | error e => exact K.one _
  | sortBy =>
    simp only [callUnary]
    cases sortInput input with
    | ok items => exact K.collectEach hf (fun _ => K.one _) items []
    | error e => exact K.one _
  | trimStart =>
    exact K.withOperand hf input fun v part => .ok (trimString Text.dropStart? v part)
  | trimEnd => exact K.withOperand hf input fun v part => .ok (trimString Text.dropEnd? v part)
  | _ => exact K.withOperand hf input _

theorem callBinary_compositional (input : Value) {f g : ι → Value → Outputs}
    (hf : ∀ v, Q fun i => f i v) (hg : ∀ v, Q fun i => g i v) (b : Binary)
    (hloops : (b.name, 2) ∈ loopBuiltins → Loops budget Q) :
    Q fun i => callBinary (C.get i) input (f i) (g i) b := by
  cases b with
  | limit =>
    refine K.bind (hf input) fun count => ?_
    cases count.number? with
    | some x =>
      dsimp only
      split
      · exact K.limit x.toCount (hg input)
      · exact K.done
    | none => exact K.one _
  | range =>
    refine K.bind (hf input) fun start => K.bind (hg input) fun bound => ?_
    cases start.number? with
    | none => exact K.one _
    | some x =>
      cases bound.number? with
      | none => exact K.one _
      | some y => exact (hloops (by decide)).countUp y x
  | «until» => exact K.pause ((hloops (by decide)).untilTrue hf hg input)
  | «while» => exact K.pause ((hloops (by decide)).whileTrue hf hg input)

end

/-! ### Calls -/

/-- **The table and the functions agree:** a call finds what the table lists. -/
theorem builtins_found : ∀ entry ∈ builtins,
    (entry.2 = 0 → (Nullary.ofName? entry.1).isSome) ∧
      (entry.2 = 1 → (Unary.ofName? entry.1).isSome) ∧
      (entry.2 = 2 → (Binary.ofName? entry.1).isSome) ∧ entry.2 ≤ 2 := by
  decide

/-- A builtin is found under its own name. -/
theorem Unary.name_of_ofName? {name : String} {b : Unary} (h : Unary.ofName? name = some b) :
    b.name = name := by
  have hname := List.find?_some h
  exact eq_of_beq hname

theorem Binary.name_of_ofName? {name : String} {b : Binary} (h : Binary.ofName? name = some b) :
    b.name = name := by
  have hname := List.find?_some h
  exact eq_of_beq hname

theorem exists_mem_builtins {name : String} {arity : Nat} (h : isBuiltin name arity = true) :
    (name, arity) ∈ builtins := by
  obtain ⟨⟨n, a⟩, hmem, heq⟩ := List.any_eq_true.1 h
  obtain ⟨rfl, rfl⟩ : n = name ∧ a = arity := by simpa using heq
  exact hmem

/-! ### Expressions -/

/-- The evaluations of a filter in contexts that fit have the property. -/
def Transports (budget : ι → Nat) (Q : (ι → Outputs) → Prop) (e : Expr) : Prop :=
  ∀ ⦃s : Scope⦄ ⦃C : Contexts ι budget⦄, s.undefined e = [] → C.Fits Q s →
    ∀ input, Q fun i => eval e (C.get i) input

section

variable (K : Combines Q) {C : Contexts ι budget} {s : Scope} (hC : C.Fits Q s)
include K hC

theorem evalMaybe_compositional {o : Option Expr} (ho : ∀ e ∈ o, Transports budget Q e)
    (hs : s.undefinedMaybe o = []) (input : Value) : Q fun i => evalMaybe o (C.get i) input := by
  cases o with
  | none => exact K.one _
  | some e => exact ho e rfl hs hC input

theorem evalBranch_compositional {o : Option Expr} (ho : ∀ e ∈ o, Transports budget Q e)
    (hs : s.undefinedMaybe o = []) (input : Value) : Q fun i => evalBranch o (C.get i) input := by
  cases o with
  | none => exact K.one _
  | some e => exact ho e rfl hs hC input

theorem evalHandler_compositional {o : Option Expr} (ho : ∀ e ∈ o, Transports budget Q e)
    (hs : s.undefinedMaybe o = []) (v : Value) : Q fun i => evalHandler o (C.get i) v := by
  cases o with
  | none => exact K.done
  | some e => exact ho e rfl hs hC v

theorem evalArray_compositional {o : Option Expr} (ho : ∀ e ∈ o, Transports budget Q e)
    (hs : s.undefinedMaybe o = []) (input : Value) : Q fun i => evalArray o (C.get i) input := by
  cases o with
  | none => exact K.one _
  | some e =>
    simp only [evalArray]
    exact K.collect (ho e rfl hs hC input) fun values => K.one (.ok (.array values))

theorem evalKey_compositional {key : ObjectKey Expr} (hkey : ∀ e ∈ key.filter?, Transports budget Q e)
    (hs : s.undefinedKey key = []) (input : Value) {next : ι → List String → Outputs}
    (hnext : ∀ names, Q fun i => next i names) : Q fun i => evalKey key (C.get i) input (next i) := by
  cases key with
  | static name => exact hnext [name]
  | «variable» name span => exact hnext [name]
  | computed e =>
    simp only [evalKey]
    refine K.collect (hkey e rfl hs hC input) fun values => ?_
    cases keyNames values with
    | ok names => exact hnext names
    | error e => exact K.one _

/-- An entry without a value has a key that supplies one. -/
theorem evalEntryValue_compositional {key : ObjectKey Expr} {value : Option Expr}
    (hvalue : ∀ e ∈ value, Transports budget Q e) (hkey : s.undefinedKey key = [])
    (hs : s.undefinedMaybe value = []) (hlacks : lacksValue (key, value) = false) (input : Value)
    {next : ι → List Value → Outputs} (hnext : ∀ values, Q fun i => next i values) :
    Q fun i => evalEntryValue value key (C.get i) input (next i) := by
  cases value with
  | some e => exact K.collect (hvalue e rfl hs hC input) hnext
  | none =>
    cases key with
    | static name =>
      simp only [evalEntryValue, withImpliedValue]
      cases input.field name with
      | ok v => exact hnext [v]
      | error e => exact K.one _
    | «variable» name span =>
      have hname : s.hasVariable name = true := by
        by_contra hfree
        simp [Scope.undefinedKey, Scope.variableErrors, hfree] at hkey
      exact hC.withVariable hname fun v => hnext [v]
    | computed e => cases hlacks

theorem evalEntries_compositional {entries : List ObjectEntry}
    (hparts : ∀ entry ∈ entries, ∀ e ∈ Expr.entryParts entry, Transports budget Q e)
    (hs : s.undefinedEntries entries = []) (hlacks : ∀ entry ∈ entries, lacksValue entry = false)
    (input : Value) (objects : List (Members Value)) :
    Q fun i => evalEntries entries (C.get i) input objects := by
  induction entries generalizing objects with
  | nil => exact K.ofList (objects.map .object)
  | cons entry entries ih =>
    obtain ⟨key, value⟩ := entry
    simp only [Scope.undefinedEntries, List.append_eq_nil_iff] at hs
    obtain ⟨⟨hkey, hvalue⟩, hrest⟩ := hs
    have hentry := hparts (key, value) List.mem_cons_self
    refine evalKey_compositional K hC (fun e he => hentry e ?_) hkey input fun names =>
      evalEntryValue_compositional K hC (fun e he => hentry e ?_) hkey hvalue
        (hlacks (key, value) List.mem_cons_self) input fun values =>
        ih (fun other hother => hparts other (List.mem_cons_of_mem _ hother)) hrest
          (fun other hother => hlacks other (List.mem_cons_of_mem _ hother)) _
    · exact List.mem_append_left _ (Option.mem_toList.2 he)
    · exact List.mem_append_right _ (Option.mem_toList.2 he)

/-- A call without arguments reaches a definition or a builtin. -/
theorem evalCall_nil_compositional (hdescends : Descends budget Q) {name : String}
    (h : s.hasFunction name 0 = true) (input : Value) : Q fun i => evalCall name [] (C.get i) input := by
  simp only [evalCall, Contexts.get_definition?]
  cases hbody : C.definitions.lookup name with
  | some body => exact hC.sound name body hbody input
  | none =>
    have hfree : name ∉ s.definitions := fun hmem => by
      have := hC.definitions name hmem
      rw [hbody] at this
      cases this
    have hbuiltin : isBuiltin name 0 = true := by simpa [Scope.hasFunction, hfree] using h
    obtain ⟨b, hb⟩ := Option.isSome_iff_exists.1
      ((builtins_found _ (exists_mem_builtins hbuiltin)).1 rfl)
    simp only [Option.map_none, hb]
    exact callNullary_compositional K C hdescends input b

theorem evalCall_compositional (hdescends : Descends budget Q) {name : String} {args : List Expr}
    (hargs : ∀ e ∈ args, Transports budget Q e) (hs : s.undefinedAll args = [])
    (h : s.hasFunction name args.length = true)
    (hloops : (name, args.length) ∈ loopBuiltins → Loops budget Q) (input : Value) :
    Q fun i => evalCall name args (C.get i) input := by
  match args with
  | [] => exact evalCall_nil_compositional K hC hdescends h input
  | [f] =>
    have hbuiltin : isBuiltin name 1 = true := by simpa [Scope.hasFunction] using h
    obtain ⟨b, hb⟩ := Option.isSome_iff_exists.1
      ((builtins_found _ (exists_mem_builtins hbuiltin)).2.1 rfl)
    simp only [Scope.undefinedAll, List.append_nil] at hs
    simp only [evalCall, hb]
    refine callUnary_compositional K C input (hargs f List.mem_cons_self hs hC) b fun hloop =>
      hloops ?_
    rwa [Unary.name_of_ofName? hb] at hloop
  | [f, g] =>
    have hbuiltin : isBuiltin name 2 = true := by simpa [Scope.hasFunction] using h
    obtain ⟨b, hb⟩ := Option.isSome_iff_exists.1
      ((builtins_found _ (exists_mem_builtins hbuiltin)).2.2.1 rfl)
    simp only [Scope.undefinedAll, List.append_nil, List.append_eq_nil_iff] at hs
    simp only [evalCall, hb]
    refine callBinary_compositional K C input (hargs f List.mem_cons_self hs.1 hC)
      (hargs g (List.mem_cons_of_mem f List.mem_cons_self) hs.2 hC) b fun hloop => hloops ?_
    rwa [Binary.name_of_ofName? hb] at hloop
  | _ :: _ :: _ :: rest =>
    have hbuiltin : isBuiltin name (rest.length + 3) = true := by
      simpa [Scope.hasFunction] using h
    have := (builtins_found _ (exists_mem_builtins hbuiltin)).2.2.2
    dsimp only at this
    omega

end

/-- The filter is a call of a loop that need not come to an end. -/
def IsLoop : Expr → Prop
  | .call name args _ => (name, args.length) ∈ loopBuiltins
  | _ => False

/-- **What holds of evaluations whose loops come to an end.**  A property that the combinators without
loops pass on holds of the evaluations of a filter whose names are defined and whose computed keys have
values, if the loops in the filter, where there are any, pass it on too. -/
theorem eval_combines (K : Combines Q) (hdescends : Descends budget Q) {e : Expr} (he : e.Complete)
    (hloops : e.Everywhere fun x => IsLoop x → Loops budget Q) : Transports budget Q e := by
  induction e using Expr.induction with
  | step e ih =>
  replace ih : ∀ x ∈ e.parts, Transports budget Q x := fun x hx =>
    ih x hx (he.part hx) (hloops.part hx)
  intro s C hs hC input
  cases e with
  | identity => exact K.guarded (K.one _)
  | recurseAll => exact K.guarded (hdescends input)
  | literal value => exact K.guarded (K.one _)
  | field target name =>
    exact K.guarded (K.bind (ih target (by simp [Expr.parts]) hs hC input) fun v => K.one _)
  | index target i =>
    simp only [Scope.undefined, List.append_eq_nil_iff] at hs
    exact K.guarded (K.bind (ih target (by simp [Expr.parts]) hs.1 hC input) fun container =>
      K.mapOutcome container.index (ih i (by simp [Expr.parts]) hs.2 hC input))
  | slice target start stop =>
    simp only [Scope.undefined, List.append_eq_nil_iff] at hs
    obtain ⟨⟨htarget, hstart⟩, hstop⟩ := hs
    refine K.guarded (K.bind (ih target (by simp [Expr.parts]) htarget hC input) fun container =>
      K.bind (evalMaybe_compositional K hC (fun x hx => ih x ?_) hstop input) fun last =>
        K.mapOutcome (fun first => container.slice first last)
          (evalMaybe_compositional K hC (fun x hx => ih x ?_) hstart input))
    · simp [Expr.parts, Option.mem_toList.2 hx]
    · simp [Expr.parts, Option.mem_toList.2 hx]
  | iterate target =>
    exact K.guarded (K.bind (ih target (by simp [Expr.parts]) hs hC input) K.iterated)
  | array body =>
    exact K.guarded (evalArray_compositional K hC
      (fun x hx => ih x (Option.mem_toList.2 hx)) hs input)
  | object entries =>
    exact K.guarded (evalEntries_compositional K hC
      (fun entry hentry x hx => ih x (List.mem_flatMap.2 ⟨entry, hentry, hx⟩)) hs he.self input _)
  | neg operand =>
    exact K.guarded (K.mapOutcome negate (ih operand (by simp [Expr.parts]) hs hC input))
  | binary op left right =>
    simp only [Scope.undefined, List.append_eq_nil_iff] at hs
    have hleft := ih left (by simp [Expr.parts]) hs.1 hC input
    have hright := ih right (by simp [Expr.parts]) hs.2 hC input
    cases op with
    | and =>
      refine K.guarded (K.bind hleft fun l => ?_)
      split
      · exact K.mapOutcome (fun r => .ok (.bool r.truthy)) hright
      · exact K.one _
    | or =>
      refine K.guarded (K.bind hleft fun l => ?_)
      split
      · exact K.one _
      · exact K.mapOutcome (fun r => .ok (.bool r.truthy)) hright
    | _ => exact K.guarded (K.bind hright fun r => K.mapOutcome (fun l => applyOperator _ l r) hleft)
  | alternative left right =>
    simp only [Scope.undefined, List.append_eq_nil_iff] at hs
    refine K.guarded (K.withTruthy (ih left (by simp [Expr.parts]) hs.1 hC input) fun found => ?_)
    split
    · exact ih right (by simp [Expr.parts]) hs.2 hC input
    · exact K.ofList found
  | pipe left right =>
    simp only [Scope.undefined, List.append_eq_nil_iff] at hs
    exact K.guarded (K.bind (ih left (by simp [Expr.parts]) hs.1 hC input)
      (ih right (by simp [Expr.parts]) hs.2 hC))
  | comma left right =>
    simp only [Scope.undefined, List.append_eq_nil_iff] at hs
    exact K.guarded (K.append (ih left (by simp [Expr.parts]) hs.1 hC input)
      (ih right (by simp [Expr.parts]) hs.2 hC input))
  | cond test yes no =>
    simp only [Scope.undefined, List.append_eq_nil_iff] at hs
    obtain ⟨⟨htest, hyes⟩, hno⟩ := hs
    refine K.guarded (K.bind (ih test (by simp [Expr.parts]) htest hC input) fun t => ?_)
    split
    · exact ih yes (by simp [Expr.parts]) hyes hC input
    · exact evalBranch_compositional K hC
        (fun x hx => ih x (by simp [Expr.parts, Option.mem_toList.2 hx])) hno input
  | attempt body handler =>
    simp only [Scope.undefined, List.append_eq_nil_iff] at hs
    exact K.guarded (K.catchWith (ih body (by simp [Expr.parts]) hs.1 hC input)
      (evalHandler_compositional K hC
        (fun x hx => ih x (by simp [Expr.parts, Option.mem_toList.2 hx])) hs.2))
  | reduce source var init update =>
    simp only [Scope.undefined, List.append_eq_nil_iff] at hs
    obtain ⟨⟨hsource, hinit⟩, hupdate⟩ := hs
    exact K.guarded (K.bind (ih init (by simp [Expr.parts]) hinit hC input)
      (K.fold (ih source (by simp [Expr.parts]) hsource hC input)
        (fun acc v => ih update (by simp [Expr.parts]) hupdate (hC.bind var v) acc)
        fun acc => K.one _))
  | bind source var body =>
    simp only [Scope.undefined, List.append_eq_nil_iff] at hs
    exact K.guarded (K.bind (ih source (by simp [Expr.parts]) hs.1 hC input) fun v =>
      ih body (by simp [Expr.parts]) hs.2 (hC.bind var v) input)
  | define name body rest =>
    simp only [Scope.undefined, List.append_eq_nil_iff] at hs
    exact K.guarded (ih rest (by simp [Expr.parts]) hs.2
      (hC.define name (ih body (by simp [Expr.parts]) hs.1 hC)) input)
  | «variable» name span =>
    have hname : s.hasVariable name = true := by
      by_contra hfree
      simp [Scope.undefined, Scope.variableErrors, hfree] at hs
    exact K.guarded (hC.withVariable hname fun v => K.one _)
  | call name args span =>
    simp only [Scope.undefined, List.append_eq_nil_iff] at hs
    have hfunction : s.hasFunction name args.length = true := by
      by_contra hfree
      simp [Scope.callErrors, hfree] at hs
    exact K.guarded (evalCall_compositional K hC hdescends ih hs.1 hfunction hloops.self input)

/-- **What holds of every evaluation.**  A property that the combinators pass on holds of the
evaluations of a filter whose names are defined and whose computed keys have values. -/
theorem eval_compositional (K : Compositional budget Q) {e : Expr} (he : e.Complete) :
    Transports budget Q e :=
  eval_combines K.toCombines K.descends he (.of_forall (fun _ _ => K.toLoops) e)

end JsonFilter.Eval
