import JsonFilter.Proofs.Eval.Expansion
import JsonFilter.Proofs.Eval.Limits

/-!
# Definitions and their bodies

A definition is kept as what its body means where it was written.  So a filter behind a definition gives the
results that it gives with the body in place of every call, unless something on the way to a call takes one
of the names of the body for itself.

## What differs

The streams are not the same.  A call looks at the clock before the body does, and a definition looks at it
once more, so that a loop around the calls comes less far with the same number of turns.  Both streams are
taken to their limits, where each reaches all trees of the other.

* `Outputs.afterLook` — a stream behind its first look at the clock.
* `Contexts.Arises` — the contexts that an evaluation can be in.
* **`definitions_mean_their_bodies`** — calls and bodies give the same results, and a definition sees what
  was around it where it was written.
-/

namespace JsonFilter.Eval

open JsonFilter.Filter Json

/-! ### The first look at the clock -/

/-- What follows a first look at the clock before the deadline. -/
def Outputs.afterLook : Outputs → Outputs
  | .check next => next false
  | o => o

/-- Every evaluation starts with a look at the clock. -/
theorem eval_eq_guarded (e : Expr) (c : Context) (input : Value) :
    eval e c input = .guarded fun _ => (eval e c input).afterLook := by
  cases e with
  | binary op left right => cases op <;> rfl
  | _ => rfl

namespace Reaches

variable {part : Outputs} {o : Nat → Outputs}

/-- A look at the clock in the tree can be left out. -/
theorem of_guardedLeft {part : Unit → Outputs} (h : Reaches (.guarded part) o) : Reaches (part ()) o := by
  generalize heq : Outputs.guarded part = looked at h
  induction h with
  | exhausted | done | emit | pause => cases heq
  | checkLeft h _ =>
    cases heq
    exact h
  | checkRight next ho _ ih => exact .checkRight next ho (ih heq)

/-- A look at the clock in the streams can be left out. -/
theorem of_guardedRight (h : Reaches part fun turns => .guarded fun _ => o turns) : Reaches part o := by
  generalize heq : (fun turns => Outputs.guarded fun _ => o turns) = looked at h
  induction h with
  | exhausted => exact .exhausted
  | done ho | emit _ _ ho _ _ | pause _ ho _ _ =>
    obtain ⟨turns, h⟩ := ho.exists
    rw [← heq] at h
    cases h
  | checkLeft _ ih => exact .checkLeft (ih heq)
  | checkRight next ho hnext _ =>
    refine hnext.congr (ho.mono fun turns h => ?_)
    rw [← heq] at h
    exact congrFun (Outputs.check.inj h) false

end Reaches

/-! ### Contexts -/

namespace Contexts

variable {ι κ : Type} {budget : ι → Nat}

/-- The same contexts over other indices. -/
def pull (C : Contexts ι budget) (f : κ → ι) : Contexts κ (budget ∘ f) :=
  ⟨C.env, C.unresolved ∘ f, C.bindings, C.definitions.map fun (name, body) => (name, body ∘ f)⟩

theorem get_pull (C : Contexts ι budget) (f : κ → ι) (k : κ) : (C.pull f).get k = C.get (f k) := by
  simp only [get, pull, List.map_map]
  rfl

theorem lookup_pull (C : Contexts ι budget) (f : κ → ι) (name : String) :
    (C.pull f).definitions.lookup name = (C.definitions.lookup name).map fun body => body ∘ f := by
  unfold pull
  dsimp only
  induction C.definitions with
  | nil => rfl
  | cons d definitions ih =>
    obtain ⟨other, body⟩ := d
    simp only [List.map_cons, List.lookup_cons, ih]
    cases name == other <;> rfl

theorem Fits.pull {C : Contexts ι budget} {Q : (ι → Outputs) → Prop} {Q' : (κ → Outputs) → Prop}
    {s : Scope} (h : C.Fits Q s) (f : κ → ι) (hQ : ∀ o, Q o → Q' (o ∘ f)) : (C.pull f).Fits Q' s := by
  refine ⟨h.bindings, fun name hname => ?_, fun name body hbody v => ?_⟩
  · rw [lookup_pull, Option.isSome_map]
    exact h.definitions name hname
  · rw [lookup_pull] at hbody
    obtain ⟨body', hbody', rfl⟩ := Option.map_eq_some_iff.1 hbody
    exact hQ _ (h.sound name body' hbody' v)

end Contexts

/-- Among definitions that reach their own trees a filter reaches its own. -/
theorem eval_reaches {s : Scope} {C : Contexts Nat id} (hC : C.Fits (fun o => ∀ n, Reaches (o n) o) s)
    {e : Expr} (he : e.Complete) (hnames : s.undefined e = []) (input : Value) (n : Nat) :
    Reaches (eval e (C.get n) input) fun turns => eval e (C.get turns) input :=
  eval_compositional (reaches_compositional id id (fun _ => rfl) fun _ => rfl) he hnames hC input n

namespace Contexts

/-- The contexts that an evaluation can be in, one for each number of turns: the names of the scope were
bound and defined on the way, each definition by a filter that was accepted where it was written. -/
inductive Arises : Scope → Contexts Nat id → Prop
  | empty (env : Value) : Arises .empty (.empty id env fun _ => .failWith)
  | bind {s : Scope} {C : Contexts Nat id} (name : String) (v : Value) :
    Arises s C → Arises (s.bind name) (C.bind name v)
  | define {s : Scope} {C : Contexts Nat id} (name : String) {body : Expr} :
    Arises s C → body.Complete → s.undefined body = [] →
      Arises (s.define name) (C.define name fun turns => eval body (C.get turns))

/-- The definitions of such contexts have every property that the combinators pass on. -/
theorem Arises.fits_of_compositional {Q : (Nat → Outputs) → Prop} (K : Compositional id Q) {s : Scope}
    {C : Contexts Nat id} (h : Arises s C) : C.Fits Q s := by
  induction h with
  | empty env => exact .empty env _
  | bind name v _ ih => exact ih.bind name v
  | define name _ hcomplete hnames ih =>
    exact ih.define name fun v => eval_compositional K hcomplete hnames ih v

/-- They reach their own trees. -/
theorem Arises.fits {s : Scope} {C : Contexts Nat id} (h : Arises s C) :
    C.Fits (fun o => ∀ n, Reaches (o n) o) s :=
  h.fits_of_compositional (reaches_compositional id id (fun _ => rfl) fun _ => rfl)

end Contexts

/-! ### Definitions -/

section

variable {name : String} {body rest : Expr}

/-- **The body in place of the calls** gives the stream that the calls give, if a call does not look at the
clock itself. -/
theorem eval_inline (hrest : rest.Everywhere fun e =>
      ∀ n ∈ e.binder?, n ∉ body.free ∧ n ≠ .definition name) (c : Context) :
    eval (rest.inline name body) c =
      eval rest (c.define name fun input => (eval body c input).afterLook) := by
  let x : Expansion :=
    { bodies := fun other => if other = name then some body else none
      meaning := fun _ input => (eval body c input).afterLook
      home := c
      kept := body.free }
  have hbodies {other : String} {found : Expr} (h : x.bodies other = some found) :
      other = name ∧ body = found := by
    simpa [x] using h
  have hfaithful : x.Faithful := by
    intro other found hfound d hd input
    obtain ⟨-, rfl⟩ := hbodies hfound
    rw [eval_congr hd, eval_eq_guarded]
  have hspares : rest.Everywhere x.Spares := by
    refine hrest.mono fun e he n hn => ⟨(he n hn).1, fun other hother => ?_⟩
    exact if_neg fun heq => (he n hn).2 (hother.trans (congrArg Name.definition heq))
  refine eval_expand hfaithful hspares ⟨.refl c _, ?_, fun other hother => ?_⟩
  · refine ((Context.Agrees.refl c _).defineLeft _ fun hname => ?_).symm
    have := hname.2 name rfl
    simp [x] at this
  · obtain ⟨found, hfound⟩ := Option.isSome_iff_exists.1 hother
    rw [(hbodies hfound).1, Context.definition?_define, if_pos rfl]

/-- The contexts further inside, where variables were bound and other names defined. -/
inductive Context.Inside (name : String) (c : Context) : Context → Prop
  | refl : Inside name c c
  | bind {d : Context} (x : String) (v : Value) : Inside name c d → Inside name c (d.bind x v)
  | define {d : Context} {other : String} (meaning : Value → Outputs) :
    Inside name c d → other ≠ name → Inside name c (d.define other meaning)

theorem Context.Inside.definition? {c d : Context} (h : c.Inside name d) :
    d.definition? name = c.definition? name := by
  induction h with
  | refl => rfl
  | bind x v _ ih => exact ih
  | define meaning _ hne ih => rw [definition?_define, if_neg (Ne.symm hne), ih]

variable {s : Scope} {C : Contexts Nat id}

/-- With and without the extra look of a call, a filter behind a definition comes as far. -/
theorem reaches_define (hC : C.Arises s) (hcomplete : (Expr.define name body rest).Complete)
    (hnames : s.undefined (.define name body rest) = []) (input : Value) (n : Nat) :
    let called turns := eval rest ((C.get turns).define name (eval body (C.get turns))) input
    let inlined turns := eval rest ((C.get turns).define name fun v =>
      (eval body (C.get turns) v).afterLook) input
    Reaches (called n) inlined ∧ Reaches (inlined n) called := by
  obtain ⟨hbody, hrest⟩ := List.append_eq_nil_iff.1 hnames
  have hreaches v n := eval_reaches hC.fits (hcomplete.part (by simp [Expr.parts])) hbody v n
  let meaning (looks : Bool) (turns : Nat) (v : Value) : Outputs :=
    if looks then eval body (C.get turns) v else (eval body (C.get turns) v).afterLook
  -- Of an index the first component tells whether the calls look at the clock, too.
  let D : Contexts (Bool × Nat) (id ∘ Prod.snd) :=
    (C.pull Prod.snd).define name fun i => meaning i.1 i.2
  have hget : ∀ i, D.get i = (C.get i.2).define name (meaning i.1 i.2) := fun i =>
    congrArg (fun c : Context => c.define name _) (C.get_pull Prod.snd i)
  have htransport (looks : Bool)
      (hmeaning : ∀ v n, Reaches (meaning looks n v) fun turns => meaning (!looks) turns v) :
      Reaches (eval rest (D.get (looks, n)) input) fun turns =>
        eval rest (D.get (!looks, turns)) input :=
    eval_compositional
      (reaches_compositional (fun n => (looks, n)) (fun n => (!looks, n)) (fun _ => rfl) fun _ => rfl)
      (hcomplete.part (by simp [Expr.parts])) hrest
      ((hC.fits.pull Prod.snd fun o ho n => ho n).define name fun v n => hmeaning v n) input n
  simp only [hget] at htransport
  refine ⟨htransport true fun v n => ?_, htransport false fun v n => ?_⟩
  · have hlooked : Reaches (eval body (C.get n) v) fun turns =>
        .guarded fun _ => (eval body (C.get turns) v).afterLook :=
      (hreaches v n).congr (.of_forall fun turns => (eval_eq_guarded body (C.get turns) v).symm)
    exact hlooked.of_guardedRight
  · have hlooked := hreaches v n
    rw [eval_eq_guarded] at hlooked
    exact hlooked.of_guardedLeft

/-- **Definitions mean their bodies.**  In every context that an evaluation can be in, on every input and
without a deadline, a filter behind a definition gives the results that it gives with the body in place of
every call, values and raised errors in order, if nothing in it binds a name that is free in the body or
defines the defined name again.

A call gives what the body gives where it was written, whatever is bound or defined around the call. -/
theorem definitions_mean_their_bodies (hC : C.Arises s)
    (hcomplete : (Expr.define name body rest).Complete)
    (hnames : s.undefined (.define name body rest) = []) (input : Value) :
    (rest.Everywhere (fun e => ∀ n ∈ e.binder?, n ∉ body.free ∧ n ≠ .definition name) →
      SameResults (fun turns => eval (.define name body rest) (C.get turns) input)
        fun turns => eval (rest.inline name body) (C.get turns) input) ∧
      ∀ turns d, ((C.get turns).define name (eval body (C.get turns))).Inside name d →
        ∀ span, eval (.call name [] span) d input = .guarded fun _ => eval body (C.get turns) input := by
  refine ⟨fun hbinders => ?_, fun turns d hd span => ?_⟩
  · simp only [eval_inline hbinders]
    constructor
    · exact Reaches.covers fun n => (reaches_define hC hcomplete hnames input n).1.guardedLeft
    · exact Reaches.covers fun n => (reaches_define hC hcomplete hnames input n).2.guardedRight
  · simp only [eval, evalCall, hd.definition?, Context.definition?_define, if_pos]

end

/-- `def length: length, $n; def twice: length | length; . as $x | [length, twice, $x]`, where `$n` is bound:
the defined name is that of a builtin, and a definition behind it uses it. -/
theorem definitions_mean_their_bodies_builtin :
    let call (name : String) : Expr := .call name [] (.point 0)
    let body : Expr := .comma (call "length") (.variable "n" (.point 0))
    let rest : Expr := .define "twice" (.pipe (call "length") (call "length"))
      (.bind .identity "x" (.array (some
        (.comma (call "length") (.comma (call "twice") (.variable "x" (.point 0)))))))
    let C := (Contexts.empty id .null fun _ => .failWith).bind "n" (.ofNat 1)
    SameResults (fun turns => eval (.define "length" body rest) (C.get turns) (.string "ab"))
        (fun turns => eval (rest.inline "length" body) (C.get turns) (.string "ab")) ∧
      eval (call "length") (((C.get 7).define "length" (eval body (C.get 7))).bind "n" .null)
        (.string "ab") = .guarded fun _ => eval body (C.get 7) (.string "ab") := by
  intro call body rest C
  have hC : C.Arises (Scope.empty.bind "n") := .bind "n" (.ofNat 1) (.empty .null)
  have hcomplete : (Expr.define "length" body rest).Complete := by
    simp [Expr.Complete, Expr.Everywhere.iff_forall_parts, Expr.parts, Expr.KeysHaveValues, body,
      rest, call]
  have hbinders : rest.Everywhere fun e =>
      ∀ n ∈ e.binder?, n ∉ body.free ∧ n ≠ .definition "length" := by
    simp [Expr.Everywhere.iff_forall_parts, Expr.parts, Expr.binder?, Expr.free, Expr.freeAll, body,
      rest, call]
  have h := definitions_mean_their_bodies hC hcomplete (by decide) (.string "ab")
  exact ⟨h.1 hbinders, h.2 7 _ (.bind "n" .null .refl) _⟩

end JsonFilter.Eval
