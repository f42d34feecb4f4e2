import JsonFilter.Proofs.Eval.Termination
import JsonFilter.Proofs.Json.Parts

/-!
# Filters without loops

Six builtins can go on for ever.  A filter that calls none of them ends, without any deadline: bodies of
definitions stand for finite streams where they are written, folds and bindings go through finite streams,
and the walk that `..` makes ends because the value it goes through is finite.

## Trees that stay the same

The number of turns that loops are given is then no part of the meaning, if it is large enough.  `Settles`
says so of a family of trees: all of them but finitely many are one and the same tree, and no loop in it is
cut off.  Where a combinator calls a function for each value of a tree, there are finitely many calls, so
the induction is on the tree.

* `Settles.through` — it is enough to look at a combinator on trees that do not depend on the turns.
* `Settles.descend` — the walk through a value and everything inside it, by induction on the value.
* **`settles_combines`** — the combinators without loops pass on that trees settle.
* **`loop_free_filters_end`** — filters without endless loops end, with finitely many results.
-/

namespace JsonFilter

open Eval JsonFilter.Filter
open Json (Value Outcome)

namespace Eval

namespace Outputs

/-- No loop in the tree was cut off, whatever the answers of the clock. -/
def Whole : Outputs → Prop
  | .done => True
  | .emit _ rest => (rest ()).Whole
  | .check next => (next true).Whole ∧ (next false).Whole
  | .pause next => (next ()).Whole
  | .exhausted => False

/-- A consumer of such a tree comes to its end. -/
theorem Whole.complete {o : Outputs} (h : o.Whole) (clock : Clock) :
    (o.transcript clock).complete = true := by
  induction o generalizing clock with
  | done => rfl
  | emit r rest ih => exact ih () h clock
  | check next ih =>
    show ((next clock.look.1).transcript clock.look.2).complete = true
    cases clock.look.1 with
    | true => exact ih true h.1 clock.look.2
    | false => exact ih false h.2 clock.look.2
  | pause next ih => exact ih () h clock
  | exhausted => exact h.elim

end Outputs

/-- From some number of turns on there is only one tree, and no loop in it was cut off. -/
def Settles (o : Nat → Outputs) : Prop :=
  ∃ tree : Outputs, tree.Whole ∧ ∀ᶠ turns in Filter.atTop, o turns = tree

namespace Settles

variable {o more : Nat → Outputs} {tree : Outputs}

/-- Finitely many numbers of turns do not matter. -/
theorem congr {o' : Nat → Outputs} (h : Settles o) (heq : ∀ᶠ turns in Filter.atTop, o' turns = o turns) :
    Settles o' := by
  obtain ⟨tree, hwhole, htree⟩ := h
  exact ⟨tree, hwhole, (heq.and htree).mono fun _ h => h.1.trans h.2⟩

theorem of_whole (h : tree.Whole) : Settles fun _ => tree := ⟨tree, h, .of_forall fun _ => rfl⟩

/-- **It is enough to look at fixed trees.** -/
theorem through {f : Nat → Outputs → Outputs} (h : Settles o)
    (hf : ∀ tree : Outputs, tree.Whole → Settles fun turns => f turns tree) :
    Settles fun turns => f turns (o turns) := by
  obtain ⟨tree, hwhole, htree⟩ := h
  exact (hf tree hwhole).congr (htree.mono fun turns h => congrArg (f turns) h)

/-- What a consumer sees of such trees. -/
theorem transcript (h : Settles o) (clock : Clock) :
    ∃ t, t.complete = true ∧ ∀ᶠ turns in Filter.atTop, (o turns).transcript clock = t := by
  obtain ⟨tree, hwhole, htree⟩ := h
  refine ⟨tree.transcript clock, hwhole.complete clock, ?_⟩
  filter_upwards [htree] with turns hsame
  rw [hsame]

/-! ### Single nodes -/

theorem nothing : Settles fun _ => .done := of_whole trivial

theorem result (r : Result) (h : Settles o) : Settles fun turns => .emit r fun _ => o turns :=
  h.through (f := fun _ tree => .emit r fun _ => tree) fun _ hwhole => of_whole hwhole

theorem one (r : Result) : Settles fun _ => .one r := .result r .nothing

theorem later (h : Settles o) : Settles fun turns => .pause fun _ => o turns :=
  h.through (f := fun _ tree => .pause fun _ => tree) fun _ hwhole => of_whole hwhole

theorem check {next : Bool → Nat → Outputs} (htrue : Settles (next true))
    (hfalse : Settles (next false)) : Settles fun turns => .check fun expired => next expired turns := by
  obtain ⟨late, hlate, heventually⟩ := htrue
  obtain ⟨early, hearly, heventually'⟩ := hfalse
  refine ⟨.check fun expired => if expired then late else early, ⟨hlate, hearly⟩, ?_⟩
  filter_upwards [heventually, heventually'] with turns h h'
  congr 1
  funext expired
  cases expired with
  | true => exact h
  | false => exact h'

theorem guarded (h : Settles o) : Settles fun turns => .guarded fun _ => o turns := by
  have htimeout : Settles fun _ => .fail .timeout := one (.error .timeout)
  exact check htimeout h

/-! ### Combination -/

theorem append (h : Settles o) (hmore : Settles more) :
    Settles fun turns => (o turns).append fun _ => more turns := by
  refine h.through (f := fun turns tree => tree.append fun _ => more turns) fun tree hwhole => ?_
  induction tree with
  | done => exact hmore.later
  | emit r rest ih => exact .result r (ih () hwhole)
  | check next ih => exact .check (ih true hwhole.1) (ih false hwhole.2)
  | pause next ih => exact .later (ih () hwhole)
  | exhausted => exact hwhole.elim

theorem bind {f : Nat → Value → Outputs} (h : Settles o) (hf : ∀ v, Settles fun turns => f turns v) :
    Settles fun turns => (o turns).bind (f turns) := by
  refine h.through (f := fun turns tree => tree.bind (f turns)) fun tree hwhole => ?_
  induction tree with
  | done => exact nothing
  | emit r rest ih =>
    cases r with
    | ok v => exact .later ((hf v).append (ih () hwhole))
    | error e => exact .result (.error e) (ih () hwhole)
  | check next ih => exact .check (ih true hwhole.1) (ih false hwhole.2)
  | pause next ih => exact .later (ih () hwhole)
  | exhausted => exact hwhole.elim

theorem mapOutcome (f : Value → Outcome Value) (h : Settles o) :
    Settles fun turns => (o turns).mapOutcome f := by
  refine h.through fun tree hwhole => ?_
  induction tree with
  | done => exact nothing
  | emit r rest ih =>
    cases r with
    | ok v => exact .result (resultOf (f v)) (ih () hwhole)
    | error e => exact .result (.error e) (ih () hwhole)
  | check next ih => exact .check (ih true hwhole.1) (ih false hwhole.2)
  | pause next ih => exact .later (ih () hwhole)
  | exhausted => exact hwhole.elim

theorem take (n : Nat) (h : Settles o) : Settles fun turns => (o turns).take n := by
  refine h.through fun tree hwhole => ?_
  induction tree generalizing n with
  | done => cases n <;> exact nothing
  | emit r rest ih =>
    cases n with
    | zero => exact nothing
    | succ n => exact .result r (ih () n hwhole)
  | check next ih =>
    cases n with
    | zero => exact nothing
    | succ n => exact .check (ih true (n + 1) hwhole.1) (ih false (n + 1) hwhole.2)
  | pause next ih =>
    cases n with
    | zero => exact nothing
    | succ n => exact .later (ih () (n + 1) hwhole)
  | exhausted => exact hwhole.elim

theorem checkEach (h : Settles o) : Settles fun turns => (o turns).checkEach := by
  refine h.through fun tree hwhole => ?_
  induction tree with
  | done => exact nothing
  | emit r rest ih => exact .check (.result (.error .timeout) (ih () hwhole)) (.result r (ih () hwhole))
  | check next ih => exact .check (ih true hwhole.1) (ih false hwhole.2)
  | pause next ih => exact .later (ih () hwhole)
  | exhausted => exact hwhole.elim

theorem catchWith {handler : Nat → Value → Outputs} (h : Settles o)
    (hhandler : ∀ v, Settles fun turns => handler turns v) :
    Settles fun turns => (o turns).catchWith (handler turns) := by
  refine h.through fun tree hwhole => ?_
  induction tree with
  | done => exact nothing
  | emit r rest ih =>
    cases r with
    | ok v => exact .result (.ok v) (ih () hwhole)
    | error e =>
      cases e with
      | raised v => exact (hhandler v).later
      | timeout => exact one (.error .timeout)
  | check next ih => exact .check (ih true hwhole.1) (ih false hwhole.2)
  | pause next ih => exact .later (ih () hwhole)
  | exhausted => exact hwhole.elim

theorem settle {next : Nat → Outputs → Outputs} (h : Settles o)
    (hnext : ∀ tree : Outputs, tree.Whole → Settles fun turns => next turns tree) :
    Settles fun turns => (o turns).settle (next turns) := by
  refine h.through fun tree hwhole => ?_
  induction tree with
  | done | emit | pause => exact hnext _ hwhole
  | check next ih => exact .check (ih true hwhole.1) (ih false hwhole.2)
  | exhausted => exact hwhole.elim

theorem untilFailure (h : Settles o) : Settles fun turns => (o turns).untilFailure := by
  refine h.through fun tree hwhole => ?_
  induction tree with
  | done => exact nothing
  | emit r rest ih =>
    cases r with
    | ok v => exact .guarded (.result (.ok v) (ih () hwhole))
    | error e => exact one (.error e)
  | check next ih => exact .check (ih true hwhole.1) (ih false hwhole.2)
  | pause next ih => exact .later (ih () hwhole)
  | exhausted => exact hwhole.elim

/-! ### Consumption -/

theorem drain {σ : Type} {step : Nat → σ → Result → σ ⊕ Outputs} {finish : Nat → σ → Outputs}
    (h : Settles o) (hfinish : ∀ s, Settles fun turns => finish turns s)
    (hstep : ∀ s r, Leads Settles fun turns => step turns s r) (s : σ) :
    Settles fun turns => Outputs.drain (step turns) (finish turns) s (o turns) := by
  refine h.through fun tree hwhole => ?_
  induction tree generalizing s with
  | done => exact hfinish s
  | emit r rest ih =>
    obtain ⟨s', hs'⟩ | ⟨out, hout, hleave⟩ := (hstep s r).inl_or_inr
    · exact (ih () s' hwhole).congr (.of_forall fun turns => by rw [Outputs.drain, hs'])
    · exact hout.congr (.of_forall fun turns => by rw [Outputs.drain, hleave])
  | check next ih => exact .check (ih true s hwhole.1) (ih false s hwhole.2)
  | pause next ih => exact ih () s hwhole
  | exhausted => exact hwhole.elim

theorem withLast {next : Nat → Option Value → Outputs} (h : Settles o)
    (hnext : ∀ last, Settles fun turns => next turns last) :
    Settles fun turns => Outputs.withLast (o turns) (next turns) := by
  refine h.drain hnext (fun last r => ?_) none
  cases r with
  | ok v => exact .goOn (some v)
  | error e => exact .leave (one (.error e))

theorem fold {update : Nat → Value → Value → Outputs} {next : Nat → Value → Outputs} (h : Settles o)
    (hupdate : ∀ acc v, Settles fun turns => update turns acc v)
    (hnext : ∀ acc, Settles fun turns => next turns acc) (acc : Value) :
    Settles fun turns => Outputs.fold (update turns) (next turns) (o turns) acc := by
  refine h.through (f := fun turns tree => Outputs.fold (update turns) (next turns) tree acc)
    fun tree hwhole => ?_
  induction tree generalizing acc with
  | done => exact hnext acc
  | emit r rest ih =>
    cases r with
    | ok v =>
      have hrest : ∀ last : Option Value, Settles fun turns =>
          Outputs.fold (update turns) (next turns) (rest ()) (last.getD .null) :=
        fun last => ih () (last.getD .null) hwhole
      exact guarded ((hupdate acc v).withLast hrest)
    | error e => exact one (.error e)
  | check next ih => exact .check (ih true acc hwhole.1) (ih false acc hwhole.2)
  | pause next ih => exact ih () acc hwhole
  | exhausted => exact hwhole.elim

/-! ### The walk through a value -/

/-- A walk with this stack comes to its end, however many turns were made before. -/
def Clears (step : Value → Outputs) (stack : List Outputs) : Prop :=
  ∀ used, Settles fun turns => Outputs.traverse step (turns - used) stack

/-- The values directly inside a value. -/
def inside (v : Value) : Outputs := .ofList v.children

/-- Values on top of a stack, if from each of them the walk comes back. -/
theorem clears_ofList {values : List Value} {stack : List Outputs}
    (hvalues : ∀ v ∈ values, ∀ stack, Clears inside stack → Clears inside (inside v :: stack))
    (hstack : Clears inside stack) : Clears inside (.ofList values :: stack) := by
  induction values with
  | nil =>
    intro used
    refine (hstack (used + 1)).congr ?_
    filter_upwards [Ends.eventually_turn used] with turns hturn
    rw [hturn, Outputs.ofList, Outputs.traverse]
  | cons v values ih =>
    have hbelow : Clears inside (.ofList values :: stack) :=
      ih fun x hx => hvalues x (List.mem_cons_of_mem v hx)
    have hwalk := hvalues v List.mem_cons_self (.ofList values :: stack) hbelow
    intro used
    refine (guarded (.result (.ok v) (hwalk (used + 1)))).congr ?_
    filter_upwards [Ends.eventually_turn used] with turns hturn
    rw [hturn, Outputs.ofList, Outputs.traverse]
    -- A list of values has no work that is done ahead.
    unfold inside
    cases v.children <;> rfl

/-- The walk comes back from everything inside a value. -/
theorem clears_inside (v : Value) {stack : List Outputs} (hstack : Clears inside stack) :
    Clears inside (inside v :: stack) := by
  induction v using Value.induction generalizing stack with
  | step v ih => exact clears_ofList (fun x hx _ h => ih x hx h) hstack

/-- **The walk through a value ends.** -/
theorem descend (v : Value) : Settles fun turns => Outputs.recurseWith turns inside v := by
  have hempty : Clears inside [] := fun used => by
    refine nothing.congr ?_
    filter_upwards [Ends.eventually_turn used] with turns hturn
    rw [hturn, Outputs.traverse]
  have hwalk : Clears inside [.ofList [v]] :=
    clears_ofList (fun x _ _ h => clears_inside x h) hempty
  exact later (hwalk 0)

end Settles

/-- **Combinators without loops make trees that settle** from trees that do. -/
theorem settles_combines : Combines Settles where
  done := .nothing
  emit r _ h := .result r h
  guarded h := .guarded h
  pause h := .later h
  append ho hmore := ho.append hmore
  bind ho hf := ho.bind hf
  mapOutcome f ho := ho.mapOutcome f
  take n ho := ho.take n
  limit n ho := ho.settle fun _ hwhole => ((Settles.of_whole hwhole).take n).checkEach
  catchWith ho hhandler := ho.catchWith hhandler
  drain ho hfinish hstep _ s := ho.drain hfinish hstep s
  fold ho hupdate hnext acc := ho.fold hupdate hnext acc

end Eval

/-! ### Filters -/

namespace Filter.Expr

instance : DecidablePred IsLoop := fun e => by
  cases e <;> unfold IsLoop <;> infer_instance

/-- Nowhere in the filter is a call of a loop that need not come to an end. -/
def LoopFree (e : Expr) : Prop := e.Everywhere fun x => ¬IsLoop x

/-- The same, looked up in a filter that is not nested deeper than this. -/
def isLoopFree : Nat → Expr → Bool
  | 0, _ => false
  | depth + 1, e => !decide (IsLoop e) && e.parts.all (isLoopFree depth)

theorem LoopFree.of_isLoopFree {depth : Nat} {e : Expr} (h : e.isLoopFree depth = true) :
    e.LoopFree := by
  induction depth generalizing e with
  | zero => cases h
  | succ depth ih =>
    simp only [isLoopFree, Bool.and_eq_true, Bool.not_eq_true', decide_eq_false_iff_not,
      List.all_eq_true] at h
    exact .intro h.1 fun x hx => ih (h.2 x hx)

end Filter.Expr

namespace CompiledFilter

variable {environment : Value} {key : FilterKey} {f : CompiledFilter}

/-- The tree of a compiled filter without loops settles. -/
theorem settles_eval (h : compile environment key = .ok f) (hloops : f.body.LoopFree) (input : Value) :
    Settles fun turns => eval f.body (.empty f.env turns) input := by
  obtain ⟨hnames, hcomplete⟩ := compile_resolved h
  have hfree : f.body.Everywhere fun x => IsLoop x → Loops id Settles :=
    hloops.mono fun _ hnone hloop => absurd hloop hnone
  exact eval_combines settles_combines Settles.descend hcomplete hfree hnames
    (Contexts.Fits.empty f.env fun _ => .failWith) input

/-- **Filters without loops end.**  A compiled filter that calls none of the builtins that can go on for
ever has a last step and a last result on every input and in every environment, without any deadline.
That is so of the whole stream, failures passed over, as well as of the run, which the first failure ends.
The walk that `..` makes has turns enough from some number on, and more turns change neither the results
nor the number of steps. -/
theorem loop_free_filters_end (h : compile environment key = .ok f) (hloops : f.body.LoopFree)
    (input : Value) :
    ∃ turns stream run, stream.complete = true ∧ run.complete = true ∧ ∀ more ≥ turns,
      (eval f.body (.empty f.env more) input).transcript .unlimited = stream ∧
        (f.runWithin more input).transcript .unlimited = run := by
  have hstream := settles_eval h hloops input
  obtain ⟨stream, hstreamEnds, hstreamLate⟩ := hstream.transcript .unlimited
  obtain ⟨run, hrunEnds, hrunLate⟩ := hstream.untilFailure.transcript .unlimited
  obtain ⟨turns, hturns⟩ := Filter.eventually_atTop.1 (hstreamLate.and hrunLate)
  exact ⟨turns, stream, run, hstreamEnds, hrunEnds, hturns⟩

/-- Compiles, and looks for loops in the tree. -/
theorem exists_loopFree (depth : Nat)
    (h : ((compile environment key).toOption.any fun f => f.body.isLoopFree depth) = true) :
    ∃ f, compile environment key = .ok f ∧ f.body.LoopFree := by
  cases hcompile : compile environment key with
  | error e =>
    rw [hcompile] at h
    cases h
  | ok f =>
    rw [hcompile] at h
    exact ⟨f, rfl, .of_isLoopFree h⟩

/-- Definitions that call definitions and so double the work, folds and walks inside one another, and a
handler behind them. -/
theorem loop_free_filters_end_nested :
    ∃ f, compile (.object []) ⟨"def once: [..] | length; def twice: once, once; def four: twice | twice; " ++
        "reduce .. as $x (0; . + four) // try error([recurse]) catch (.[] as $x | $x, first(.[]?))",
        true⟩ = .ok f ∧ f.body.LoopFree ∧
      ∃ turns stream run, stream.complete = true ∧ run.complete = true ∧ ∀ more ≥ turns,
        (eval f.body (.empty f.env more) (.array [.ofNat 1])).transcript .unlimited = stream ∧
          (f.runWithin more (.array [.ofNat 1])).transcript .unlimited = run :=
  (exists_loopFree 20 (by decide +kernel)).imp fun _ hf =>
    ⟨hf.1, hf.2, loop_free_filters_end hf.1 hf.2 (.array [.ofNat 1])⟩

end CompiledFilter

end JsonFilter
