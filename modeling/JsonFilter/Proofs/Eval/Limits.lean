import Mathlib.Order.Filter.AtTopBot.Basic
import JsonFilter.Proofs.Eval.Termination

/-!
# Streams without a deadline

Without a deadline a filter may be endless, and then its stream is no tree: it is the limit of the trees
that are given more and more turns for each loop.  Two filters may come to the same results although their
trees differ, in the looks at the clock and in how far a given number of turns takes them.

## Reaching a tree

`Reaches part o` says that the streams `o`, one for each number of turns, go at least as far as the tree
`part`: from some number of turns on they show all of it, apart from looks at the clock, and where `part`
ends in a loop that was cut off they may go on.  The cost of a look does not matter, since the streams may
take as many turns as they need.

* **`reaches_compositional`** — every combinator of the evaluation passes the relation on.
* `Reaches.traverse` — a traversal goes as far, even where it has to take more turns.

## Results

`Covers o o'` says that every result of the one stream is one of the other, in the same place, and that the
other ends where the one ends.  `SameResults` is that in both directions.

* **`Reaches.covers`** — streams that reach all trees of others show all of their results.
* `Gives`, `Halts` — the stream ends by itself.
* `Reaches.eventually_late` — a deadline behind the end does not show.
-/

namespace JsonFilter.Eval

open Json (Value Outcome)

/-- From some number of turns on the streams show all of a tree, looks at the clock left out, while the
deadline does not pass. -/
inductive Reaches : Outputs → (Nat → Outputs) → Prop
  | exhausted {o : Nat → Outputs} : Reaches .exhausted o
  | done {o : Nat → Outputs} : (∀ᶠ turns in Filter.atTop, o turns = .done) → Reaches .done o
  | emit {part : Unit → Outputs} {o : Nat → Outputs} (r : Result) (rest : Nat → Outputs) :
    (∀ᶠ turns in Filter.atTop, o turns = .emit r fun _ => rest turns) → Reaches (part ()) rest →
      Reaches (.emit r part) o
  | pause {part : Unit → Outputs} {o : Nat → Outputs} (next : Nat → Outputs) :
    (∀ᶠ turns in Filter.atTop, o turns = .pause fun _ => next turns) → Reaches (part ()) next →
      Reaches (.pause part) o
  | checkLeft {part : Bool → Outputs} {o : Nat → Outputs} :
    Reaches (part false) o → Reaches (.check part) o
  | checkRight {part : Outputs} {o : Nat → Outputs} (next : Bool → Nat → Outputs) :
    (∀ᶠ turns in Filter.atTop, o turns = .check fun expired => next expired turns) →
      Reaches part (next false) → Reaches part o

namespace Reaches

variable {part more : Outputs} {o others : Nat → Outputs}

/-- Finitely many numbers of turns do not matter. -/
theorem congr {o' : Nat → Outputs} (h : Reaches part o) (heq : ∀ᶠ turns in Filter.atTop, o' turns = o turns) :
    Reaches part o' := by
  induction h with
  | exhausted => exact .exhausted
  | done ho => exact .done (heq.and ho |>.mono fun _ h => h.1.trans h.2)
  | emit r rest ho hrest _ => exact .emit r rest (heq.and ho |>.mono fun _ h => h.1.trans h.2) hrest
  | pause next ho hnext _ => exact .pause next (heq.and ho |>.mono fun _ h => h.1.trans h.2) hnext
  | checkLeft _ ih => exact .checkLeft (ih heq)
  | checkRight next ho hnext _ =>
    exact .checkRight next (heq.and ho |>.mono fun _ h => h.1.trans h.2) hnext

/-! ### Single nodes -/

theorem nothing : Reaches .done fun _ => .done := .done (.of_forall fun _ => rfl)

theorem result (r : Result) (h : Reaches part o) :
    Reaches (.emit r fun _ => part) fun turns => .emit r fun _ => o turns :=
  .emit r o (.of_forall fun _ => rfl) h

theorem one (r : Result) : Reaches (.one r) fun _ => .one r := .result r .nothing

theorem later (h : Reaches part o) :
    Reaches (.pause fun _ => part) fun turns => .pause fun _ => o turns :=
  .pause o (.of_forall fun _ => rfl) h

theorem guardedLeft (h : Reaches part o) : Reaches (.guarded fun _ => part) o := .checkLeft h

theorem guardedRight (h : Reaches part o) : Reaches part fun turns => .guarded fun _ => o turns :=
  .checkRight (fun expired turns => if expired then .fail .timeout else o turns)
    (.of_forall fun _ => rfl) h

theorem guarded (h : Reaches part o) :
    Reaches (.guarded fun _ => part) fun turns => .guarded fun _ => o turns :=
  h.guardedRight.guardedLeft

/-! ### Combination -/

theorem append (h : Reaches part o) (hmore : Reaches more others) :
    Reaches (part.append fun _ => more) fun turns => (o turns).append fun _ => others turns := by
  induction h with
  | exhausted => exact .exhausted
  | done ho => exact .pause others (ho.mono fun _ h => by rw [h]; rfl) hmore
  | emit r rest ho _ ih => exact .emit r _ (ho.mono fun _ h => by rw [h]; rfl) ih
  | pause next ho _ ih => exact .pause _ (ho.mono fun _ h => by rw [h]; rfl) ih
  | checkLeft _ ih => exact .checkLeft ih
  | checkRight next ho _ ih =>
    exact .checkRight (fun expired turns => (next expired turns).append fun _ => others turns)
      (ho.mono fun _ h => by rw [h]; rfl) ih

theorem bind {f : Value → Outputs} {fs : Nat → Value → Outputs} (h : Reaches part o)
    (hf : ∀ v, Reaches (f v) fun turns => fs turns v) :
    Reaches (part.bind f) fun turns => (o turns).bind (fs turns) := by
  induction h with
  | exhausted => exact .exhausted
  | done ho => exact .done (ho.mono fun _ h => by rw [h]; rfl)
  | emit r rest ho _ ih =>
    cases r with
    | ok v => exact .pause _ (ho.mono fun _ h => by rw [h]; rfl) ((hf v).append ih)
    | error e => exact .emit (.error e) _ (ho.mono fun _ h => by rw [h]; rfl) ih
  | pause next ho _ ih => exact .pause _ (ho.mono fun _ h => by rw [h]; rfl) ih
  | checkLeft _ ih => exact .checkLeft ih
  | checkRight next ho _ ih =>
    exact .checkRight (fun expired turns => (next expired turns).bind (fs turns))
      (ho.mono fun _ h => by rw [h]; rfl) ih

theorem mapOutcome (f : Value → Outcome Value) (h : Reaches part o) :
    Reaches (part.mapOutcome f) fun turns => (o turns).mapOutcome f := by
  induction h with
  | exhausted => exact .exhausted
  | done ho => exact .done (ho.mono fun _ h => by rw [h]; rfl)
  | emit r rest ho _ ih =>
    cases r with
    | ok v => exact .emit _ _ (ho.mono fun _ h => by rw [h]; rfl) ih
    | error e => exact .emit (.error e) _ (ho.mono fun _ h => by rw [h]; rfl) ih
  | pause next ho _ ih => exact .pause _ (ho.mono fun _ h => by rw [h]; rfl) ih
  | checkLeft _ ih => exact .checkLeft ih
  | checkRight next ho _ ih =>
    exact .checkRight (fun expired turns => (next expired turns).mapOutcome f)
      (ho.mono fun _ h => by rw [h]; rfl) ih

theorem take_succ (n : Nat) (h : Reaches part o) :
    Reaches (part.take (n + 1)) fun turns => (o turns).take (n + 1) := by
  induction h generalizing n with
  | exhausted => exact .exhausted
  | done ho => exact .done (ho.mono fun _ h => by rw [h]; rfl)
  | emit r rest ho _ ih =>
    refine .emit r (fun turns => (rest turns).take n) (ho.mono fun _ h => by rw [h]; rfl) ?_
    cases n with
    | zero => simpa only [Outputs.take_zero] using nothing
    | succ n => exact ih n
  | pause next ho _ ih => exact .pause _ (ho.mono fun _ h => by rw [h]; rfl) (ih n)
  | checkLeft _ ih => exact .checkLeft (ih n)
  | checkRight next ho _ ih =>
    exact .checkRight (fun expired turns => (next expired turns).take (n + 1))
      (ho.mono fun _ h => by rw [h]; rfl) (ih n)

theorem take (n : Nat) (h : Reaches part o) : Reaches (part.take n) fun turns => (o turns).take n := by
  cases n with
  | zero => simpa only [Outputs.take_zero] using nothing
  | succ n => exact h.take_succ n

theorem checkEach (h : Reaches part o) :
    Reaches part.checkEach fun turns => (o turns).checkEach := by
  induction h with
  | exhausted => exact .exhausted
  | done ho => exact .done (ho.mono fun _ h => by rw [h]; rfl)
  | emit r rest ho _ ih =>
    refine .checkLeft (.checkRight (fun expired turns =>
      .emit (if expired then .error .timeout else r) fun _ => (rest turns).checkEach)
        (ho.mono fun _ h => by rw [h]; rfl) (.result r ih))
  | pause next ho _ ih => exact .pause _ (ho.mono fun _ h => by rw [h]; rfl) ih
  | checkLeft _ ih => exact .checkLeft ih
  | checkRight next ho _ ih =>
    exact .checkRight (fun expired turns => (next expired turns).checkEach)
      (ho.mono fun _ h => by rw [h]; rfl) ih

theorem catchWith {handler : Value → Outputs} {handlers : Nat → Value → Outputs} (h : Reaches part o)
    (hhandler : ∀ v, Reaches (handler v) fun turns => handlers turns v) :
    Reaches (part.catchWith handler) fun turns => (o turns).catchWith (handlers turns) := by
  induction h with
  | exhausted => exact .exhausted
  | done ho => exact .done (ho.mono fun _ h => by rw [h]; rfl)
  | emit r rest ho _ ih =>
    match r with
    | .ok v => exact .emit (.ok v) _ (ho.mono fun _ h => by rw [h]; rfl) ih
    | .error (.raised v) => exact .pause _ (ho.mono fun _ h => by rw [h]; rfl) (hhandler v)
    | .error .timeout => exact (one _).congr (ho.mono fun _ h => by rw [h]; rfl)
  | pause next ho _ ih => exact .pause _ (ho.mono fun _ h => by rw [h]; rfl) ih
  | checkLeft _ ih => exact .checkLeft ih
  | checkRight next ho _ ih =>
    exact .checkRight (fun expired turns => (next expired turns).catchWith (handlers turns))
      (ho.mono fun _ h => by rw [h]; rfl) ih

/-- What is left of a stream after its work ahead goes as far as what is left of the tree. -/
theorem settle {next : Outputs → Outputs} {nexts : Nat → Outputs → Outputs} (h : Reaches part o)
    (hnext : ∀ left lefts, Reaches left lefts →
      Reaches (next left) fun turns => nexts turns (lefts turns)) :
    Reaches (part.settle next) fun turns => (o turns).settle (nexts turns) := by
  induction h with
  | exhausted => exact .exhausted
  | done ho => exact (hnext _ _ (.done ho)).congr (ho.mono fun _ h => by rw [h]; rfl)
  | emit r rest ho hrest _ =>
    exact (hnext _ _ (.emit r rest ho hrest)).congr (ho.mono fun _ h => by rw [h]; rfl)
  | pause next' ho hnext' _ =>
    exact (hnext _ _ (.pause next' ho hnext')).congr (ho.mono fun _ h => by rw [h]; rfl)
  | checkLeft _ ih => exact .checkLeft ih
  | checkRight next' ho _ ih =>
    exact .checkRight (fun expired turns => (next' expired turns).settle (nexts turns))
      (ho.mono fun _ h => by rw [h]; rfl) ih

/-! ### Consumption -/

/-- A consumer of both goes on with one and the same state, or it leaves for a stream that goes as far as
the tree that it leaves for. -/
theorem drain {σ : Type} {step : σ → Result → σ ⊕ Outputs} {steps : Nat → σ → Result → σ ⊕ Outputs}
    {finish : σ → Outputs} {finishes : Nat → σ → Outputs} (h : Reaches part o)
    (hfinish : ∀ s, Reaches (finish s) fun turns => finishes turns s)
    (hstep : ∀ s r, (∃ s', step s r = .inl s' ∧ ∀ turns, steps turns s r = .inl s') ∨
      ∃ out outs, Reaches out outs ∧ step s r = .inr out ∧ ∀ turns, steps turns s r = .inr (outs turns))
    (s : σ) :
    Reaches (Outputs.drain step finish s part) fun turns =>
      Outputs.drain (steps turns) (finishes turns) s (o turns) := by
  induction h generalizing s with
  | exhausted => exact .exhausted
  | done ho => exact (hfinish s).congr (ho.mono fun _ h => by rw [h]; rfl)
  | emit r rest ho _ ih =>
    obtain ⟨s', hs, hs'⟩ | ⟨out, outs, hout, hs, hs'⟩ := hstep s r
    · simp only [Outputs.drain, hs]
      exact (ih s').congr (ho.mono fun turns h => by rw [h, Outputs.drain, hs'])
    · simp only [Outputs.drain, hs]
      exact hout.congr (ho.mono fun turns h => by rw [h, Outputs.drain, hs'])
  | pause next ho _ ih => exact (ih s).congr (ho.mono fun _ h => by rw [h]; rfl)
  | checkLeft _ ih => exact .checkLeft (ih s)
  | checkRight next ho _ ih =>
    exact .checkRight
      (fun expired turns => Outputs.drain (steps turns) (finishes turns) s (next expired turns))
      (ho.mono fun _ h => by rw [h]; rfl) (ih s)

theorem withLast {next : Option Value → Outputs} {nexts : Nat → Option Value → Outputs}
    (h : Reaches part o) (hnext : ∀ last, Reaches (next last) fun turns => nexts turns last) :
    Reaches (.withLast part next) fun turns => .withLast (o turns) (nexts turns) := by
  refine h.drain hnext (fun last r => ?_) none
  cases r with
  | ok v => exact .inl ⟨some v, rfl, fun _ => rfl⟩
  | error f => exact .inr ⟨_, _, one (.error f), rfl, fun _ => rfl⟩

theorem withFirst {next : Option Value → Outputs} {nexts : Nat → Option Value → Outputs}
    (h : Reaches part o) (hnext : ∀ first, Reaches (next first) fun turns => nexts turns first) :
    Reaches (.withFirst part next) fun turns => .withFirst (o turns) (nexts turns) := by
  refine h.drain (fun _ => hnext none) (fun _ r => ?_) ()
  cases r with
  | ok v => exact .inr ⟨_, _, hnext (some v), rfl, fun _ => rfl⟩
  | error f => exact .inr ⟨_, _, one (.error f), rfl, fun _ => rfl⟩

theorem fold {update : Value → Value → Outputs} {updates : Nat → Value → Value → Outputs}
    {next : Value → Outputs} {nexts : Nat → Value → Outputs} (h : Reaches part o)
    (hupdate : ∀ acc v, Reaches (update acc v) fun turns => updates turns acc v)
    (hnext : ∀ acc, Reaches (next acc) fun turns => nexts turns acc) (acc : Value) :
    Reaches (Outputs.fold update next part acc) fun turns =>
      Outputs.fold (updates turns) (nexts turns) (o turns) acc := by
  induction h generalizing acc with
  | exhausted => exact .exhausted
  | done ho => exact (hnext acc).congr (ho.mono fun _ h => by rw [h]; rfl)
  | emit r rest ho _ ih =>
    cases r with
    | ok v =>
      refine (guarded ?_).congr (ho.mono fun _ h => by rw [h]; rfl)
      exact (hupdate acc v).withLast fun last => ih (last.getD .null)
    | error f => exact (one _).congr (ho.mono fun _ h => by rw [h]; rfl)
  | pause next' ho _ ih => exact (ih acc).congr (ho.mono fun _ h => by rw [h]; rfl)
  | checkLeft _ ih => exact .checkLeft (ih acc)
  | checkRight next' ho _ ih =>
    exact .checkRight
      (fun expired turns => Outputs.fold (updates turns) (nexts turns) (next' expired turns) acc)
      (ho.mono fun _ h => by rw [h]; rfl) (ih acc)

theorem untilFailure (h : Reaches part o) :
    Reaches part.untilFailure fun turns => (o turns).untilFailure := by
  induction h with
  | exhausted => exact .exhausted
  | done ho => exact .done (ho.mono fun _ h => by rw [h]; rfl)
  | emit r rest ho _ ih =>
    cases r with
    | ok v => exact (guarded (.result (.ok v) ih)).congr (ho.mono fun _ h => by rw [h]; rfl)
    | error f => exact (one _).congr (ho.mono fun _ h => by rw [h]; rfl)
  | pause next ho _ ih => exact .pause _ (ho.mono fun _ h => by rw [h]; rfl) ih
  | checkLeft _ ih => exact .checkLeft ih
  | checkRight next ho _ ih =>
    exact .checkRight (fun expired turns => (next expired turns).untilFailure)
      (ho.mono fun _ h => by rw [h]; rfl) ih

/-! ### Loops

The tree has a given number of turns left; the streams have made `used` turns of as many as it takes. -/

open Ends (eventually_turn)

/-- Induction on the turns of the tree, and for each of their numbers on how far the streams come with the
top of the stack: a look at the clock that only they have costs them a turn. -/
theorem traverse {step : Value → Outputs} {steps : Nat → Value → Outputs}
    (hstep : ∀ v, Reaches (step v) fun turns => steps turns v) (budget : Nat) {stack : List Outputs}
    {streams : List (Nat → Outputs)} (hstack : List.Forall₂ Reaches stack streams) (used : Nat) :
    Reaches (Outputs.traverse step budget stack) fun turns =>
      Outputs.traverse (steps turns) (turns - used) (streams.map fun o => o turns) := by
  induction budget generalizing stack streams used with
  | zero => exact .exhausted
  | succ budget ih =>
    cases hstack with
    | nil =>
      refine .done ?_
      filter_upwards [eventually_turn used] with turns hturn
      rw [hturn, List.map_nil, Outputs.traverse]
    | @cons part o stack streams htop hrest =>
      induction htop generalizing used with
      | exhausted => exact .exhausted
      | done ho =>
        refine (ih hrest (used + 1)).congr ?_
        filter_upwards [ho, eventually_turn used] with turns h hturn
        rw [List.map_cons, h, hturn, Outputs.traverse]
      | @emit part o r rest ho hbehind _ =>
        cases r with
        | ok v =>
          have hturns : Reaches (.guarded fun _ => (step v).settle fun inner =>
              .emit (.ok v) fun _ => Outputs.traverse step budget (inner :: part () :: stack))
              fun turns => .guarded fun _ => (steps turns v).settle fun inner =>
                .emit (.ok v) fun _ => Outputs.traverse (steps turns) (turns - (used + 1))
                  (inner :: rest turns :: streams.map fun o => o turns) :=
            guarded ((hstep v).settle fun left lefts hleft =>
              .result (.ok v) (ih (.cons hleft (.cons hbehind hrest)) (used + 1)))
          refine hturns.congr ?_
          filter_upwards [ho, eventually_turn used] with turns h hturn
          rw [List.map_cons, h, hturn, Outputs.traverse]
        | error f =>
          refine .emit (.error f) _ ?_ (ih (.cons hbehind hrest) (used + 1))
          filter_upwards [ho, eventually_turn used] with turns h hturn
          rw [List.map_cons, h, hturn, Outputs.traverse]
          rfl
      | pause next ho hnext _ =>
        refine (ih (.cons hnext hrest) (used + 1)).congr ?_
        filter_upwards [ho, eventually_turn used] with turns h hturn
        rw [List.map_cons, h, hturn, Outputs.traverse]
        rfl
      | checkLeft hahead _ => exact .checkLeft (ih (.cons hahead hrest) used)
      | checkRight next ho _ ihtop =>
        refine .checkRight (fun expired turns => Outputs.traverse (steps turns) (turns - (used + 1))
          (next expired turns :: streams.map fun o => o turns)) ?_ (ihtop (used + 1))
        filter_upwards [ho, eventually_turn used] with turns h hturn
        rw [List.map_cons, h, hturn, Outputs.traverse]

theorem countUp (bound : Binary64) (budget : Nat) (current : Binary64) (used : Nat) :
    Reaches (Outputs.countUp bound budget current) fun turns =>
      Outputs.countUp bound (turns - used) current := by
  induction budget generalizing current used with
  | zero => exact .exhausted
  | succ budget ih =>
    by_cases hbound : Binary64.le bound current = true
    · rw [Outputs.countUp, if_pos hbound]
      refine nothing.congr ?_
      filter_upwards [eventually_turn used] with turns hturn
      rw [hturn, Outputs.countUp, if_pos hbound]
    · rw [Outputs.countUp, if_neg hbound]
      refine (guarded (.result (.ok (.ofBinary64 current)) (ih (current.add .one) (used + 1)))).congr ?_
      filter_upwards [eventually_turn used] with turns hturn
      rw [hturn, Outputs.countUp, if_neg hbound]

section

variable {condition update : Value → Outputs} {conditions updates : Nat → Value → Outputs}
  (hcondition : ∀ v, Reaches (condition v) fun turns => conditions turns v)
  (hupdate : ∀ v, Reaches (update v) fun turns => updates turns v)
include hcondition hupdate

theorem untilTrue (budget : Nat) (state : Value) (used : Nat) :
    Reaches (Outputs.untilTrue condition update budget state) fun turns =>
      Outputs.untilTrue (conditions turns) (updates turns) (turns - used) state := by
  induction budget generalizing state used with
  | zero => exact .exhausted
  | succ budget ih =>
    have hturn : Reaches (Outputs.untilTrue condition update (budget + 1) state) fun turns =>
        Outputs.untilTrue (conditions turns) (updates turns) (turns - (used + 1) + 1) state := by
      refine guarded ((hcondition state).withFirst fun first => ?_)
      cases first with
      | none => exact nothing
      | some holds =>
        dsimp only
        split
        · exact one _
        · refine (hupdate state).withFirst fun first => ?_
          cases first with
          | none => exact nothing
          | some next => exact ih next (used + 1)
    refine hturn.congr ?_
    filter_upwards [eventually_turn used] with turns heq
    rw [heq]

theorem whileTrue (budget : Nat) (state : Value) (used : Nat) :
    Reaches (Outputs.whileTrue condition update budget state) fun turns =>
      Outputs.whileTrue (conditions turns) (updates turns) (turns - used) state := by
  induction budget generalizing state used with
  | zero => exact .exhausted
  | succ budget ih =>
    have hturn : Reaches (Outputs.whileTrue condition update (budget + 1) state) fun turns =>
        Outputs.whileTrue (conditions turns) (updates turns) (turns - (used + 1) + 1) state := by
      refine guarded ((hcondition state).withFirst fun first => ?_)
      cases first with
      | none => exact nothing
      | some holds =>
        dsimp only
        split
        · refine .result (.ok state) ((hupdate state).withFirst fun first => ?_)
          cases first with
          | none => exact nothing
          | some next => exact ih next (used + 1)
        · exact nothing
    refine hturn.congr ?_
    filter_upwards [eventually_turn used] with turns heq
    rw [heq]

end

/-! ### Results -/

/-- **What is reached is seen:** from some number of turns on a consumer gets the results of the tree, and
nothing else if the tree ends by itself. -/
theorem eventually_results (h : Reaches part o) :
    ∀ᶠ turns in Filter.atTop,
      (part.transcript .unlimited).results <+: ((o turns).transcript .unlimited).results ∧
        ((part.transcript .unlimited).complete = true →
          ((o turns).transcript .unlimited).complete = true ∧
            ((o turns).transcript .unlimited).results = (part.transcript .unlimited).results) := by
  induction h with
  | exhausted => exact .of_forall fun _ => ⟨List.nil_prefix, fun h => by cases h⟩
  | done ho => exact ho.mono fun _ h => by rw [h]; exact ⟨List.nil_prefix, fun _ => ⟨rfl, rfl⟩⟩
  | emit r rest ho _ ih =>
    filter_upwards [ho, ih] with turns h ih
    rw [h]
    obtain ⟨hbegins, hcomplete⟩ := ih
    refine ⟨List.cons_prefix_cons.2 ⟨rfl, hbegins⟩, fun hends => ?_⟩
    obtain ⟨hends', hsame⟩ := hcomplete hends
    exact ⟨hends', congrArg (r :: ·) hsame⟩
  | pause next ho _ ih =>
    filter_upwards [ho, ih] with turns h ih
    rw [h]
    exact ih
  | checkLeft _ ih => exact ih
  | checkRight next ho _ ih =>
    filter_upwards [ho, ih] with turns h ih
    rw [h]
    exact ih

/-- **A deadline that is late enough does not show.**  On the way to the end of a tree there are finitely
many looks at the clock, the same in all but finitely many of the streams. -/
theorem eventually_late (h : Reaches part o) (hends : (part.transcript .unlimited).complete = true) :
    ∃ looks, ∀ later ≥ looks, ∀ᶠ turns in Filter.atTop,
      (o turns).transcript (.after later) = (o turns).transcript .unlimited := by
  induction h with
  | exhausted => cases hends
  | done ho => exact ⟨0, fun later _ => ho.mono fun _ h => by rw [h]; rfl⟩
  | emit r rest ho _ ih =>
    obtain ⟨looks, hlate⟩ := ih hends
    refine ⟨looks, fun later hlater => ?_⟩
    filter_upwards [ho, hlate later hlater] with turns h hrest
    rw [h, Outputs.transcript, Outputs.transcript, hrest]
  | pause next ho _ ih =>
    obtain ⟨looks, hlate⟩ := ih hends
    refine ⟨looks, fun later hlater => ?_⟩
    filter_upwards [ho, hlate later hlater] with turns h hnext
    rw [h, Outputs.transcript, Outputs.transcript, hnext]
  | checkLeft _ ih => exact ih hends
  | checkRight next ho _ ih =>
    obtain ⟨looks, hlate⟩ := ih hends
    refine ⟨looks + 1, fun later hlater => ?_⟩
    obtain ⟨later, rfl⟩ := Nat.exists_eq_add_one_of_ne_zero (Nat.ne_zero_of_lt hlater)
    filter_upwards [ho, hlate later (Nat.le_of_succ_le_succ hlater)] with turns h hnext
    rw [h, Outputs.transcript, Outputs.transcript, Clock.look_after_succ]
    exact congrArg Transcript.later hnext

end Reaches

/-- Streams show whatever the trees of others show, in the same order, and end where those end. -/
def Covers (o o' : Nat → Outputs) : Prop :=
  ∀ turns, ∀ᶠ more in Filter.atTop,
    ((o turns).transcript .unlimited).results <+: ((o' more).transcript .unlimited).results ∧
      (((o turns).transcript .unlimited).complete = true →
        ((o' more).transcript .unlimited).complete = true ∧
          ((o' more).transcript .unlimited).results = ((o turns).transcript .unlimited).results)

/-- **The same sequence of results without a deadline**, values and raised errors in order: what the
one shows with some number of turns for each loop the other shows with all large numbers of them, and
where the one ends the other ends. -/
structure SameResults (o o' : Nat → Outputs) : Prop where
  covers : Covers o o'
  covered : Covers o' o

theorem Reaches.covers {o o' : Nat → Outputs} (h : ∀ turns, Reaches (o turns) o') : Covers o o' :=
  fun turns => (h turns).eventually_results

/-! ### Streams that end -/

/-- Without a deadline and with turns enough for its loops, the stream gives these results and ends. -/
def Gives (o : Nat → Outputs) (results : List Result) : Prop :=
  ∀ᶠ turns in Filter.atTop,
    ((o turns).transcript .unlimited).results = results ∧
      ((o turns).transcript .unlimited).complete = true

/-- Without a deadline the stream ends: some number of turns is enough for its loops, and it passes on no
timeout. -/
def Halts (o : Nat → Outputs) : Prop :=
  ∃ turns, ((o turns).transcript .unlimited).complete = true ∧
    .error .timeout ∉ ((o turns).transcript .unlimited).results

/-- A stream that reaches a tree without cut-off loops gives the results of that tree. -/
theorem Reaches.gives {part : Outputs} {o : Nat → Outputs} (h : Reaches part o)
    (hends : (part.transcript .unlimited).complete = true) :
    Gives o (part.transcript .unlimited).results := by
  refine h.eventually_results.mono fun turns hturns => ?_
  obtain ⟨hcomplete, hsame⟩ := hturns.2 hends
  exact ⟨hsame, hcomplete⟩

/-! ### Evaluations -/

variable {ι : Type} {budget : ι → Nat}

/-- **Every combinator keeps streams reaching trees**, for two choices of an index for each number of
turns. -/
theorem reaches_compositional (left right : Nat → ι) (hleft : ∀ n, budget (left n) = n)
    (hright : ∀ n, budget (right n) = n) :
    Compositional budget fun o => ∀ n, Reaches (o (left n)) fun turns => o (right turns) where
  done _ := .nothing
  emit r _ h n := .result r (h n)
  guarded h n := .guarded (h n)
  pause h n := .later (h n)
  append ho hmore n := (ho n).append (hmore n)
  bind ho hf n := (ho n).bind fun v => hf v n
  mapOutcome f ho n := (ho n).mapOutcome f
  take k ho n := (ho n).take k
  limit k ho n := (ho n).settle fun _ _ hleft => (hleft.take k).checkEach
  catchWith ho hhandler n := (ho n).catchWith fun v => hhandler v n
  drain ho hfinish hstep _ s n := by
    refine (ho n).drain (fun s => hfinish s n) (fun s r => ?_) s
    obtain ⟨s', hs'⟩ | ⟨out, hout, hleave⟩ := (hstep s r).inl_or_inr
    · exact .inl ⟨s', hs' _, fun _ => hs' _⟩
    · exact .inr ⟨_, _, hout n, hleave _, fun _ => hleave _⟩
  fold ho hupdate hnext acc n := (ho n).fold (fun acc v => hupdate acc v n) (fun acc => hnext acc n) acc
  recurseWith hstep v n := by
    have hstart : List.Forall₂ Reaches [Outputs.single v] [fun _ => Outputs.single v] :=
      .cons (.one (.ok v)) .nil
    simp only [hleft, hright]
    exact .later (.traverse (fun v => hstep v n) n hstart 0)
  countUp bound start n := by
    simp only [hleft, hright]
    exact .countUp bound n start 0
  untilTrue hcondition hupdate v n := by
    simp only [hleft, hright]
    exact .untilTrue (fun v => hcondition v n) (fun v => hupdate v n) n v 0
  whileTrue hcondition hupdate v n := by
    simp only [hleft, hright]
    exact .whileTrue (fun v => hcondition v n) (fun v => hupdate v n) n v 0

end JsonFilter.Eval
