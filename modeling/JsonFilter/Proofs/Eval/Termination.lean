import Mathlib.Order.Filter.AtTopBot.Basic
import JsonFilter.Proofs.Eval.Names
import JsonFilter.Proofs.Eval.Transcripts

/-!
# Runs past their deadline

A filter may be endless, but every loop looks at the clock, and a look past the deadline ends it.  So a
run whose deadline passes after some number of looks ends after finitely many steps.

## The limit of the trees

A loop that is given more turns gives a deeper tree.  `Ends looks o` says of such trees, one for each
number of turns, that a consumer with so many looks before the deadline finds the same finite part in all
but finitely many of them.  A cut-off loop in this part is excluded, since it is in none of the
constructors.

* `Ends.traverse`, `Ends.untilTrue`, `Ends.whileTrue`, `Ends.countUp` — the loops.
* **`ends_compositional`** — every combinator passes on that a stream ends at every deadline.
* **`runs_end`** — so do the runs of a compiled filter.
-/

namespace JsonFilter

open Eval
open Json (Value Outcome)

namespace Eval

/-- With so many looks at the clock before the deadline, or fewer, a consumer comes to the end, and all
trees from some number of turns on show it the same. -/
inductive Ends : Nat → (Nat → Outputs) → Prop
  | done {looks : Nat} {o : Nat → Outputs} :
    (∀ᶠ turns in Filter.atTop, o turns = .done) → Ends looks o
  | emit {looks : Nat} {o : Nat → Outputs} (r : Result) (rest : Nat → Outputs) :
    (∀ᶠ turns in Filter.atTop, o turns = .emit r fun _ => rest turns) → Ends looks rest →
      Ends looks o
  | pause {looks : Nat} {o : Nat → Outputs} (next : Nat → Outputs) :
    (∀ᶠ turns in Filter.atTop, o turns = .pause fun _ => next turns) → Ends looks next →
      Ends looks o
  | check {looks : Nat} {o : Nat → Outputs} (next : Bool → Nat → Outputs) :
    (∀ᶠ turns in Filter.atTop, o turns = .check fun expired => next expired turns) →
      Ends 0 (next true) → (∀ fewer < looks, Ends fewer (next false)) → Ends looks o

namespace Ends

variable {looks : Nat} {o more : Nat → Outputs}

/-! ### Fewer looks, more turns -/

theorem mono (h : Ends looks o) {fewer : Nat} (hle : fewer ≤ looks) : Ends fewer o := by
  induction h generalizing fewer with
  | done ho => exact .done ho
  | emit r rest ho _ ih => exact .emit r rest ho (ih hle)
  | pause next ho _ ih => exact .pause next ho (ih hle)
  | check next ho htrue hfalse _ _ =>
    exact .check next ho htrue fun j hj => hfalse j (Nat.lt_of_lt_of_le hj hle)

/-- Finitely many numbers of turns do not matter. -/
theorem congr {o' : Nat → Outputs} (h : Ends looks o)
    (heq : ∀ᶠ turns in Filter.atTop, o' turns = o turns) : Ends looks o' := by
  cases h with
  | done ho => exact .done (heq.and ho |>.mono fun _ h => h.1.trans h.2)
  | emit r rest ho hrest => exact .emit r rest (heq.and ho |>.mono fun _ h => h.1.trans h.2) hrest
  | pause next ho hnext => exact .pause next (heq.and ho |>.mono fun _ h => h.1.trans h.2) hnext
  | check next ho htrue hfalse =>
    exact .check next (heq.and ho |>.mono fun _ h => h.1.trans h.2) htrue hfalse

/-! ### Single nodes -/

theorem nothing : Ends looks fun _ => .done := .done (.of_forall fun _ => rfl)

theorem result (r : Result) (h : Ends looks o) : Ends looks fun turns => .emit r fun _ => o turns :=
  .emit r o (.of_forall fun _ => rfl) h

theorem one (r : Result) : Ends looks fun _ => .one r := .result r .nothing

theorem later (h : Ends looks o) : Ends looks fun turns => .pause fun _ => o turns :=
  .pause o (.of_forall fun _ => rfl) h

/-- Behind a look there are fewer looks left. -/
theorem guarded (h : ∀ fewer < looks, Ends fewer o) : Ends looks fun turns => .guarded fun _ => o turns :=
  .check (fun expired turns => if expired then .fail .timeout else o turns) (.of_forall fun _ => rfl)
    (.one _) h

/-! ### Combination -/

theorem append (h : Ends looks o) (hmore : Ends looks more) :
    Ends looks fun turns => (o turns).append fun _ => more turns := by
  induction h with
  | done ho => exact .pause more (ho.mono fun _ h => by rw [h]; rfl) hmore
  | emit r rest ho _ ih => exact .emit r _ (ho.mono fun _ h => by rw [h]; rfl) (ih hmore)
  | pause next ho _ ih => exact .pause _ (ho.mono fun _ h => by rw [h]; rfl) (ih hmore)
  | check next ho _ _ ihtrue ihfalse =>
    exact .check (fun expired turns => (next expired turns).append fun _ => more turns)
      (ho.mono fun _ h => by rw [h]; rfl) (ihtrue (hmore.mono (Nat.zero_le _)))
      fun j hj => ihfalse j hj (hmore.mono hj.le)

theorem bind {f : Nat → Value → Outputs} (h : Ends looks o)
    (hf : ∀ v, Ends looks fun turns => f turns v) :
    Ends looks fun turns => (o turns).bind (f turns) := by
  induction h with
  | done ho => exact .done (ho.mono fun _ h => by rw [h]; rfl)
  | emit r rest ho _ ih =>
    cases r with
    | ok v => exact .pause _ (ho.mono fun _ h => by rw [h]; rfl) ((hf v).append (ih hf))
    | error e => exact .emit (.error e) _ (ho.mono fun _ h => by rw [h]; rfl) (ih hf)
  | pause next ho _ ih => exact .pause _ (ho.mono fun _ h => by rw [h]; rfl) (ih hf)
  | check next ho _ _ ihtrue ihfalse =>
    exact .check (fun expired turns => (next expired turns).bind (f turns))
      (ho.mono fun _ h => by rw [h]; rfl) (ihtrue fun v => (hf v).mono (Nat.zero_le _))
      fun j hj => ihfalse j hj fun v => (hf v).mono hj.le

theorem mapOutcome (f : Value → Outcome Value) (h : Ends looks o) :
    Ends looks fun turns => (o turns).mapOutcome f := by
  induction h with
  | done ho => exact .done (ho.mono fun _ h => by rw [h]; rfl)
  | emit r rest ho _ ih =>
    cases r with
    | ok v => exact .emit _ _ (ho.mono fun _ h => by rw [h]; rfl) ih
    | error e => exact .emit (.error e) _ (ho.mono fun _ h => by rw [h]; rfl) ih
  | pause next ho _ ih => exact .pause _ (ho.mono fun _ h => by rw [h]; rfl) ih
  | check next ho _ _ ihtrue ihfalse =>
    exact .check (fun expired turns => (next expired turns).mapOutcome f)
      (ho.mono fun _ h => by rw [h]; rfl) ihtrue ihfalse

theorem take_succ (n : Nat) (h : Ends looks o) : Ends looks fun turns => (o turns).take (n + 1) := by
  induction h generalizing n with
  | done ho => exact .done (ho.mono fun _ h => by rw [h]; rfl)
  | emit r rest ho _ ih =>
    refine .emit r (fun turns => (rest turns).take n) (ho.mono fun _ h => by rw [h]; rfl) ?_
    cases n with
    | zero => simpa only [Outputs.take_zero] using nothing
    | succ n => exact ih n
  | pause next ho _ ih => exact .pause _ (ho.mono fun _ h => by rw [h]; rfl) (ih n)
  | check next ho _ _ ihtrue ihfalse =>
    exact .check (fun expired turns => (next expired turns).take (n + 1))
      (ho.mono fun _ h => by rw [h]; rfl) (ihtrue n) fun j hj => ihfalse j hj n

theorem take (n : Nat) (h : Ends looks o) : Ends looks fun turns => (o turns).take n := by
  cases n with
  | zero => simpa only [Outputs.take_zero] using nothing
  | succ n => exact h.take_succ n

theorem checkEach (h : Ends looks o) : Ends looks fun turns => (o turns).checkEach := by
  induction h with
  | done ho => exact .done (ho.mono fun _ h => by rw [h]; rfl)
  | emit r rest ho _ ih =>
    exact .check (fun expired turns =>
        .emit (if expired then .error .timeout else r) fun _ => (rest turns).checkEach)
      (ho.mono fun _ h => by rw [h]; rfl) (.result _ (ih.mono (Nat.zero_le _)))
      fun j hj => .result _ (ih.mono hj.le)
  | pause next ho _ ih => exact .pause _ (ho.mono fun _ h => by rw [h]; rfl) ih
  | check next ho _ _ ihtrue ihfalse =>
    exact .check (fun expired turns => (next expired turns).checkEach)
      (ho.mono fun _ h => by rw [h]; rfl) ihtrue ihfalse

theorem catchWith {handler : Nat → Value → Outputs} (h : Ends looks o)
    (hhandler : ∀ v, Ends looks fun turns => handler turns v) :
    Ends looks fun turns => (o turns).catchWith (handler turns) := by
  induction h with
  | done ho => exact .done (ho.mono fun _ h => by rw [h]; rfl)
  | emit r rest ho _ ih =>
    match r with
    | .ok v => exact .emit (.ok v) _ (ho.mono fun _ h => by rw [h]; rfl) (ih hhandler)
    | .error (.raised v) => exact .pause _ (ho.mono fun _ h => by rw [h]; rfl) (hhandler v)
    | .error .timeout => exact (one _).congr (ho.mono fun _ h => by rw [h]; rfl)
  | pause next ho _ ih => exact .pause _ (ho.mono fun _ h => by rw [h]; rfl) (ih hhandler)
  | check next ho _ _ ihtrue ihfalse =>
    exact .check (fun expired turns => (next expired turns).catchWith (handler turns))
      (ho.mono fun _ h => by rw [h]; rfl) (ihtrue fun v => (hhandler v).mono (Nat.zero_le _))
      fun j hj => ihfalse j hj fun v => (hhandler v).mono hj.le

/-- What is left of a stream after its work ahead is used with the looks that are left. -/
theorem settle {next : Nat → Outputs → Outputs} (h : Ends looks o)
    (hnext : ∀ fewer ≤ looks, ∀ left, Ends fewer left → Ends fewer fun turns => next turns (left turns)) :
    Ends looks fun turns => (o turns).settle (next turns) := by
  induction h with
  | done ho => exact (hnext _ le_rfl _ (.done ho)).congr (ho.mono fun _ h => by rw [h]; rfl)
  | emit r rest ho hrest _ =>
    exact (hnext _ le_rfl _ (.emit r rest ho hrest)).congr (ho.mono fun _ h => by rw [h]; rfl)
  | pause next' ho hnext' _ =>
    exact (hnext _ le_rfl _ (.pause next' ho hnext')).congr (ho.mono fun _ h => by rw [h]; rfl)
  | check next' ho _ _ ihtrue ihfalse =>
    exact .check (fun expired turns => (next' expired turns).settle (next turns))
      (ho.mono fun _ h => by rw [h]; rfl)
      (ihtrue fun j hj => hnext j (hj.trans (Nat.zero_le _)))
      fun j hj => ihfalse j hj fun i hi => hnext i (hi.trans hj.le)

/-! ### Consumption -/

theorem drain {σ : Type} {step : Nat → σ → Result → σ ⊕ Outputs} {finish : Nat → σ → Outputs}
    (h : Ends looks o) (hfinish : ∀ s, Ends looks fun turns => finish turns s)
    (hstep : ∀ s r, Leads (Ends looks) fun turns => step turns s r) (s : σ) :
    Ends looks fun turns => Outputs.drain (step turns) (finish turns) s (o turns) := by
  induction h generalizing s with
  | done ho => exact (hfinish s).congr (ho.mono fun _ h => by rw [h]; rfl)
  | emit r rest ho _ ih =>
    obtain ⟨s', hs'⟩ | ⟨out, hout, hleave⟩ := (hstep s r).inl_or_inr
    · exact (ih hfinish hstep s').congr (ho.mono fun turns h => by rw [h, Outputs.drain, hs'])
    · exact hout.congr (ho.mono fun turns h => by rw [h, Outputs.drain, hleave])
  | pause next ho _ ih =>
    exact (ih hfinish hstep s).congr (ho.mono fun _ h => by rw [h]; rfl)
  | check next ho _ _ ihtrue ihfalse =>
    exact .check (fun expired turns => Outputs.drain (step turns) (finish turns) s (next expired turns))
      (ho.mono fun _ h => by rw [h]; rfl)
      (ihtrue (fun s => (hfinish s).mono (Nat.zero_le _))
        (fun s r => (hstep s r).imp fun _ h => h.mono (Nat.zero_le _)) s)
      fun j hj => ihfalse j hj (fun s => (hfinish s).mono hj.le)
        (fun s r => (hstep s r).imp fun _ h => h.mono hj.le) s

theorem withLast {next : Nat → Option Value → Outputs} (h : Ends looks o)
    (hnext : ∀ last, Ends looks fun turns => next turns last) :
    Ends looks fun turns => Outputs.withLast (o turns) (next turns) := by
  refine h.drain hnext (fun last r => ?_) none
  cases r with
  | ok v => exact .goOn (some v)
  | error f => exact .leave (one _)

theorem withFirst {next : Nat → Option Value → Outputs} (h : Ends looks o)
    (hnext : ∀ first, Ends looks fun turns => next turns first) :
    Ends looks fun turns => Outputs.withFirst (o turns) (next turns) := by
  refine h.drain (fun _ => hnext none) (fun _ r => ?_) ()
  cases r with
  | ok v => exact .leave (hnext (some v))
  | error f => exact .leave (one _)

theorem fold {update : Nat → Value → Value → Outputs} {next : Nat → Value → Outputs}
    (h : Ends looks o) (hupdate : ∀ acc v, Ends looks fun turns => update turns acc v)
    (hnext : ∀ acc, Ends looks fun turns => next turns acc) (acc : Value) :
    Ends looks fun turns => Outputs.fold (update turns) (next turns) (o turns) acc := by
  induction h generalizing acc with
  | done ho => exact (hnext acc).congr (ho.mono fun _ h => by rw [h]; rfl)
  | emit r rest ho _ ih =>
    cases r with
    | ok v =>
      refine (guarded fun j hj => ?_).congr (ho.mono fun _ h => by rw [h]; rfl)
      exact ((hupdate acc v).mono hj.le).withLast fun last =>
        (ih hupdate hnext (last.getD .null)).mono hj.le
    | error f => exact (one _).congr (ho.mono fun _ h => by rw [h]; rfl)
  | pause next' ho _ ih =>
    exact (ih hupdate hnext acc).congr (ho.mono fun _ h => by rw [h]; rfl)
  | check next' ho _ _ ihtrue ihfalse =>
    exact .check (fun expired turns => Outputs.fold (update turns) (next turns) (next' expired turns) acc)
      (ho.mono fun _ h => by rw [h]; rfl)
      (ihtrue (fun acc v => (hupdate acc v).mono (Nat.zero_le _))
        (fun acc => (hnext acc).mono (Nat.zero_le _)) acc)
      fun j hj => ihfalse j hj (fun acc v => (hupdate acc v).mono hj.le)
        (fun acc => (hnext acc).mono hj.le) acc

theorem untilFailure (h : Ends looks o) : Ends looks fun turns => (o turns).untilFailure := by
  induction h with
  | done ho => exact .done (ho.mono fun _ h => by rw [h]; rfl)
  | emit r rest ho _ ih =>
    cases r with
    | ok v =>
      refine (guarded fun j hj => ?_).congr (ho.mono fun _ h => by rw [h]; rfl)
      exact .result (.ok v) (ih.mono hj.le)
    | error f => exact (one _).congr (ho.mono fun _ h => by rw [h]; rfl)
  | pause next ho _ ih => exact .pause _ (ho.mono fun _ h => by rw [h]; rfl) ih
  | check next ho _ _ ihtrue ihfalse =>
    exact .check (fun expired turns => (next expired turns).untilFailure)
      (ho.mono fun _ h => by rw [h]; rfl) ihtrue ihfalse

/-! ### Loops

A loop that has made `used` turns has `turns - used` left. -/

/-- In all but finitely many trees a loop has one more turn. -/
theorem eventually_turn (used : Nat) :
    ∀ᶠ turns in Filter.atTop, turns - used = turns - (used + 1) + 1 := by
  filter_upwards [Filter.eventually_gt_atTop used] with turns h
  omega

section

variable {step : Nat → Value → Outputs}

/-- The top of the stack ends, or it gives the loop a turn behind a look at the clock. -/
theorem traverse_cons {stack : List (Nat → Outputs)}
    (hstep : ∀ v, ∀ fewer < looks, Ends fewer fun turns => step turns v)
    (hloop : ∀ fewer < looks, ∀ stack : List (Nat → Outputs), (∀ o ∈ stack, Ends fewer o) →
      ∀ used, Ends fewer fun turns =>
        Outputs.traverse (step turns) (turns - used) (stack.map fun o => o turns))
    (hrest : ∀ o ∈ stack, Ends looks o)
    (hbelow : ∀ used, Ends looks fun turns =>
      Outputs.traverse (step turns) (turns - used) (stack.map fun o => o turns))
    (h : Ends looks o) (used : Nat) :
    Ends looks fun turns =>
      Outputs.traverse (step turns) (turns - used) (o turns :: stack.map fun o => o turns) := by
  induction h generalizing used with
  | done ho =>
    refine (hbelow (used + 1)).congr ?_
    filter_upwards [ho, eventually_turn used] with turns h hturn
    rw [h, hturn, Outputs.traverse]
  | @emit looks o r rest ho hends ih =>
    cases r with
    | ok v =>
      have hguarded : Ends looks fun turns => .guarded fun _ => (step turns v).settle fun inner =>
          .emit (.ok v) fun _ => Outputs.traverse (step turns) (turns - (used + 1))
            (inner :: rest turns :: stack.map fun o => o turns) := by
        refine guarded fun j hj => (hstep v j hj).settle fun i hi left hleft => .result (.ok v) ?_
        have hlt := hi.trans_lt hj
        refine hloop i hlt (left :: rest :: stack) (fun o ho => ?_) (used + 1)
        rcases List.mem_cons.1 ho with rfl | ho
        · exact hleft
        · rcases List.mem_cons.1 ho with rfl | ho
          · exact hends.mono hlt.le
          · exact (hrest o ho).mono hlt.le
      refine hguarded.congr ?_
      filter_upwards [ho, eventually_turn used] with turns h hturn
      rw [h, hturn, Outputs.traverse]
    | error f =>
      refine .emit (.error f) _ ?_ (ih hstep hloop hrest hbelow (used + 1))
      filter_upwards [ho, eventually_turn used] with turns h hturn
      rw [h, hturn, Outputs.traverse]
  | pause next ho _ ih =>
    refine (ih hstep hloop hrest hbelow (used + 1)).congr ?_
    filter_upwards [ho, eventually_turn used] with turns h hturn
    rw [h, hturn, Outputs.traverse]
  | check next ho _ _ ihtrue ihfalse =>
    refine .check (fun expired turns => Outputs.traverse (step turns) (turns - (used + 1))
        (next expired turns :: stack.map fun o => o turns)) ?_
      (ihtrue (fun v j hj => absurd hj (Nat.not_lt_zero j)) (fun j hj => absurd hj (Nat.not_lt_zero j))
        (fun o ho => (hrest o ho).mono (Nat.zero_le _)) (fun used => (hbelow used).mono (Nat.zero_le _))
        (used + 1))
      fun j hj => ihfalse j hj (fun v i hi => hstep v i (hi.trans hj))
        (fun i hi => hloop i (hi.trans hj)) (fun o ho => (hrest o ho).mono hj.le)
        (fun used => (hbelow used).mono hj.le) (used + 1)
    filter_upwards [ho, eventually_turn used] with turns h hturn
    rw [h, hturn, Outputs.traverse]

/-- Induction on the looks that are left, and for each of their numbers on the stack. -/
theorem traverse (hstep : ∀ v looks, Ends looks fun turns => step turns v) (looks : Nat)
    (stack : List (Nat → Outputs)) (hstack : ∀ o ∈ stack, Ends looks o) (used : Nat) :
    Ends looks fun turns =>
      Outputs.traverse (step turns) (turns - used) (stack.map fun o => o turns) := by
  induction looks using Nat.strong_induction_on generalizing stack used with
  | h looks ihlooks =>
    induction stack generalizing used with
    | nil =>
      refine nothing.congr ?_
      filter_upwards [eventually_turn used] with turns hturn
      rw [hturn, List.map_nil, Outputs.traverse]
    | cons o stack ihstack =>
      have hrest : ∀ o ∈ stack, Ends looks o := fun o ho => hstack o (List.mem_cons_of_mem _ ho)
      exact traverse_cons (fun v fewer _ => hstep v fewer)
        (fun fewer hlt stack hstack used => ihlooks fewer hlt stack hstack used) hrest
        (ihstack hrest) (hstack o List.mem_cons_self) used

end

theorem countUp (bound current : Binary64) (looks used : Nat) :
    Ends looks fun turns => Outputs.countUp bound (turns - used) current := by
  induction looks using Nat.strong_induction_on generalizing current used with
  | h looks ih =>
    by_cases hbound : Binary64.le bound current = true
    · refine nothing.congr ?_
      filter_upwards [eventually_turn used] with turns hturn
      rw [hturn, Outputs.countUp, if_pos hbound]
    · refine (guarded fun fewer hlt =>
        .result (.ok (.ofBinary64 current)) (ih fewer hlt (current.add .one) (used + 1))).congr ?_
      filter_upwards [eventually_turn used] with turns hturn
      rw [hturn, Outputs.countUp, if_neg hbound]

section

variable {condition update : Nat → Value → Outputs}
  (hcondition : ∀ v looks, Ends looks fun turns => condition turns v)
  (hupdate : ∀ v looks, Ends looks fun turns => update turns v)
include hcondition hupdate

theorem untilTrue (state : Value) (looks used : Nat) :
    Ends looks fun turns =>
      Outputs.untilTrue (condition turns) (update turns) (turns - used) state := by
  induction looks using Nat.strong_induction_on generalizing state used with
  | h looks ih =>
    have hturn : Ends looks fun turns =>
        Outputs.untilTrue (condition turns) (update turns) (turns - (used + 1) + 1) state := by
      refine guarded fun fewer hlt => (hcondition state fewer).withFirst fun first => ?_
      cases first with
      | none => exact nothing
      | some holds =>
        dsimp only
        split
        · exact one _
        · refine (hupdate state fewer).withFirst fun first => ?_
          cases first with
          | none => exact nothing
          | some next => exact ih fewer hlt next (used + 1)
    refine hturn.congr ?_
    filter_upwards [eventually_turn used] with turns heq
    rw [heq]

theorem whileTrue (state : Value) (looks used : Nat) :
    Ends looks fun turns =>
      Outputs.whileTrue (condition turns) (update turns) (turns - used) state := by
  induction looks using Nat.strong_induction_on generalizing state used with
  | h looks ih =>
    have hturn : Ends looks fun turns =>
        Outputs.whileTrue (condition turns) (update turns) (turns - (used + 1) + 1) state := by
      refine guarded fun fewer hlt => (hcondition state fewer).withFirst fun first => ?_
      cases first with
      | none => exact nothing
      | some holds =>
        dsimp only
        split
        · refine .result (.ok state) ((hupdate state fewer).withFirst fun first => ?_)
          cases first with
          | none => exact nothing
          | some next => exact ih fewer hlt next (used + 1)
        · exact nothing
    refine hturn.congr ?_
    filter_upwards [eventually_turn used] with turns heq
    rw [heq]

end

/-! ### Transcripts -/

/-- **What a consumer sees of a stream that ends,** whatever the number of turns, some few excepted. -/
theorem transcript (h : Ends looks o) :
    ∃ t, t.complete = true ∧
      ∀ᶠ turns in Filter.atTop, (o turns).transcript (.after looks) = t := by
  induction h with
  | done ho => exact ⟨⟨[], 0, true⟩, rfl, ho.mono fun _ h => by rw [h]; rfl⟩
  | emit r rest ho _ ih =>
    obtain ⟨t, ht, hrest⟩ := ih
    refine ⟨t.behind r, ht, ?_⟩
    filter_upwards [ho, hrest] with turns h hrest
    rw [h, Outputs.transcript, hrest]
  | pause next ho _ ih =>
    obtain ⟨t, ht, hnext⟩ := ih
    refine ⟨t.later, ht, ?_⟩
    filter_upwards [ho, hnext] with turns h hnext
    rw [h, Outputs.transcript, hnext]
  | @check looks o next ho _ _ ihtrue ihfalse =>
    cases looks with
    | zero =>
      obtain ⟨t, ht, hnext⟩ := ihtrue
      refine ⟨t.later, ht, ?_⟩
      filter_upwards [ho, hnext] with turns h hnext
      rw [h, Outputs.transcript, Clock.look_after_zero, hnext]
    | succ looks =>
      obtain ⟨t, ht, hnext⟩ := ihfalse looks (Nat.lt_succ_self looks)
      refine ⟨t.later, ht, ?_⟩
      filter_upwards [ho, hnext] with turns h hnext
      rw [h, Outputs.transcript, Clock.look_after_succ, hnext]

end Ends

/-- Combinators make streams that end at every deadline from streams that do. -/
theorem ends_compositional :
    Compositional id fun o : Nat → Outputs => ∀ looks, Ends looks o where
  done _ := .nothing
  emit r _ h looks := .result r (h looks)
  guarded h _ := .guarded fun fewer _ => h fewer
  pause h looks := .later (h looks)
  append ho hmore looks := (ho looks).append (hmore looks)
  bind ho hf looks := (ho looks).bind fun v => hf v looks
  mapOutcome f ho looks := (ho looks).mapOutcome f
  take n ho looks := (ho looks).take n
  limit n ho looks := (ho looks).settle fun _ _ _ hleft => (hleft.take n).checkEach
  catchWith ho hhandler looks := (ho looks).catchWith fun v => hhandler v looks
  drain ho hfinish hstep _ s looks :=
    (ho looks).drain (fun s => hfinish s looks) (fun s r => (hstep s r).imp fun _ h => h looks) s
  fold ho hupdate hnext acc looks :=
    (ho looks).fold (fun acc v => hupdate acc v looks) (fun acc => hnext acc looks) acc
  recurseWith hstep v looks := by
    have hone : ∀ o ∈ [fun _ : Nat => Outputs.single v], Ends looks o := fun o ho => by
      rw [List.mem_singleton.1 ho]
      exact .one (.ok v)
    exact .later (.traverse hstep looks _ hone 0)
  countUp bound start looks := .countUp bound start looks 0
  untilTrue hcondition hupdate v looks := .untilTrue hcondition hupdate v looks 0
  whileTrue hcondition hupdate v looks := .whileTrue hcondition hupdate v looks 0

end Eval

namespace CompiledFilter

variable {environment : Value} {key : FilterKey} {f : CompiledFilter}

/-- Runs of a compiled filter end, wherever the deadline is. -/
theorem ends_runWithin (h : compile environment key = .ok f) (input : Value) (looks : Nat) :
    Ends looks fun turns => f.runWithin turns input := by
  obtain ⟨hnames, hcomplete⟩ := compile_resolved h
  exact (eval_compositional ends_compositional hcomplete hnames
    (Contexts.Fits.empty f.env fun _ => .failWith) input looks).untilFailure

/-- **Runs past their deadline end.**  If the deadline of a run passes after some looks at the clock, the
run has a last step: from some number of turns on, each loop has turns enough, and more turns for the
loops change neither the results nor the number of steps. -/
theorem runs_end (h : compile environment key = .ok f) (input : Value) (looks : Nat) :
    ∃ turns t, t.complete = true ∧
      ∀ more ≥ turns, (f.runWithin more input).transcript (.after looks) = t := by
  obtain ⟨t, ht, heventually⟩ := (ends_runWithin h input looks).transcript
  obtain ⟨turns, hturns⟩ := Filter.eventually_atTop.1 heventually
  exact ⟨turns, t, ht, hturns⟩

/-- Endless loops inside one another, in an array and behind a handler that would start over. -/
theorem runs_end_endless :
    ∃ f, compile (.object []) ⟨"def more: try repeat(. + 1) catch repeat(.); " ++
        "[recurse(.)] // more, reduce more as $x (0; until(false; $x))", false⟩ = .ok f ∧
      ∃ turns t, t.complete = true ∧
        ∀ more ≥ turns, (f.runWithin more (.ofNat 1)).transcript (.after 100) = t :=
  (exists_ok (by decide +kernel)).imp fun _ hf => ⟨hf, runs_end hf (.ofNat 1) 100⟩

end CompiledFilter

end JsonFilter
