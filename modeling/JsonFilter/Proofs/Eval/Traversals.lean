import JsonFilter.Proofs.Eval.Limits
import JsonFilter.Proofs.Eval.Showing

/-!
# A traversal by a stack is a recursion

`Outputs.traverse` goes through a stack of half consumed streams.  What comes out of it is defined by a
recursion that knows of no stack: a value, then for each result of its step the whole traversal from there,
or the failure itself.

## Endless steps

The stream of a step may be endless, so that the traversal from its first value never comes to an end and
nothing behind it is ever seen.  A `ResultStream` is such a stream, by its trees for all numbers of turns;
`preorder` cuts the recursion off at a depth, and the loop counts the turns of its stack.  Turns do not take
the loop exactly as far as a depth takes the recursion, so both are compared in the limit.

## How far a showing goes

`Showing.Extends` says that one showing is the other one up to where that was cut off.  The loop goes no
further than the recursion does (`traverse_extends`): what is left to do is what the streams on the stack come
to, each of them followed by those below it.  And from some number of turns on it goes at least as far
(`Showing.Seen.passes`), by induction on the depth; for each depth the top of the stack is followed as far as
a tree that it reaches (`Showing.Seen.push`), by induction on that.

* **`traversal_sameResults_preorder`** — the loop shows what the recursion shows.
* **`traversal_sameResults_unfolded`** — it solves the equation of the recursion, which knows of no depth.
-/

namespace JsonFilter.Eval

open Json (Value)

/-! ### How far showings go -/

namespace Showing

/-- The one showing is the other up to the place where that was cut off. -/
inductive Extends : Showing → Showing → Prop
  | cut {s : Showing} : Extends .cut s
  | ended : Extends .ended .ended
  | result (r : Result) {s t : Showing} : Extends s t → Extends (.result r s) (.result r t)

namespace Extends

variable {s s' t t' : Showing}

theorem refl (s : Showing) : Extends s s := by
  induction s with
  | ended => exact .ended
  | cut => exact .cut
  | result r rest ih => exact .result r ih

theorem trans (h : Extends s t) (h' : Extends t t') : Extends s t' := by
  induction h generalizing t' with
  | cut => exact .cut
  | ended => exact h'
  | result r _ ih =>
    cases h' with
    | result _ hrest => exact .result r (ih hrest)

theorem append (hs : Extends s s') (ht : Extends t t') : Extends (s.append t) (s'.append t') := by
  induction hs with
  | cut => exact .cut
  | ended => exact ht
  | result r _ ih => exact .result r ih

theorem bind {f f' : Value → Showing} (hs : Extends s s') (hf : ∀ v, Extends (f v) (f' v)) :
    Extends (s.bind f) (s'.bind f') := by
  induction hs with
  | cut => exact .cut
  | ended => exact .ended
  | result r _ ih =>
    cases r with
    | ok v => exact (hf v).append ih
    | error e => exact .result (.error e) ih

/-- Nothing goes further than what ends. -/
theorem eq_of_complete (h : Extends s t) (hs : s.complete = true) : t = s := by
  induction h with
  | cut => cases hs
  | ended => rfl
  | result r _ ih => rw [ih hs]

/-- A showing has finitely many values, so their replacements go far enough all at once. -/
theorem eventually_bind {f : Value → Showing} {fs : Nat → Value → Showing} (s : Showing)
    (hf : ∀ v, ∀ᶠ turns in Filter.atTop, Extends (f v) (fs turns v)) :
    ∀ᶠ turns in Filter.atTop, Extends (s.bind f) (s.bind (fs turns)) := by
  induction s with
  | ended | cut => exact .of_forall fun _ => refl _
  | result r rest ih =>
    cases r with
    | ok v =>
      filter_upwards [hf v, ih] with turns hfirst hrest
      exact hfirst.append hrest
    | error e => exact ih.mono fun _ hrest => .result (.error e) hrest

end Extends

/-- To go as far is to have the results in the same places, and to end where the other one ends. -/
theorem extends_iff {s t : Showing} :
    Extends s t ↔
      s.results <+: t.results ∧ (s.complete = true → t.complete = true ∧ t.results = s.results) := by
  constructor
  · intro h
    induction h with
    | cut => exact ⟨List.nil_prefix, fun h => by cases h⟩
    | ended => exact ⟨List.nil_prefix, fun _ => ⟨rfl, rfl⟩⟩
    | result r _ ih =>
      obtain ⟨hbegins, hends⟩ := ih
      refine ⟨List.cons_prefix_cons.2 ⟨rfl, hbegins⟩, fun hcomplete => ?_⟩
      obtain ⟨hcomplete', hsame⟩ := hends hcomplete
      exact ⟨hcomplete', congrArg (r :: ·) hsame⟩
  · intro h
    induction s generalizing t with
    | cut => exact .cut
    | ended =>
      obtain ⟨hcomplete, hsame⟩ := h.2 rfl
      obtain rfl : t = .ended := eq_iff.2 ⟨hsame, hcomplete⟩
      exact .ended
    | result r rest ih =>
      obtain ⟨hbegins, hends⟩ := h
      cases t with
      | ended | cut => exact absurd (List.prefix_nil.1 hbegins) (List.cons_ne_nil _ _)
      | result r' rest' =>
        obtain ⟨rfl, hrest⟩ := List.cons_prefix_cons.1 hbegins
        refine .result r (ih ⟨hrest, fun hcomplete => ?_⟩)
        obtain ⟨hcomplete', hsame⟩ := hends hcomplete
        exact ⟨hcomplete', (List.cons.inj hsame).2⟩

end Showing

open Showing (Extends)

/-- Streams cover what their showings go as far as. -/
theorem covers_iff {o o' : Nat → Outputs} :
    Covers o o' ↔ ∀ turns, ∀ᶠ more in Filter.atTop, Extends (o turns).shown (o' more).shown := by
  simp only [Covers, Showing.extends_iff, Outputs.transcript_results, Outputs.transcript_complete]

theorem Reaches.eventually_extends {part : Outputs} {o : Nat → Outputs} (h : Reaches part o) :
    ∀ᶠ turns in Filter.atTop, Extends part.shown (o turns).shown := by
  simpa only [Showing.extends_iff, Outputs.transcript_results, Outputs.transcript_complete]
    using h.eventually_results

/-- A tree that does not change is reached by itself. -/
theorem Reaches.refl (o : Outputs) : Reaches o fun _ => o := by
  induction o with
  | done => exact .nothing
  | emit r rest ih => exact .result r (ih ())
  | check next ih =>
    exact .checkLeft (.checkRight (fun expired _ => next expired) (.of_forall fun _ => rfl) (ih false))
  | pause next ih => exact .later (ih ())
  | exhausted => exact .exhausted

/-! ### Work ahead -/

namespace Outputs

/-- The work that the stream does ahead comes to an end, so that a consumer gets hold of the stream. -/
def opens : Outputs → Bool
  | .check next => (next false).opens
  | .exhausted => false
  | _ => true

variable {o : Outputs}

/-- Where the work ahead is cut off nothing shows, and nothing goes on from there. -/
theorem cut_of_not_opens (h : o.opens = false) :
    o.shown = .cut ∧ ∀ next, (o.settle next).shown = .cut := by
  induction o with
  | done | emit | pause => cases h
  | check next ih => exact ih false h
  | exhausted => exact ⟨rfl, fun _ => rfl⟩

theorem opens_of_complete (h : o.shown.complete = true) : o.opens = true := by
  cases hopens : o.opens with
  | true => rfl
  | false =>
    rw [(cut_of_not_opens hopens).1] at h
    cases h

/-- What is left of a stream after its work ahead shows the same. -/
theorem exists_settled (h : o.opens = true) :
    ∃ left : Outputs, left.shown = o.shown ∧ ∀ next, (o.settle next).shown = (next left).shown := by
  induction o with
  | done | emit | pause => exact ⟨_, rfl, fun _ => rfl⟩
  | check next ih => exact ih false h
  | exhausted => cases h

end Outputs

/-- Streams that reach a tree whose work ahead is done do theirs, and what is left of them reaches what is
left of the tree. -/
theorem Reaches.settled {part : Outputs} {o : Nat → Outputs} (h : Reaches part o)
    (hopens : part.opens = true) :
    ∃ left lefts, Reaches left lefts ∧ left.shown = part.shown ∧
      ∀ᶠ turns in Filter.atTop, ∀ next,
        ((o turns).settle next).shown = (next (lefts turns)).shown := by
  induction h with
  | exhausted => cases hopens
  | done ho => exact ⟨_, _, .done ho, rfl, ho.mono fun _ h next => by rw [h]; rfl⟩
  | emit r rest ho hrest _ =>
    exact ⟨_, _, .emit r rest ho hrest, rfl, ho.mono fun _ h next => by rw [h]; rfl⟩
  | pause later ho hlater _ =>
    exact ⟨_, _, .pause later ho hlater, rfl, ho.mono fun _ h next => by rw [h]; rfl⟩
  | checkLeft _ ih => exact ih hopens
  | checkRight later ho _ ih =>
    obtain ⟨left, lefts, hleft, hshown, hsettle⟩ := ih hopens
    refine ⟨left, lefts, hleft, hshown, ?_⟩
    filter_upwards [ho, hsettle] with turns h hnext next
    rw [h]
    exact hnext next

/-! ### Streams of results -/

/-- **A stream of results,** endless or not: its trees, each of which is reached by those with more turns,
and the work ahead ends in one of them. -/
structure ResultStream where
  tree : Nat → Outputs
  coherent : ∀ turns, Reaches (tree turns) tree
  opens : ∃ turns, (tree turns).opens = true

namespace ResultStream

/-- A stream in which no loop counts its turns. -/
def ofTree (o : Outputs) (h : o.opens = true) : ResultStream where
  tree _ := o
  coherent _ := .refl o
  opens := ⟨0, h⟩

/-- The results from a place on, one in each turn. -/
def resultsFrom (results : Nat → Result) : Nat → Nat → Outputs
  | 0, _ => .exhausted
  | turns + 1, place => .emit (results place) fun _ => resultsFrom results turns (place + 1)

theorem reaches_resultsFrom (results : Nat → Result) (turns used place : Nat) :
    Reaches (resultsFrom results turns place) fun more => resultsFrom results (more - used) place := by
  induction turns generalizing used place with
  | zero => exact .exhausted
  | succ turns ih =>
    refine (Reaches.result (results place) (ih (used + 1) (place + 1))).congr ?_
    filter_upwards [Ends.eventually_turn used] with more hturn
    rw [hturn, resultsFrom]

/-- An endless stream. -/
def endless (results : Nat → Result) : ResultStream where
  tree turns := resultsFrom results turns 0
  coherent turns := reaches_resultsFrom results turns 0 0
  opens := ⟨1, rfl⟩

/-- The values directly inside a value, one after the other. -/
def children (v : Value) : ResultStream :=
  ofTree (.ofList v.children) (by cases v.children <;> rfl)

/-- A tree whose work ahead is done goes as far as any other. -/
theorem exists_opens_extends (o : ResultStream) (n : Nat) :
    ∃ n', (o.tree n').opens = true ∧ Extends (o.tree n).shown (o.tree n').shown := by
  cases hopens : (o.tree n).opens with
  | true => exact ⟨n, hopens, .refl _⟩
  | false =>
    obtain ⟨n', hopens'⟩ := o.opens
    refine ⟨n', hopens', ?_⟩
    rw [(Outputs.cut_of_not_opens hopens).1]
    exact .cut

end ResultStream

/-! ### The recursion -/

/-- A value, and for each result of its step the whole traversal from there, down to a depth. -/
def preorder (step : Value → Outputs) : Nat → Value → Outputs
  | 0, _ => .exhausted
  | depth + 1, v => .emit (.ok v) fun _ => (step v).bind (preorder step depth)

/-- The traversal by a stack, for a number of turns. -/
def traversal (f : Value → ResultStream) (v : Value) (turns : Nat) : Outputs :=
  .recurseWith turns (fun x => (f x).tree turns) v

section

variable (step : Value → Outputs)

theorem shown_preorder_succ (depth : Nat) (v : Value) :
    (preorder step (depth + 1) v).shown =
      .result (.ok v) ((step v).shown.bind fun x => (preorder step depth x).shown) :=
  congrArg (Showing.result (.ok v)) (Outputs.shown_bind (step v) (preorder step depth))

/-- A greater depth shows as much. -/
theorem preorder_extends_succ (depth : Nat) (v : Value) :
    Extends (preorder step depth v).shown (preorder step (depth + 1) v).shown := by
  induction depth generalizing v with
  | zero => exact .cut
  | succ depth ih =>
    rw [shown_preorder_succ, shown_preorder_succ]
    exact .result (.ok v) ((Extends.refl _).bind ih)

/-- What a stack comes to: each stream with the traversals from its values, the top first. -/
def stackShown (depth : Nat) : List Outputs → Showing
  | [] => .ended
  | o :: stack => (o.shown.bind fun v => (preorder step depth v).shown).append (stackShown depth stack)

theorem stackShown_extends_succ (depth : Nat) (stack : List Outputs) :
    Extends (stackShown step depth stack) (stackShown step (depth + 1) stack) := by
  induction stack with
  | nil => exact .ended
  | cons o stack ih => exact ((Extends.refl _).bind (preorder_extends_succ step depth)).append ih

/-- **The loop goes no further than the recursion.** -/
theorem traverse_extends (turns : Nat) (stack : List Outputs) :
    Extends (Outputs.traverse step turns stack).shown (stackShown step turns stack) := by
  induction turns generalizing stack with
  | zero => exact .cut
  | succ turns ih =>
    -- what the next turn comes to, one deeper
    have hturn : ∀ rest : List Outputs, Extends (Outputs.traverse step turns rest).shown
        (stackShown step (turns + 1) rest) := fun rest =>
      (ih rest).trans (stackShown_extends_succ step turns rest)
    cases stack with
    | nil => exact .ended
    | cons o stack =>
      cases o with
      | done => exact hturn stack
      | exhausted => exact .cut
      | pause next => exact hturn (next () :: stack)
      | check next => exact hturn (next false :: stack)
      | emit r rest =>
        cases r with
        | error e => exact .result (.error e) (hturn (rest () :: stack))
        | ok v =>
          rw [Outputs.traverse, Outputs.shown_guarded]
          cases hopens : (step v).opens with
          | false =>
            rw [(Outputs.cut_of_not_opens hopens).2]
            exact .cut
          | true =>
            obtain ⟨inner, hinner, hsettle⟩ := Outputs.exists_settled hopens
            rw [hsettle]
            have hbelow := stackShown_extends_succ step turns (rest () :: stack)
            have hinside := (ih (inner :: rest () :: stack)).trans ((Extends.refl _).append hbelow)
            rw [hinner] at hinside
            show Extends _ (((preorder step (turns + 1) v).shown.append _).append _)
            rw [shown_preorder_succ, Showing.append_assoc]
            exact .result (.ok v) hinside

end

/-! ### The loop, with turns enough -/

/-- With turns enough, however many were made before, the loop shows as much for these streams. -/
def Showing.Seen (f : Value → ResultStream) (s : Showing) (streams : List (Nat → Outputs)) : Prop :=
  ∀ used, ∀ᶠ turns in Filter.atTop,
    Extends s (Outputs.traverse (fun x => (f x).tree turns) (turns - used)
      (streams.map fun o => o turns)).shown

namespace Showing.Seen

open Ends (eventually_turn)

variable {f : Value → ResultStream} {s : Showing} {streams : List (Nat → Outputs)}

theorem nothing : Seen f .ended [] := by
  intro used
  filter_upwards [eventually_turn used] with turns hturn
  rw [hturn, List.map_nil, Outputs.traverse]
  exact .ended

/-- The loop comes back from every value on top of its stack with at least this showing, and goes on with
what is behind the value. -/
def Passes (f : Value → ResultStream) (next : Value → Showing) : Prop :=
  ∀ (v : Value) (o rest : Nat → Outputs) (s : Showing) (streams : List (Nat → Outputs)),
    (∀ᶠ turns in Filter.atTop, o turns = .emit (.ok v) fun _ => rest turns) →
    Seen f s (rest :: streams) → Seen f ((next v).append s) (o :: streams)

/-- **A stream on top of the stack** is gone through before what is below it, as far as a tree that it
reaches. -/
theorem push {next : Value → Showing} (hnext : Passes f next) {part : Outputs} {o : Nat → Outputs}
    (h : Reaches part o) (hseen : Seen f s streams) :
    Seen f ((part.shown.bind next).append s) (o :: streams) := by
  -- on how the tree is reached: a look at the clock that only the streams have costs the loop a turn
  induction h with
  | exhausted => exact fun _ => .of_forall fun _ => .cut
  | done ho =>
    intro used
    filter_upwards [ho, eventually_turn used, hseen (used + 1)] with turns h hturn hrest
    rw [List.map_cons, h, hturn, Outputs.traverse]
    exact hrest
  | @emit part o r rest ho _ ih =>
    cases r with
    | ok v =>
      show Seen f (((next v).append ((part ()).shown.bind next)).append s) (o :: streams)
      rw [append_assoc]
      exact hnext v o rest _ streams ho ih
    | error e =>
      intro used
      filter_upwards [ho, eventually_turn used, ih (used + 1)] with turns h hturn hrest
      rw [List.map_cons, h, hturn, Outputs.traverse]
      exact .result (.error e) hrest
  | pause later ho _ ih =>
    intro used
    filter_upwards [ho, eventually_turn used, ih (used + 1)] with turns h hturn hrest
    rw [List.map_cons, h, hturn, Outputs.traverse]
    exact hrest
  | checkLeft _ ih => exact ih
  | checkRight later ho _ ih =>
    intro used
    filter_upwards [ho, eventually_turn used, ih (used + 1)] with turns h hturn hrest
    rw [List.map_cons, h, hturn, Outputs.traverse]
    exact hrest

/-- The loop comes back from a value with the recursion from there, as deep as one likes. -/
theorem passes (n depth : Nat) :
    Passes f fun v => (preorder (fun x => (f x).tree n) depth v).shown := by
  induction depth with
  | zero => exact fun _ _ _ _ _ _ _ _ => .of_forall fun _ => .cut
  | succ depth ih =>
    intro v o rest s streams ho hseen
    -- the value comes out as soon as its step gives a stream, maybe only in trees with more turns
    obtain ⟨n', hopens, hfar⟩ := (f v).exists_opens_extends n
    obtain ⟨left, lefts, hleft, hshown, hsettle⟩ := ((f v).coherent n').settled hopens
    have hinside := push ih hleft hseen
    rw [hshown] at hinside
    have hstep := (hfar.bind fun x => Extends.refl
      (preorder (fun x => (f x).tree n) depth x).shown).append (Extends.refl s)
    intro used
    filter_upwards [ho, eventually_turn used, hsettle, hinside (used + 1)] with turns h hturn hsettle
      hwalk
    rw [List.map_cons, h, hturn, Outputs.traverse, Outputs.shown_guarded, hsettle, shown_preorder_succ]
    exact .result (.ok v) (hstep.trans hwalk)

end Showing.Seen

/-! ### The loop and the recursion -/

section

variable (f : Value → ResultStream)

/-- The loop goes no further than the recursion with the same trees. -/
theorem traversal_extends (turns : Nat) (v : Value) :
    Extends (traversal f v turns).shown (preorder (fun x => (f x).tree turns) turns v).shown := by
  have hloop := traverse_extends (fun x => (f x).tree turns) turns [.single v]
  have hone : stackShown (fun x => (f x).tree turns) turns [.single v] =
      (preorder (fun x => (f x).tree turns) turns v).shown := by
    show (Showing.bind (.one (.ok v)) _).append .ended = _
    rw [Showing.append_ended, Showing.one_bind]
  rw [hone] at hloop
  exact hloop

/-- The loop goes as far as any recursion, with turns enough. -/
theorem eventually_traversal_extends (n depth : Nat) (v : Value) :
    ∀ᶠ turns in Filter.atTop,
      Extends (preorder (fun x => (f x).tree n) depth v).shown (traversal f v turns).shown := by
  have hstart := Showing.Seen.push (Showing.Seen.passes (f := f) n depth) (Reaches.one (.ok v))
    Showing.Seen.nothing
  have hone : ((Outputs.one (.ok v)).shown.bind fun x =>
      (preorder (fun x => (f x).tree n) depth x).shown).append .ended =
        (preorder (fun x => (f x).tree n) depth v).shown := by
    rw [Showing.append_ended]
    exact Showing.one_bind v _
  rw [hone] at hstart
  exact hstart 0

/-- The recursion goes on with the steps and with the depth. -/
theorem reaches_preorder (n depth used : Nat) (v : Value) :
    Reaches (preorder (fun x => (f x).tree n) depth v) fun turns =>
      preorder (fun x => (f x).tree turns) (turns - used) v := by
  induction depth generalizing used v with
  | zero => exact .exhausted
  | succ depth ih =>
    refine (Reaches.result (.ok v) (((f v).coherent n).bind fun x => ih (used + 1) x)).congr ?_
    filter_upwards [Ends.eventually_turn used] with turns hturn
    rw [hturn, preorder]

/-- **The loop shows what the recursion shows.** -/
theorem traversal_sameResults_preorder (v : Value) :
    SameResults (traversal f v) fun turns => preorder (fun x => (f x).tree turns) turns v where
  covers := covers_iff.2 fun turns => by
    have hgrows := (reaches_preorder f turns turns 0 v).eventually_extends
    exact hgrows.mono fun _ h => (traversal_extends f turns v).trans h
  covered := covers_iff.2 fun turns => eventually_traversal_extends f turns turns v

/-- **The loop solves the equation of the recursion.** -/
theorem traversal_sameResults_unfolded (v : Value) :
    SameResults (traversal f v) fun turns =>
      .emit (.ok v) fun _ => ((f v).tree turns).bind fun x => traversal f x turns where
  covers := covers_iff.2 fun turns => by
    have hloop := traversal_extends f turns v
    cases turns with
    | zero => exact .of_forall fun _ => .cut
    | succ turns =>
      rw [shown_preorder_succ] at hloop
      have hinside := Extends.eventually_bind ((f v).tree (turns + 1)).shown
        fun x => eventually_traversal_extends f (turns + 1) turns x
      filter_upwards [hinside, ((f v).coherent (turns + 1)).eventually_extends] with more hinside hstep
      refine hloop.trans (.result (.ok v) ?_)
      rw [Outputs.shown_bind]
      exact hinside.trans (hstep.bind fun _ => .refl _)
  covered := covers_iff.2 fun turns => by
    have hunfolded : Extends
        (Outputs.emit (.ok v) fun _ => ((f v).tree turns).bind fun x => traversal f x turns).shown
        (preorder (fun x => (f x).tree turns) (turns + 1) v).shown := by
      rw [shown_preorder_succ]
      refine .result (.ok v) ?_
      rw [Outputs.shown_bind]
      exact (Extends.refl _).bind fun x => traversal_extends f turns x
    exact (eventually_traversal_extends f turns (turns + 1) v).mono fun _ h => hunfolded.trans h

end

end JsonFilter.Eval
