import JsonFilter.Proofs.Eval.Traversals
import JsonFilter.Proofs.Json.Parts

/-!
# Walks through a value

`..` goes through a value and everything inside it, depth first.  A loop that is told to step from each value
to the values directly inside makes the same walk, whatever else its steps do: a value is finite, so that the
recursion that such a loop stands for (`preorder`) comes to its end at some depth, and the loop goes as far.

* `Value.depthFirst` — a value and everything inside it, in the order of the walk.
* `StepsInside.eventually_preorder` — the recursion goes through all of a value.
* **`recurseWith_walks`** — loops that step to the values inside show the walk and end.
-/

namespace JsonFilter

namespace Json.Value

/-- The value and, depth first, everything inside it. -/
def depthFirst (v : Value) : List Value :=
  v :: v.children.attach.flatMap fun x => x.1.depthFirst
termination_by sizeOf v
decreasing_by exact sizeOf_lt_of_mem_children x.2

theorem depthFirst_eq (v : Value) : v.depthFirst = v :: v.children.flatMap depthFirst := by
  rw [depthFirst, List.flatMap_subtype, List.unattach_attach]
  exact fun _ _ => rfl

end Json.Value

namespace Eval

open Json (Value)

theorem Showing.ofValues_append (values more : List Value) :
    ofValues (values ++ more) = (ofValues values).append (ofValues more) := by
  induction values with
  | nil => rfl
  | cons v values ih => exact congrArg (Showing.result (.ok v)) ih

/-- The step leads from each value to the values directly inside it. -/
def StepsInside (step : Value → Outputs) : Prop := ∀ v, (step v).shown = .ofValues v.children

namespace StepsInside

variable {step : Value → Outputs}

/-- The streams of the steps. -/
def streams (h : StepsInside step) (v : Value) : ResultStream :=
  .ofTree (step v) (Outputs.opens_of_complete (by rw [h v, Showing.complete_ofValues]))

/-- Some values with everything inside them, if each of them is gone through to its end. -/
theorem eventually_inside {used : Nat} (values : List Value)
    (hvalues : ∀ x ∈ values, ∀ᶠ depth in Filter.atTop,
      (preorder step (depth - used) x).shown = .ofValues x.depthFirst) :
    ∀ᶠ depth in Filter.atTop,
      ((Showing.ofValues values).bind fun x => (preorder step (depth - used) x).shown) =
        .ofValues (values.flatMap Value.depthFirst) := by
  induction values with
  | nil => exact .of_forall fun _ => rfl
  | cons x values ih =>
    obtain ⟨hx, hrest⟩ := List.forall_mem_cons.1 hvalues
    filter_upwards [hx, ih hrest] with depth hx hrest
    show (preorder step (depth - used) x).shown.append _ = _
    rw [hx, hrest, ← Showing.ofValues_append, List.flatMap_cons]

/-- A value is finite, so a recursion deep enough goes through all of it. -/
theorem eventually_preorder (h : StepsInside step) (v : Value) (used : Nat) :
    ∀ᶠ depth in Filter.atTop, (preorder step (depth - used) v).shown = .ofValues v.depthFirst := by
  induction v using Value.induction generalizing used with
  | step v ih =>
    have hinside := eventually_inside v.children fun x hx => ih x hx (used + 1)
    filter_upwards [Ends.eventually_turn used, hinside] with depth hturn hinside
    rw [hturn, shown_preorder_succ, h v, hinside, Value.depthFirst_eq]
    rfl

end StepsInside

/-- **Loops that step to the values inside walk through the whole value,** depth first, and end. -/
theorem recurseWith_walks {step : Value → Outputs} (hstep : StepsInside step) (v : Value) :
    Gives (fun turns => Outputs.recurseWith turns step v) (v.depthFirst.map .ok) := by
  obtain ⟨depth, hdepth⟩ := (hstep.eventually_preorder v 0).exists
  filter_upwards [eventually_traversal_extends hstep.streams 0 depth v] with turns hextends
  have hpreorder : (preorder step depth v).shown = .ofValues v.depthFirst := hdepth
  have hshown : (Outputs.recurseWith turns step v).shown = .ofValues v.depthFirst :=
    (hpreorder ▸ hextends : Showing.Extends _ _).eq_of_complete (Showing.complete_ofValues _)
  rw [Outputs.transcript_results, Outputs.transcript_complete, hshown]
  exact ⟨Showing.results_ofValues _, Showing.complete_ofValues _⟩

end Eval

end JsonFilter
