import JsonFilter.Filter.Grammar
import Mathlib.Data.List.Basic

/-!
# The parts of a filter

A filter is made of filters, some of them inside lists and options.  `Expr.parts` lists those that it is
directly made of, so that an induction over filters has one hypothesis for all of them.

* **`Expr.induction`** — what holds of a filter whenever it holds of its parts holds of every filter.
* `Expr.Everywhere` — a property of a filter, its parts, their parts and so on.
* `Expr.Complete` — everywhere in a filter, computed keys have values.
-/

namespace JsonFilter.Filter

/-- The filter of a computed key. -/
def ObjectKey.filter? {ε : Type} : ObjectKey ε → Option ε
  | .static _ => none
  | .variable _ _ => none
  | .computed key => some key

namespace Expr

/-- The filters of an entry. -/
def entryParts (entry : ObjectEntry) : List Expr := entry.1.filter?.toList ++ entry.2.toList

/-- The filters that a filter is directly made of. -/
def parts : Expr → List Expr
  | .identity | .recurseAll | .literal _ | .variable _ _ => []
  | .field target _ | .iterate target | .neg target => [target]
  | .index target i => [target, i]
  | .slice target start stop => target :: (start.toList ++ stop.toList)
  | .array body => body.toList
  | .object entries => entries.flatMap entryParts
  | .binary _ left right | .alternative left right | .pipe left right | .comma left right =>
    [left, right]
  | .cond test yes no => test :: yes :: no.toList
  | .attempt body handler => body :: handler.toList
  | .reduce source _ init update => [source, init, update]
  | .bind source _ body => [source, body]
  | .define _ body rest => [body, rest]
  | .call _ args _ => args

theorem sizeOf_lt_of_mem_toList {o : Option Expr} {x : Expr} (h : x ∈ o.toList) :
    sizeOf x < sizeOf o := by
  cases o with
  | none => cases h
  | some y =>
    obtain rfl : x = y := by simpa using h
    simp

theorem sizeOf_lt_of_mem_entryParts {entry : ObjectEntry} {x : Expr} (h : x ∈ entryParts entry) :
    sizeOf x < sizeOf entry := by
  obtain ⟨key, value⟩ := entry
  rcases List.mem_append.1 h with hkey | hvalue
  · cases key with
    | static name => cases hkey
    | «variable» name span => cases hkey
    | computed key =>
      obtain rfl : x = key := by simpa [ObjectKey.filter?] using hkey
      simp only [Prod.mk.sizeOf_spec, ObjectKey.computed.sizeOf_spec]
      omega
  · have hlt : sizeOf x < sizeOf value := sizeOf_lt_of_mem_toList hvalue
    simp only [Prod.mk.sizeOf_spec]
    omega

/-- A part is smaller than the whole. -/
theorem sizeOf_lt_of_mem_parts {e x : Expr} (h : x ∈ e.parts) : sizeOf x < sizeOf e := by
  cases e with
  | identity | recurseAll | literal | «variable» => cases h
  | field | iterate | neg | index | binary | alternative | pipe | comma | reduce | bind | define =>
    simp only [parts, List.mem_cons, List.not_mem_nil, or_false] at h
    simp only [field.sizeOf_spec, iterate.sizeOf_spec, neg.sizeOf_spec, index.sizeOf_spec,
      binary.sizeOf_spec, alternative.sizeOf_spec, pipe.sizeOf_spec, comma.sizeOf_spec,
      reduce.sizeOf_spec, bind.sizeOf_spec, define.sizeOf_spec]
    grind
  | slice target start stop =>
    simp only [parts, List.mem_cons, List.mem_append] at h
    simp only [slice.sizeOf_spec]
    rcases h with rfl | hstart | hstop
    · omega
    · have := sizeOf_lt_of_mem_toList hstart
      omega
    · have := sizeOf_lt_of_mem_toList hstop
      omega
  | array body =>
    have := sizeOf_lt_of_mem_toList h
    simp only [array.sizeOf_spec]
    omega
  | object entries =>
    obtain ⟨entry, hentry, hx⟩ := List.mem_flatMap.1 h
    have hlist := List.sizeOf_lt_of_mem hentry
    have := sizeOf_lt_of_mem_entryParts hx
    simp only [object.sizeOf_spec]
    omega
  | cond test yes no =>
    simp only [parts, List.mem_cons] at h
    simp only [cond.sizeOf_spec]
    rcases h with rfl | rfl | hno
    · omega
    · omega
    · have := sizeOf_lt_of_mem_toList hno
      omega
  | attempt body handler =>
    simp only [parts, List.mem_cons] at h
    simp only [attempt.sizeOf_spec]
    rcases h with rfl | hhandler
    · omega
    · have := sizeOf_lt_of_mem_toList hhandler
      omega
  | call name args span =>
    have hlt : sizeOf x < sizeOf args := List.sizeOf_lt_of_mem h
    simp only [call.sizeOf_spec]
    omega

/-- **Induction over filters.**  What holds of a filter whenever it holds of its parts holds of every
filter. -/
@[elab_as_elim]
theorem induction {motive : Expr → Prop} (step : ∀ e, (∀ x ∈ e.parts, motive x) → motive e)
    (e : Expr) : motive e :=
  step e fun x hx =>
    have := sizeOf_lt_of_mem_parts hx
    induction step x
termination_by sizeOf e

/-- A property of a filter and of everything inside it. -/
inductive Everywhere (P : Expr → Prop) : Expr → Prop
  | intro {e : Expr} : P e → (∀ x ∈ e.parts, Everywhere P x) → Everywhere P e

namespace Everywhere

variable {P : Expr → Prop} {e : Expr}

theorem self (h : Everywhere P e) : P e := by
  cases h with
  | intro he _ => exact he

theorem part (h : Everywhere P e) {x : Expr} (hx : x ∈ e.parts) : Everywhere P x := by
  cases h with
  | intro _ hparts => exact hparts x hx

theorem mono {P' : Expr → Prop} (h : Everywhere P e) (himp : ∀ x, P x → P' x) : Everywhere P' e := by
  induction h with
  | intro he _ ih => exact .intro (himp _ he) ih

/-- A property of all filters holds everywhere in a filter. -/
theorem of_forall (h : ∀ x, P x) (e : Expr) : Everywhere P e := by
  induction e using Expr.induction with
  | step e ih => exact .intro (h e) ih

/-- Unfolds for a given filter, part by part. -/
theorem iff_forall_parts : Everywhere P e ↔ P e ∧ e.parts.Forall (Everywhere P) :=
  ⟨fun h => ⟨h.self, List.forall_iff_forall_mem.2 fun _ hx => h.part hx⟩,
    fun h => .intro h.1 (List.forall_iff_forall_mem.1 h.2)⟩

end Everywhere

/-- No entry of an object construction lacks a value that its key cannot supply. -/
def KeysHaveValues : Expr → Prop
  | .object entries => ∀ entry ∈ entries, lacksValue entry = false
  | _ => True

/-- **Computed keys have values**, in a filter and everywhere inside it. -/
def Complete (e : Expr) : Prop := e.Everywhere KeysHaveValues

/-- All filters but object constructions are as complete as their parts. -/
theorem Complete.ofParts {e : Expr} (he : e.KeysHaveValues) (h : ∀ x ∈ e.parts, x.Complete) : e.Complete :=
  .intro he h

end Expr
end JsonFilter.Filter
