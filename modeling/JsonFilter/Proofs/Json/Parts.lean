import JsonFilter.Json.Value
import JsonFilter.Proofs.Json.Members

/-!
# The values inside a value

Arrays and objects hold values, which hold values in turn.  `Value.children` lists those directly inside,
so that an induction over values has one hypothesis for items and members alike.

* **`Value.induction`** — what holds of a value whenever it holds of the values directly inside holds of
  every value.
* `Value.Everywhere` — a property of a value, the values inside it, those inside them and so on.
* `Value.Proper` — the values of JSON: nowhere does an object have a key twice.
-/

namespace JsonFilter.Json
namespace Value

/-- A value directly inside is smaller than the whole. -/
theorem sizeOf_lt_of_mem_children {v x : Value} (h : x ∈ v.children) : sizeOf x < sizeOf v := by
  cases v with
  | null | bool | number | string => cases h
  | array items =>
    have hlt : sizeOf x < sizeOf items := List.sizeOf_lt_of_mem h
    rw [array.sizeOf_spec]
    omega
  | object members =>
    obtain ⟨m, hm, rfl⟩ := List.mem_map.1 h
    have hlist := List.sizeOf_lt_of_mem hm
    have hpair : sizeOf m = 1 + sizeOf m.1 + sizeOf m.2 := rfl
    rw [object.sizeOf_spec]
    omega

/-- **Induction over values.**  What holds of a value whenever it holds of the values directly inside
holds of every value. -/
@[elab_as_elim]
theorem induction {motive : Value → Prop} (step : ∀ v, (∀ x ∈ v.children, motive x) → motive v)
    (v : Value) : motive v :=
  step v fun x hx =>
    have := sizeOf_lt_of_mem_children hx
    induction step x
termination_by sizeOf v

/-- A property of a value and of everything inside it. -/
inductive Everywhere (P : Value → Prop) : Value → Prop
  | intro {v : Value} : P v → (∀ x ∈ v.children, Everywhere P x) → Everywhere P v

namespace Everywhere

variable {P : Value → Prop} {v : Value}

theorem self (h : Everywhere P v) : P v := by
  cases h with
  | intro hv _ => exact hv

theorem child (h : Everywhere P v) {x : Value} (hx : x ∈ v.children) : Everywhere P x := by
  cases h with
  | intro _ hchildren => exact hchildren x hx

theorem member {members : List (String × Value)} (h : Everywhere P (.object members)) {key : String}
    {x : Value} (hx : (key, x) ∈ members) : Everywhere P x :=
  h.child (Members.mem_values_of_mem hx)

end Everywhere

/-- If the value is an object, no key stands in it twice. -/
def DistinctKeys : Value → Prop
  | .object members => Members.Distinct members
  | _ => True

/-- A value of JSON: nowhere inside does an object have a key twice. -/
def Proper (v : Value) : Prop := Everywhere DistinctKeys v

namespace Proper

theorem array {items : List Value} (h : items.Forall Proper) : Proper (.array items) :=
  .intro trivial (List.forall_iff_forall_mem.1 h)

theorem object {members : List (String × Value)} (hdistinct : Members.Distinct members)
    (h : (Members.values members).Forall Proper) : Proper (.object members) :=
  .intro hdistinct (List.forall_iff_forall_mem.1 h)

end Proper

end Value
end JsonFilter.Json
