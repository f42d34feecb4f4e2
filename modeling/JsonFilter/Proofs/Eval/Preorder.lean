import JsonFilter.Proofs.Eval.CoreForms
import Mathlib.Data.List.FinRange
import Mathlib.Data.Set.Card

/-!
# Traversals in preorder

A value is a tree.  A node of it has an address: at each level the place among the values directly inside,
items in their order and the values of members in the order of their keys.  Equal values may stand at many
addresses, so nodes are counted by addresses.  A walk in preorder passes them in ascending order, where an
address is less than those that it is the beginning of, and otherwise the first different place decides.

* `Value.mem_addresses_iff`, `Value.addresses_ascending` — all addresses of nodes, each once and in order.
* `Value.depthFirst_eq_nodes`, `Value.length_depthFirst` — the walk through a value passes the nodes at them
  and is as long as there are nodes.
* **`traversal_is_preorder`** — what a loop shows that steps as one likes, and what it shows of a value when
  it steps to the values directly inside.
-/

namespace JsonFilter

namespace Json.Value

/-! ### Nodes -/

/-- The node at an address, if there is one. -/
def nodeAt? (v : Value) : List Nat → Option Value
  | [] => some v
  | i :: address => v.children[i]?.bind fun x => x.nodeAt? address

/-- The addresses of all nodes, a node before those inside it. -/
def addresses (v : Value) : List (List Nat) :=
  [] :: (List.finRange v.children.length).flatMap fun i => (v.children.get i).addresses.map (i.val :: ·)
termination_by sizeOf v
decreasing_by exact sizeOf_lt_of_mem_children (List.get_mem v.children i)

variable {v : Value} {address : List Nat}

/-- **Every node has its address in the list,** and nothing else has. -/
theorem mem_addresses_iff : address ∈ v.addresses ↔ (v.nodeAt? address).isSome := by
  induction address generalizing v with
  | nil =>
    rw [addresses]
    exact iff_of_true List.mem_cons_self rfl
  | cons i address ih =>
    rw [addresses, List.mem_cons, or_iff_right (List.cons_ne_nil i address), List.mem_flatMap, nodeAt?]
    constructor
    · rintro ⟨j, -, hmem⟩
      obtain ⟨inner, hinner, heq⟩ := List.mem_map.1 hmem
      obtain ⟨rfl, rfl⟩ := List.cons.inj heq
      rw [List.getElem?_eq_getElem j.isLt]
      exact ih.1 hinner
    · intro hnode
      by_cases hi : i < v.children.length
      · rw [List.getElem?_eq_getElem hi] at hnode
        exact ⟨⟨i, hi⟩, List.mem_finRange _, List.mem_map_of_mem (ih.2 hnode)⟩
      · rw [List.getElem?_eq_none (Nat.le_of_not_lt hi)] at hnode
        cases hnode

/-- **The addresses ascend.** -/
theorem addresses_ascending (v : Value) : v.addresses.Pairwise (· < ·) := by
  induction v using Value.induction with
  | step v ih =>
    rw [addresses, List.pairwise_cons, List.pairwise_flatMap]
    refine ⟨fun address hmem => ?_, fun i _ => ?_, ?_⟩
    · obtain ⟨i, -, hmem⟩ := List.mem_flatMap.1 hmem
      obtain ⟨inner, -, rfl⟩ := List.mem_map.1 hmem
      exact List.nil_lt_cons i.val inner
    · rw [List.pairwise_map]
      refine (ih _ (List.get_mem v.children i)).imp fun hlt => ?_
      exact List.cons_lt_cons_iff.2 (.inr ⟨rfl, hlt⟩)
    · refine (List.pairwise_lt_finRange _).imp fun {i j} hij address hi other hj => ?_
      obtain ⟨inner, -, rfl⟩ := List.mem_map.1 hi
      obtain ⟨inner', -, rfl⟩ := List.mem_map.1 hj
      exact List.cons_lt_cons_iff.2 (.inl hij)

/-- **The walk passes the nodes by their addresses.** -/
theorem depthFirst_eq_nodes (v : Value) : v.depthFirst.map some = v.addresses.map v.nodeAt? := by
  induction v using Value.induction with
  | step v ih =>
    have hplaces : v.children.flatMap depthFirst =
        (List.finRange v.children.length).flatMap fun i => (v.children.get i).depthFirst := by
      rw [← List.flatMap_map v.children.get, List.map_get_finRange]
    rw [depthFirst_eq, addresses, List.map_cons, List.map_cons, hplaces, List.map_flatMap,
      List.map_flatMap]
    refine congrArg (some v :: ·) (List.flatMap_congr fun i _ => ?_)
    rw [ih _ (List.get_mem v.children i), List.map_map]
    refine List.map_congr_left fun address _ => ?_
    show _ = v.nodeAt? (i.val :: address)
    rw [nodeAt?, List.getElem?_eq_getElem i.isLt]
    rfl

/-- **The walk is as long as there are nodes.** -/
theorem length_depthFirst (v : Value) :
    v.depthFirst.length = {address | (v.nodeAt? address).isSome}.ncard := by
  have hnodup : v.addresses.Nodup := (addresses_ascending v).imp fun hlt => ne_of_lt hlt
  have hset : {address | (v.nodeAt? address).isSome} = (v.addresses.toFinset : Set (List Nat)) := by
    ext address
    rw [Set.mem_ofPred_eq, Finset.mem_coe, List.mem_toFinset, mem_addresses_iff]
  have hlength := congrArg List.length (depthFirst_eq_nodes v)
  rw [List.length_map, List.length_map] at hlength
  rw [hset, Set.ncard_coe_finset, List.toFinset_card_of_nodup hnodup, hlength]

end Json.Value

namespace Eval

open Json (Value)

/-- **A traversal by a stack is the recursion in preorder.**  Whatever streams the steps give, endless ones
too, the loop shows without a deadline what the recursion shows that is cut off at greater and greater
depths: the value, and then for each result of its step, in order, the whole traversal from there, or the
failure itself, behind which the traversal goes on.  So it solves the equation that says this without a
depth.  The builtins that recurse with an argument are this loop.

With the values directly inside as steps, the results are the nodes of the value by their addresses, which
ascend, so that each node comes once, before those inside it and before those at later places.  They are as
many as there are nodes, and then the stream ends; that is what the two builtins without an argument
give. -/
theorem traversal_is_preorder (f : Value → ResultStream) (v : Value) (c : Context) (span : Span) :
    SameResults (traversal f v) (fun turns => preorder (fun x => (f x).tree turns) turns v) ∧
    SameResults (traversal f v) (fun turns =>
      .emit (.ok v) fun _ => ((f v).tree turns).bind fun x => traversal f x turns) ∧
    (let calls (b : Filter.Unary) (turns : Nat) : Outputs :=
      callUnary { c with budget := turns } v (fun x => (f x).tree turns) b
    calls .recurse = traversal f v ∧ calls .repeat = traversal f v) ∧
    Gives (traversal .children v) (v.depthFirst.map .ok) ∧
    Gives (fun turns => eval .recurseAll { c with budget := turns } v) (v.depthFirst.map .ok) ∧
    Gives (fun turns =>
      eval (.call "recurse" [] span) { c with budget := turns, definitions := [] } v)
      (v.depthFirst.map .ok) ∧
    v.depthFirst.map some = v.addresses.map v.nodeAt? ∧
    v.addresses.Pairwise (· < ·) ∧
    (∀ address, address ∈ v.addresses ↔ (v.nodeAt? address).isSome) ∧
    v.depthFirst.length = {address | (v.nodeAt? address).isSome}.ncard := by
  have hwalk := recurseWith_walks stepsInside_children v
  have hcall (turns : Nat) :
      eval (.call "recurse" [] span) { c with budget := turns, definitions := [] } v =
        .guarded fun _ => .recurseWith turns (fun v => .ofList v.children) v :=
    eval_nullary (c := { c with budget := turns, definitions := [] }) (b := .recurse) rfl (by decide) span v
  refine ⟨traversal_sameResults_preorder f v, traversal_sameResults_unfolded f v, ⟨rfl, rfl⟩, hwalk,
    hwalk.guarded, ?_, v.depthFirst_eq_nodes, v.addresses_ascending, fun _ => Value.mem_addresses_iff,
    v.length_depthFirst⟩
  simp only [hcall]
  exact hwalk.guarded

/-- Steps that are endless, with an error in front, and steps that end: behind the endless one nothing is
seen of the last value. -/
example :
    let f : Value → ResultStream
      | .array _ => .ofTree (.ofList [.null, .string "behind"]) rfl
      | .null => .endless fun place => if place = 0 then .error (.raised .null) else .ok (.bool true)
      | .bool true => .ofTree (.single (.bool false)) rfl
      | _ => .ofTree .done rfl
    ((traversal f (.array []) 11).transcript .unlimited).results =
      [.ok (.array []), .ok .null, .error (.raised .null), .ok (.bool true), .ok (.bool false),
        .ok (.bool true), .ok (.bool false)] := rfl

end Eval
end JsonFilter
