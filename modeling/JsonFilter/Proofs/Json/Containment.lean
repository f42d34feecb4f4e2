import JsonFilter.Json.Containment
import JsonFilter.Proofs.Json.Order
import Mathlib.Data.List.Infix

/-!
# Containment is a preorder

Containment goes down two values at once, and each kind of value has a quantifier of its own: every member
of the part stands under its key in the container, every item of the part is in some item of the container,
and a string stands somewhere in the other one.  Scalars, and values of two kinds, are handed to the order of
values.  Two steps in a row can be joined only if both are of one kind, so this is told first.

* `Holds` — the ways in which one value contains another, one for each kind.
* **`contains_iff_holds`** — there is no other way.
* **`contains_of_same`** — a value contains every value of its shape.
* **`contains_trans`** — what the part contains is in the container.
* **`containment_is_a_preorder`** — the laws together: equal values cannot be told apart by what they contain
  and by what contains them.
-/

namespace JsonFilter.Json

/-- A text occurs in another one if it is a stretch of it. -/
theorem occursIn_iff_isInfix {part text : List Char} : Text.occursIn part text = true ↔ part <:+: text := by
  induction text with
  | nil => rw [Text.occursIn, List.isEmpty_iff, List.infix_nil]
  | cons c text ih =>
    rw [Text.occursIn, Bool.or_eq_true, List.isPrefixOf_iff_prefix, ih, List.infix_cons_iff]

namespace Value

variable {a a' b b' c : Value}

/-- Whether a value is null, a truth value or a number. -/
def isScalar : Value → Bool
  | .null | .bool _ | .number _ => true
  | _ => false

/-- The ways in which the first value contains the second one. -/
inductive Holds : Value → Value → Prop
  | object {found wanted : List (String × Value)} :
    (∀ key w, (key, w) ∈ wanted → ∃ v, Members.get? found key = some v ∧ v.contains w = true) →
      Holds (.object found) (.object wanted)
  | array {found wanted : List Value} :
    (∀ w ∈ wanted, ∃ v ∈ found, v.contains w = true) → Holds (.array found) (.array wanted)
  | string {found wanted : String} : wanted.toList <:+: found.toList → Holds (.string found) (.string wanted)
  | scalar {a b : Value} : a.isScalar = true → a.compare b = .eq → Holds a b

/-! ### The ways to contain -/

/-- Members are contained one by one. -/
theorem membersIn_iff {wanted found : List (String × Value)} :
    membersIn wanted found = true ↔
      ∀ key w, (key, w) ∈ wanted → ∃ v, Members.get? found key = some v ∧ v.contains w = true := by
  induction wanted with
  | nil => simp [membersIn]
  | cons m rest ih =>
    obtain ⟨k, w⟩ := m
    have hhead : membersIn ((k, w) :: rest) found = true ↔
        (∃ v, Members.get? found k = some v ∧ v.contains w = true) ∧ membersIn rest found = true := by
      rw [membersIn, Bool.and_eq_true]
      cases Members.get? found k with
      | none => simp
      | some v => simp [contains]
    rw [hhead, ih]
    constructor
    · rintro ⟨hfirst, hothers⟩ key u hu
      rcases List.mem_cons.1 hu with heq | hu
      · cases heq
        exact hfirst
      · exact hothers key u hu
    · exact fun h => ⟨h k w List.mem_cons_self, fun key u hu => h key u (List.mem_cons_of_mem _ hu)⟩

/-- Items are contained one by one. -/
theorem itemsIn_iff {wanted found : List Value} :
    itemsIn wanted found = true ↔ ∀ w ∈ wanted, ∃ v ∈ found, v.contains w = true := by
  induction wanted with
  | nil => exact ⟨fun _ => nofun, fun _ => rfl⟩
  | cons w rest ih =>
    rw [itemsIn, Bool.and_eq_true, List.any_eq_true, ih, List.forall_mem_cons]
    rfl

/-- Values that are equal in the order are of one kind. -/
theorem rank_eq_of_compare (h : a.compare b = .eq) : a.rank = b.rank := (compare_eq_iff.1 h).1

theorem isScalar_of_rank_eq (h : a.rank = b.rank) : a.isScalar = b.isScalar := by
  have hscalar (v : Value) : v.isScalar = decide (v.rank < 4) := by
    cases v with
    | bool b => cases b <;> rfl
    | _ => rfl
  rw [hscalar, hscalar, h]

/-- **A value contains another in one of these ways.** -/
theorem contains_iff_holds : a.contains b = true ↔ Holds a b := by
  -- what is no pair of objects, arrays or strings is compared
  have hcompared (hkinds : a.rank = b.rank → a.isScalar = true)
      (hcontains : a.contains b = (a.compare b == .eq)) : a.contains b = true ↔ Holds a b := by
    rw [hcontains, beq_iff_eq]
    constructor
    · exact fun h => .scalar (hkinds (rank_eq_of_compare h)) h
    · intro h
      cases h with
      | object => cases hkinds rfl
      | array => cases hkinds rfl
      | string => cases hkinds rfl
      | scalar _ h => exact h
  cases a with
  | null => exact hcompared (fun _ => rfl) (by cases b <;> rfl)
  | bool p => exact hcompared (fun _ => rfl) (by cases b <;> rfl)
  | number n => exact hcompared (fun _ => rfl) (by cases b <;> rfl)
  | string s =>
    cases b with
    | string t =>
      show Text.occursIn t.toList s.toList = true ↔ _
      rw [occursIn_iff_isInfix]
      exact ⟨.string, fun h => by cases h with | string h => exact h | scalar h => cases h⟩
    | bool q => exact hcompared (by cases q <;> exact nofun) rfl
    | _ => exact hcompared nofun rfl
  | array found =>
    cases b with
    | array wanted =>
      show itemsIn wanted found = true ↔ _
      rw [itemsIn_iff]
      exact ⟨.array, fun h => by cases h with | array h => exact h | scalar h => cases h⟩
    | bool q => exact hcompared (by cases q <;> exact nofun) rfl
    | _ => exact hcompared nofun rfl
  | object found =>
    cases b with
    | object wanted =>
      show membersIn wanted found = true ↔ _
      rw [membersIn_iff]
      exact ⟨.object, fun h => by cases h with | object h => exact h | scalar h => cases h⟩
    | bool q => exact hcompared (by cases q <;> exact nofun) rfl
    | _ => exact hcompared nofun rfl

/-! ### The laws -/

/-- **A value contains every value of its shape,** whatever the order of the keys and the form of the
numbers. -/
theorem contains_of_same (h : a.Same b) (ha : a.Proper) (hb : b.Proper) : a.contains b = true := by
  induction h with
  | null => rfl
  | bool p => cases p <;> rfl
  | number hvalue =>
    exact contains_iff_holds.2 (.scalar rfl (compare_eq_iff.2 ⟨rfl, hvalue, rfl, rfl, .nil⟩))
  | string s => exact contains_iff_holds.2 (.string List.infix_rfl)
  | array hlength _ ih =>
    refine contains_iff_holds.2 (.array fun w hw => ?_)
    obtain ⟨i, hi, hwi⟩ := List.mem_iff_getElem.1 hw
    have hv := List.getElem?_eq_getElem (hlength ▸ hi)
    refine ⟨_, List.mem_of_getElem? hv, ?_⟩
    exact ih i _ w hv (by rw [List.getElem?_eq_getElem hi, hwi]) (ha.child (List.mem_of_getElem? hv))
      (hb.child hw)
  | @object found wanted hkeys _ ih =>
    refine contains_iff_holds.2 (.object fun key w hw => ?_)
    -- the key stands in both, and names what stands beside it
    have hwanted : Members.get? wanted key = some w := (Members.get?_eq_some_iff hb.self).2 hw
    cases hfound : Members.get? found key with
    | none => exact absurd ((hkeys key).2 (Members.mem_keys_of_mem hw)) (Members.get?_eq_none_iff.1 hfound)
    | some v =>
      have hv := Members.mem_of_get?_eq_some hfound
      exact ⟨v, rfl, ih key v w hfound hwanted (ha.member hv) (hb.member hw)⟩

/-- **What the part contains is in the container.** -/
theorem contains_trans (hab : a.contains b = true) (hbc : b.contains c = true) : a.contains c = true := by
  induction a using Value.induction generalizing b c with
  | step a ih =>
    have hlower := contains_iff_holds.1 hbc
    cases contains_iff_holds.1 hab with
    | @object found between hfound =>
      cases hlower with
      | scalar hscalar => cases hscalar
      | object hwanted =>
        refine contains_iff_holds.2 (.object fun key w hw => ?_)
        obtain ⟨u, hu, huw⟩ := hwanted key w hw
        obtain ⟨v, hv, hvu⟩ := hfound key u (Members.mem_of_get?_eq_some hu)
        exact ⟨v, hv, ih v (Members.mem_values_of_mem (Members.mem_of_get?_eq_some hv)) hvu huw⟩
    | @array found between hfound =>
      cases hlower with
      | scalar hscalar => cases hscalar
      | array hwanted =>
        refine contains_iff_holds.2 (.array fun w hw => ?_)
        obtain ⟨u, hu, huw⟩ := hwanted w hw
        obtain ⟨v, hv, hvu⟩ := hfound u hu
        exact ⟨v, hv, ih v hv hvu huw⟩
    | string hfound =>
      cases hlower with
      | scalar hscalar => cases hscalar
      | string hwanted => exact contains_iff_holds.2 (.string (hwanted.trans hfound))
    | scalar hscalar hequal =>
      have hscalar' := (isScalar_of_rank_eq (rank_eq_of_compare hequal)).symm.trans hscalar
      cases hlower with
      | object => cases hscalar'
      | array => cases hscalar'
      | string => cases hscalar'
      | scalar _ hequal' =>
        exact contains_iff_holds.2 (.scalar hscalar (((compare_lawfulAt a).chains b c).eq hequal ▸ hequal'))

/-- Equal values contain one another. -/
theorem contains_of_equals (ha : a.Proper) (hb : b.Proper) (h : a.equals b = true) :
    a.contains b = true ∧ b.contains a = true := by
  have hequal : a.compare b = .eq := beq_iff_eq.1 h
  have hequal' : b.compare a = .eq := by rw [(compare_lawfulAt a).swap b, hequal]; rfl
  exact ⟨contains_of_same ((compare_eq_iff_same ha hb).1 hequal) ha hb,
    contains_of_same ((compare_eq_iff_same hb ha).1 hequal') hb ha⟩

/-- **Containment is a preorder above equality.**  Every value contains itself, two steps make one, equal values
contain one another, and containment between two values stays when both are replaced by equal ones. -/
theorem containment_is_a_preorder (ha : a.Proper) (ha' : a'.Proper) (hb : b.Proper) (hb' : b'.Proper)
    (c : Value) :
    a.contains a = true ∧
    (a.contains b = true → b.contains c = true → a.contains c = true) ∧
    (a.equals b = true → a.contains b = true) ∧
    (a.equals a' = true → b.equals b' = true → a.contains b = a'.contains b') := by
  have hself : a.equals a = true := beq_iff_eq.2 (compare_lawfulAt a).refl
  refine ⟨(contains_of_equals ha ha hself).1, contains_trans, fun h => (contains_of_equals ha hb h).1,
    fun hequal hequal' => Bool.eq_iff_iff.2 ⟨fun h => ?_, fun h => ?_⟩⟩
  · exact contains_trans (contains_of_equals ha ha' hequal).2 (contains_trans h (contains_of_equals hb hb' hequal').1)
  · exact contains_trans (contains_of_equals ha ha' hequal).1 (contains_trans h (contains_of_equals hb hb' hequal').2)

/-- Two objects that differ in the order of their keys and in the form of a number contain the same parts, a string
of an array inside among them. -/
theorem containment_is_a_preorder_reordered :
    let one : Value := .number (.float ⟨false, twoTo 52, -52⟩)
    let a : Value := .object [("n", .ofNat 1), ("s", .array [.null, .string "abc"])]
    let a' : Value := .object [("s", .array [.null, .string "abc"]), ("n", one)]
    let b : Value := .object [("n", one), ("s", .array [.string "bc"])]
    let b' : Value := .object [("s", .array [.string "bc"]), ("n", .ofNat 1)]
    let c : Value := .object [("s", .array [.string "c", .string "b"])]
    a.Proper ∧ a'.Proper ∧ b.Proper ∧ b'.Proper ∧ a.equals a' = true ∧ b.equals b' = true ∧
      a.contains b = true ∧ b.contains c = true ∧ a.contains c = true ∧ a'.contains b' = true := by
  intro one a a' b b' c
  have hnumber (n : Number) : Proper (.number n) := .intro trivial nofun
  have hstring (s : String) : Proper (.string s) := .intro trivial nofun
  have hnull : Proper .null := .intro trivial nofun
  have hitems : Proper (.array [.null, .string "abc"]) := .array ⟨hnull, hstring _⟩
  have hitem : Proper (.array [.string "bc"]) := .array (hstring _)
  have ha : a.Proper := .object (by decide) ⟨hnumber _, hitems⟩
  have ha' : a'.Proper := .object (by decide) ⟨hitems, hnumber _⟩
  have hb : b.Proper := .object (by decide) ⟨hnumber _, hitem⟩
  have hb' : b'.Proper := .object (by decide) ⟨hitem, hnumber _⟩
  have hone : Same (.ofNat 1) one := .number (congrArg Binary64.value (by decide))
  have hone' : Same one (.ofNat 1) := .number (congrArg Binary64.value (by decide))
  have hself {v : Value} (hv : v.Proper) : v.Same v := (compare_eq_iff_same hv hv).1 (compare_lawfulAt v).refl
  have hswapped {n n' s s' : Value} (hn : n.Same n') (hs : s.Same s') :
      Same (.object [("n", n), ("s", s)]) (.object [("s", s'), ("n", n')]) := by
    refine .object (by simp [Members.keys, or_comm]) fun key v w hv hw => ?_
    rcases List.mem_cons.1 (Members.mem_of_get?_eq_some hv) with heq | heq
    · cases heq
      cases hw
      exact hn
    · cases List.mem_singleton.1 heq
      cases hw
      exact hs
  have hequal : a.equals a' = true := beq_iff_eq.2 ((compare_eq_iff_same ha ha').2 (hswapped hone (hself hitems)))
  have hequal' : b.equals b' = true := beq_iff_eq.2 ((compare_eq_iff_same hb hb').2 (hswapped hone' (hself hitem)))
  have hab : a.contains b = true := rfl
  have hbc : b.contains c = true := rfl
  obtain ⟨-, htrans, -, hcongr⟩ := containment_is_a_preorder ha ha' hb hb' c
  exact ⟨ha, ha', hb, hb', hequal, hequal', hab, hbc, htrans hab hbc, (hcongr hequal hequal').symm.trans hab⟩

end Value
end JsonFilter.Json
