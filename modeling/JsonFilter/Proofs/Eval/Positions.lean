import JsonFilter.Proofs.Eval.Counting
import JsonFilter.Proofs.Eval.Showing
import JsonFilter.Proofs.Numeric.Floors

/-!
# Positions in arrays and strings

A number in brackets is rounded down and taken as a signed integer of 64 bits, and a negative one counts from
the end.  An index asks for the item at that place; a slice cuts there, at the nearest place within the array
or the string.

* `Number.position` — the integer that a number means as a position.
* `place?`, `cut` — the place of an index among some items, and where a slice cuts.
* `between` — the items from one cut to another.
* **`one_position_rule`** — slices and indices by these, and the range of everything on the way.
-/

namespace JsonFilter

open Json

/-! ### Positions -/

namespace Json.Number

/-- The numbers of JSON texts: integers of 64 bits, and finite binary64 numbers. -/
def OfText : Number → Prop
  | .integer i => Eval.IsWord i
  | .float x => x.Representable

/-- What a number stands for as it is written. -/
def value : Number → ℚ
  | .integer i => i
  | .float x => x.value

/-- What the binary64 number nearest to a number is rounded down to. -/
def floor : Number → Int
  | .integer i => nearest i
  | .float x => ⌊x.value⌋

/-- The position that a number means: rounded down and kept within 64 bits. -/
def position (p : Number) : Int := saturate p.floor

/-- **The position of a number** is what the evaluation makes of it. -/
theorem toInt64_floor {p : Number} (hp : p.OfText) : p.toBinary64.floor.toInt64 = p.position := by
  cases p with
  | integer i =>
    obtain ⟨x, hx, hvalue⟩ := hp.exists_ofInt
    show (Binary64.ofInt i).floor.toInt64 = saturate (nearest i)
    rw [hx, Binary64.floor, (Finite64.isIntegral_of_value hvalue).1, if_pos rfl,
      Binary64.toIntClamped_finite, Finite64.toInt_of_value hvalue]
  | float x => exact Binary64.toInt64_floor hp.1

end Json.Number

/-- A position among some items, a negative one counted from the end. -/
def fromEnd (length : Nat) (position : Int) : Int := if position < 0 then position + length else position

/-- The place of an item, if there is one at the position. -/
def place? (length : Nat) (position : Int) : Option Nat :=
  if 0 ≤ fromEnd length position ∧ fromEnd length position < length then
    some (fromEnd length position).toNat
  else none

/-- The place where a slice cuts at a position. -/
def cut (length : Nat) (position : Int) : Nat := (max 0 (min (length : Int) (fromEnd length position))).toNat

/-- Where a slice cuts at a bound that may be missing. -/
def cutAt (length absent : Nat) : Option Number → Nat
  | none => absent
  | some p => cut length p.position

/-- A bound as a value; null stands for a missing one. -/
def boundValue : Option Number → Value
  | none => .null
  | some p => .number p

/-- The items at the places from one cut up to another. -/
def between {α : Type} (first last : Nat) (items : List α) : List α :=
  (items.zipIdx.filter fun item => first ≤ item.2 ∧ item.2 < last).map Prod.fst

theorem cut_le (length : Nat) (position : Int) : cut length position ≤ length := by
  unfold cut
  omega

theorem cutAt_le {length absent : Nat} (h : absent ≤ length) (bound : Option Number) :
    cutAt length absent bound ≤ length := by
  cases bound with
  | none => exact h
  | some p => exact cut_le length p.position

/-! ### What is cut out -/

/-- The places are counted from any number on. -/
theorem zipIdx_filter {α : Type} (items : List α) (first last start : Nat) :
    ((items.zipIdx start).filter fun item => first ≤ item.2 ∧ item.2 < last).map Prod.fst =
      (items.drop (first - start)).take (last - max first start) := by
  induction items generalizing start with
  | nil => simp
  | cons x items ih =>
    rw [List.zipIdx_cons]
    by_cases hinside : first ≤ start ∧ start < last
    · obtain ⟨n, hn⟩ : ∃ n, last - max first start = n + 1 := ⟨last - max first start - 1, by omega⟩
      have hrest : last - max first (start + 1) = n := by omega
      have hbehind : first - (start + 1) = 0 := by omega
      rw [List.filter_cons_of_pos (by simpa using hinside), List.map_cons, ih, hn, hrest, hbehind,
        Nat.sub_eq_zero_of_le hinside.1]
      rfl
    · rw [List.filter_cons_of_neg (by simpa using hinside), ih]
      rcases Nat.lt_or_ge start first with hbefore | hbehind
      · obtain ⟨n, hn⟩ : ∃ n, first - start = n + 1 := ⟨first - start - 1, by omega⟩
        have hrest : first - (start + 1) = n := by omega
        rw [hn, hrest, List.drop_succ_cons, max_eq_left hbefore.le, max_eq_left hbefore]
      · have hnone : last - max first start = 0 := by omega
        have hnone' : last - max first (start + 1) = 0 := by omega
        rw [hnone, hnone', List.take_zero, List.take_zero]

theorem drop_take_eq_between {α : Type} (items : List α) (first last : Nat) :
    (items.drop first).take (last - first) = between first last items := by
  rw [between, zipIdx_filter, Nat.sub_zero, Nat.max_zero]

/-- What lies before a cut and what lies behind it make up the whole. -/
theorem between_append_between {α : Type} (items : List α) (place : Nat) :
    between 0 place items ++ between place items.length items = items := by
  rw [← drop_take_eq_between, ← drop_take_eq_between, ← List.length_drop, List.take_length]
  exact List.take_append_drop place items

namespace Json.Value

/-- The place of a position, before it is kept within the items. -/
theorem resolvePosition_eq {p : Number} (hp : p.OfText) (length : Nat) :
    resolvePosition p.toBinary64 length =
      if fromEnd length p.position < 0 then none else some (fromEnd length p.position).toNat := by
  simp only [resolvePosition, Number.toInt64_floor hp, fromEnd, Int.add_comm]

/-- **Bounds cut** at their positions. -/
theorem sliceBound_eq {bound : Option Number} (hbound : ∀ p ∈ bound, p.OfText) (absent length : Nat) :
    sliceBound (boundValue bound) absent length = .ok (cutAt length absent bound) := by
  cases bound with
  | none => rfl
  | some p =>
    show Except.ok _ = _
    rw [resolvePosition_eq (hbound p rfl)]
    refine congrArg Except.ok ?_
    show _ = cut length p.position
    unfold cut
    split_ifs with hbefore
    · simp only [Option.getD_none]
      omega
    · simp only [Option.getD_some]
      omega

section

variable {a b : Option Number} (ha : ∀ p ∈ a, p.OfText) (hb : ∀ p ∈ b, p.OfText)
include ha hb

theorem sliceItems_eq {α : Type} (items : List α) :
    sliceItems items (boundValue a) (boundValue b) =
      .ok (between (cutAt items.length 0 a) (cutAt items.length items.length b) items) := by
  rw [sliceItems, sliceBound_eq ha, sliceBound_eq hb, ← drop_take_eq_between]
  rfl

theorem slice_array (items : List Value) :
    slice (.array items) (boundValue a) (boundValue b) =
      .ok (.array (between (cutAt items.length 0 a) (cutAt items.length items.length b) items)) := by
  rw [slice, sliceItems_eq ha hb]
  rfl

theorem slice_string (text : String) :
    slice (.string text) (boundValue a) (boundValue b) =
      .ok (.string (.ofList (between (cutAt text.length 0 a) (cutAt text.length text.length b)
        text.toList))) := by
  rw [slice, sliceItems_eq ha hb, String.length_toList]
  rfl

end

theorem index_array {p : Number} (hp : p.OfText) (items : List Value) :
    index (.array items) (.number p) =
      .ok (((place? items.length p.position).bind (items[·]?)).getD .null) := by
  rw [index, resolvePosition_eq hp]
  refine congrArg (fun item => Except.ok (Option.getD item Value.null)) ?_
  unfold place?
  split_ifs with hbefore hinside hinside
  · omega
  · rfl
  · rfl
  · -- Behind the last place there is no item.
    rw [Option.bind_some, Option.bind_none, List.getElem?_eq_none_iff]
    omega

end Json.Value

/-! ### Rounding and range -/

/-- Positions beyond the same end are as good as one another. -/
theorem congr_of_beyond {length : Nat} {i j : Int}
    (h : i = j ∨ ((length : Int) ≤ i ∧ (length : Int) ≤ j) ∨ (i < -length ∧ j < -length)) :
    cut length i = cut length j ∧ place? length i = place? length j := by
  rcases h with rfl | ⟨hi, hj⟩ | ⟨hi, hj⟩
  · exact ⟨rfl, rfl⟩
  · have hi' : fromEnd length i = i := if_neg (by omega)
    have hj' : fromEnd length j = j := if_neg (by omega)
    rw [cut, cut, place?, place?, hi', hj', if_neg (by omega), if_neg (by omega)]
    exact ⟨by omega, rfl⟩
  · have hi' : fromEnd length i = i + length := if_pos (by omega)
    have hj' : fromEnd length j = j + length := if_pos (by omega)
    rw [cut, cut, place?, place?, hi', hj', if_neg (by omega), if_neg (by omega)]
    exact ⟨by omega, rfl⟩

/-- Only beyond `2 ^ 53` does a number mean another position than it says. -/
theorem Json.Number.position_near (p : Number) : p.position = ⌊p.value⌋ ∨
    (2 ^ 53 ≤ p.position ∧ 2 ^ 53 ≤ ⌊p.value⌋) ∨ (p.position ≤ -2 ^ 53 ∧ ⌊p.value⌋ ≤ -2 ^ 53) := by
  have hfloor : p.floor = ⌊p.value⌋ ∨ (2 ^ 53 ≤ p.floor ∧ 2 ^ 53 ≤ ⌊p.value⌋) ∨
      (p.floor ≤ -2 ^ 53 ∧ ⌊p.value⌋ ≤ -2 ^ 53) := by
    cases p with
    | float x => exact .inl rfl
    | integer i =>
      have hvalue : ⌊(Number.integer i).value⌋ = i := Int.floor_intCast i
      rw [hvalue, Number.floor]
      rcases lt_or_ge i (-2 ^ 53) with hlow | hlow
      · have hkept := nearest_mono hlow.le
        rw [nearest_of_le le_rfl (by decide)] at hkept
        exact .inr (.inr ⟨hkept, hlow.le⟩)
      · rcases lt_or_ge (2 ^ 53) i with hhigh | hhigh
        · have hkept := nearest_mono hhigh.le
          rw [nearest_of_le (by decide) le_rfl] at hkept
          exact .inr (.inl ⟨hkept, hhigh.le⟩)
        · exact .inl (nearest_of_le hlow hhigh)
  unfold Number.position saturate
  omega

/-- Below `2 ^ 53` items there is no difference between the number that is written and the nearest binary64
number, nor between its floor and an integer of 64 bits. -/
theorem position_exact (p : Number) {length : Nat} (h : length < 2 ^ 53) :
    cut length p.position = cut length ⌊p.value⌋ ∧ place? length p.position = place? length ⌊p.value⌋ := by
  refine congr_of_beyond ?_
  have hnear := p.position_near
  omega

/-- Within 64 bits nothing overflows on the way to a place. -/
theorem position_bounds (p : Number) {length : Nat} (h : length < 2 ^ 63) :
    (-2 ^ 63 ≤ p.position ∧ p.position < 2 ^ 63) ∧
      (p.position < 0 → -2 ^ 63 ≤ length + p.position ∧ length + p.position < 2 ^ 63) := by
  unfold Number.position saturate
  omega

/-! ### Slices of a filter -/

namespace Eval

open JsonFilter.Filter

/-- What a slice leaves out on one side of a position is what it leaves out on the other. -/
theorem slice_add_slice {p : Number} (hp : p.OfText) {x : Value} {items : List Value} {text : String}
    (hx : x = .array items ∨ x = .string text) :
    ∃ before behind, x.slice .null (.number p) = .ok before ∧ x.slice (.number p) .null = .ok behind ∧
      before.add behind = .ok x := by
  have hnone : ∀ q ∈ (none : Option Number), q.OfText := fun q hq => absurd hq (Option.not_mem_none q)
  have hsome : ∀ q ∈ some p, q.OfText := fun q hq => Option.mem_some.1 hq ▸ hp
  rcases hx with rfl | rfl
  · refine ⟨_, _, Value.slice_array hnone hsome items, Value.slice_array hsome hnone items, ?_⟩
    exact congrArg (fun whole => Except.ok (Value.array whole))
      (between_append_between items (cut items.length p.position))
  · refine ⟨_, _, Value.slice_string hnone hsome text, Value.slice_string hsome hnone text, ?_⟩
    have hwhole := between_append_between text.toList (cut text.length p.position)
    rw [String.length_toList] at hwhole
    refine congrArg (fun whole => Except.ok (Value.string whole)) ?_
    exact String.ofList_append.symm.trans ((congrArg String.ofList hwhole).trans String.ofList_toList)

/-- `.[:k] + .[k:]`. -/
def slicesAt (k : Expr) : Expr :=
  .binary .add (.slice .identity none (some k)) (.slice .identity (some k) none)

theorem slicesAt_gives {p : Number} (hp : p.OfText) {x : Value} {items : List Value} {text : String}
    (hx : x = .array items ∨ x = .string text) {k : Expr} {c : Context}
    (hk : (eval k c x).Gives [.number p]) : (eval (slicesAt k) c x).Gives [x] := by
  obtain ⟨before, behind, hbefore, hbehind, hsum⟩ := slice_add_slice hp hx
  have hkshown : (eval k c x).shown = .one (.ok (.number p)) := hk.shown
  have hleft : (eval (.slice .identity none (some k)) c x).shown = .one (.ok before) := by
    simp only [eval, evalMaybe, Outputs.shown_guarded, Outputs.shown_bind, Outputs.shown_mapOutcome,
      Outputs.shown_single, Showing.one_bind, hkshown, hbefore, resultOf]
  have hright : (eval (.slice .identity (some k) none) c x).shown = .one (.ok behind) := by
    simp only [eval, evalMaybe, Outputs.shown_guarded, Outputs.shown_bind, Outputs.shown_mapOutcome,
      Outputs.shown_single, Showing.one_bind, hkshown, hbehind, resultOf]
  refine .of_shown ?_
  rw [slicesAt, shown_plus, hright, Showing.one_bind, hleft, Showing.one_bind, hsum]
  rfl

/-- **One rule for positions.**  A slice of an array or a string is made of the items at the places from the
cut of its first bound up to the cut of its second one, and null cuts at the ends; an object with the two
bounds as an index is the slice.  So the slices up to a position and from there on make up the whole,
whatever filter gives the position.  A number as an index of an array picks the item at its place, or null
if it has none.

Neither a position nor its sum with a length leaves the 64 bits that a length fits in, the cuts are within the
length, and below `2 ^ 53` items they are those of the exact number that is written. -/
theorem one_position_rule {p : Number} (hp : p.OfText) {a b : Option Number} (ha : ∀ q ∈ a, q.OfText)
    (hb : ∀ q ∈ b, q.OfText) (items : List Value) (text : String) :
    Value.slice (.array items) (boundValue a) (boundValue b) =
        .ok (.array (between (cutAt items.length 0 a) (cutAt items.length items.length b) items)) ∧
      Value.slice (.string text) (boundValue a) (boundValue b) =
        .ok (.string (.ofList (between (cutAt text.length 0 a) (cutAt text.length text.length b)
          text.toList))) ∧
      (∀ x : Value, x = .array items ∨ x = .string text → ∀ bounds : Members Value,
        x.index (.object bounds) =
          x.slice ((bounds.get? "start").getD .null) ((bounds.get? "end").getD .null)) ∧
      (∀ x : Value, x = .array items ∨ x = .string text → ∀ (k : Expr) (c : Context),
        (eval k c x).Gives [.number p] → (eval (slicesAt k) c x).Gives [x]) ∧
      Value.index (.array items) (.number p) =
        .ok (((place? items.length p.position).bind (items[·]?)).getD .null) ∧
      (∀ length : Nat, length < 2 ^ 63 →
        let floor := p.toBinary64.floor.toInt64
        (-2 ^ 63 ≤ floor ∧ floor < 2 ^ 63) ∧
          (floor < 0 → -2 ^ 63 ≤ length + floor ∧ length + floor < 2 ^ 63)) ∧
      (∀ length : Nat, ∃ first last, Value.sliceBound (boundValue a) 0 length = .ok first ∧
        Value.sliceBound (boundValue b) length length = .ok last ∧ first ≤ length ∧ last ≤ length) ∧
      ∀ length : Nat, length < 2 ^ 53 → cut length p.position = cut length ⌊p.value⌋ ∧
        place? length p.position = place? length ⌊p.value⌋ := by
  refine ⟨Value.slice_array ha hb items, Value.slice_string ha hb text, ?_,
    fun x hx k c hk => slicesAt_gives hp hx hk, Value.index_array hp items, fun length hlength => ?_,
    fun length => ?_, fun length hlength => position_exact p hlength⟩
  · rintro x (rfl | rfl) bounds <;> rfl
  · rw [Number.toInt64_floor hp]
    exact position_bounds p hlength
  · exact ⟨_, _, Value.sliceBound_eq ha 0 length, Value.sliceBound_eq hb length length,
      cutAt_le (Nat.zero_le _) a, cutAt_le le_rfl b⟩

/-- `-1.5` is the second place from the end. -/
theorem one_position_rule_fraction :
    let x : Finite64 := ⟨true, 3, -1⟩
    let p : Number := .float x
    let items : List Value := [.null, .bool true, .string "c"]
    p.OfText ∧ (∀ q ∈ some p, q.OfText) ∧ (∀ q ∈ (none : Option Number), q.OfText) ∧ p.position = -2 ∧
      Value.slice (.array items) (.number p) .null = .ok (.array [.bool true, .string "c"]) ∧
      Value.slice (.string "aé😀") (.number p) .null = .ok (.string "é😀") ∧
      (eval (.literal (.number (.finite x))) (.empty .null 0) (.string "aé😀")).Gives [.number p] ∧
      (eval (slicesAt (.literal (.number (.finite x)))) (.empty .null 0) (.string "aé😀")).Gives
        [.string "aé😀"] ∧
      Value.index (.array items) (.number p) = .ok (.bool true) := by
  intro x p items
  have hp : p.OfText := by
    show x.Representable
    decide
  have hliteral : literalValue (.number (.finite x)) = .number p := by
    rw [literalValue, Value.ofBinary64, Value.ofFinite, show x.isIntegral = false by decide]
    rfl
  have hsome : ∀ q ∈ some p, q.OfText := fun q hq => Option.mem_some.1 hq ▸ hp
  have hnone : ∀ q ∈ (none : Option Number), q.OfText := fun q hq => absurd hq (Option.not_mem_none q)
  have hposition : p.position = -2 := by
    have hvalue : p.floor = ⌊(-3 / 2 : ℚ)⌋ := by
      show ⌊x.value⌋ = _
      norm_num [Finite64.value, Finite64.signedSignificand, x]
    rw [Number.position, hvalue]
    norm_num [saturate]
  have hk : (eval (.literal (.number (.finite x))) (.empty .null 0) (.string "aé😀")).Gives [.number p] :=
    hliteral ▸ Outputs.Gives.guarded (.single _)
  obtain ⟨harray, hstring, -, hwhole, hindex, -⟩ := one_position_rule hp hsome hnone items "aé😀"
  have hcut (length : Nat) : cutAt length 0 (some p) = cut length (-2) := by rw [cutAt, hposition]
  rw [hcut] at harray hstring
  rw [hposition] at hindex
  exact ⟨hp, hsome, hnone, hposition, harray, hstring, hk, hwhole _ (.inr rfl) _ _ hk, hindex⟩

end Eval

end JsonFilter
