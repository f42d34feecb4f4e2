import JsonFilter.Json.Order
import JsonFilter.Proofs.Json.Parts
import JsonFilter.Proofs.Numeric.Values

/-!
# The order of values is a total preorder

An order on a recursive type breaks where two of its levels meet: a comparison of arrays ends at the first
difference, one of objects runs through the keys of both before any value, and numbers of two kinds meet
in one rank.  Here the comparison is first written as one lexicographic product over all values
(`compare_eq_then`), with nothing of the other types in a factor that belongs to one type; the laws then
follow factor by factor, and for the values inside by induction.

## The laws

`LawfulAt cmp a` says what a comparison has to satisfy from `a` on: turned round it gives the reverse, and
of three values in a row the first and the last compare as the two steps between them have it (`Chains`).
Only the first of the three is fixed, which is why the induction can run on that one alone.

* **`compare_lawfulAt`** — the comparison of values satisfies them at every value.
* **`Value.Same`** and **`compare_eq_iff_same`** — which values are equal in the order: those of one
  shape, with numbers of one value, whatever the order of the keys.
* **`compare_is_a_total_preorder`** — both together.
-/

namespace JsonFilter.Json

variable {α β : Type}

/-! ### Lawful comparisons -/

/-- How the comparison of the first with the last follows from the two steps between. -/
structure Chains (ab bc ac : Ordering) : Prop where
  eq : ab = .eq → ac = bc
  lt : ab = .lt → bc ≠ .gt → ac = .lt
  gt : ab = .gt → bc ≠ .lt → ac = .gt

/-- Where the first comparison decides nothing, the second one is asked. -/
theorem Chains.then {ab bc ac ab' bc' ac' : Ordering} (h : Chains ab bc ac) (h' : Chains ab' bc' ac') :
    Chains (ab.then ab') (bc.then bc') (ac.then ac') := by
  cases ab with
  | lt =>
    refine ⟨nofun, fun _ hbc => ?_, nofun⟩
    have hstep : bc ≠ .gt := fun heq => hbc (by rw [heq]; rfl)
    rw [h.lt rfl hstep]
    rfl
  | gt =>
    refine ⟨nofun, nofun, fun _ hbc => ?_⟩
    have hstep : bc ≠ .lt := fun heq => hbc (by rw [heq]; rfl)
    rw [h.gt rfl hstep]
    rfl
  | eq =>
    rw [h.eq rfl]
    cases bc with
    | eq => exact h'
    | lt => exact ⟨fun _ => rfl, fun _ _ => rfl, fun _ hbc => absurd rfl hbc⟩
    | gt => exact ⟨fun _ => rfl, fun _ hbc => absurd rfl hbc, fun _ _ => rfl⟩

/-- A comparison behaves as one that starts at the value. -/
structure LawfulAt (cmp : α → α → Ordering) (a : α) : Prop where
  swap : ∀ b, cmp b a = (cmp a b).swap
  chains : ∀ b c, Chains (cmp a b) (cmp b c) (cmp a c)

namespace LawfulAt

variable {cmp : α → α → Ordering} {a : α}

theorem refl (h : LawfulAt cmp a) : cmp a a = .eq := by
  have hswap := h.swap a
  cases hself : cmp a a with
  | eq => rfl
  | lt =>
    rw [hself] at hswap
    cases hswap
  | gt =>
    rw [hself] at hswap
    cases hswap

/-- An order of the library is lawful everywhere. -/
theorem of_transCmp (cmp : α → α → Ordering) [Std.TransCmp cmp] (a : α) : LawfulAt cmp a where
  swap _ := Std.OrientedCmp.eq_swap
  chains _ _ :=
    { eq := fun hab => Std.TransCmp.congr_left hab
      lt := fun hab hbc => Std.TransCmp.lt_of_lt_of_isLE hab (Ordering.isLE_iff_ne_gt.2 hbc)
      gt := fun hab hbc => Std.TransCmp.gt_of_gt_of_isGE hab (Ordering.isGE_iff_ne_lt.2 hbc) }

/-- To compare by a feature is lawful where the comparison of the features is. -/
theorem on (f : β → α) {b : β} (h : LawfulAt cmp (f b)) : LawfulAt (fun x y => cmp (f x) (f y)) b where
  swap c := h.swap (f c)
  chains c d := h.chains (f c) (f d)

/-- Two lawful comparisons one after the other. -/
theorem andThen {cmp' : α → α → Ordering} (h : LawfulAt cmp a) (h' : LawfulAt cmp' a) :
    LawfulAt (fun x y => (cmp x y).then (cmp' x y)) a where
  swap b := by rw [h.swap b, h'.swap b, Ordering.swap_then]
  chains b c := (h.chains b c).then (h'.chains b c)

theorem swap_lists {as : List α} (h : ∀ a ∈ as, LawfulAt cmp a) (bs : List α) :
    compareLists cmp bs as = (compareLists cmp as bs).swap := by
  induction as generalizing bs with
  | nil => cases bs <;> rfl
  | cons a as ih =>
    cases bs with
    | nil => rfl
    | cons b bs =>
      rw [compareLists, compareLists, Ordering.swap_then, (h a (.head _)).swap b,
        ih (fun x hx => h x (.tail _ hx)) bs]

theorem chains_lists {as : List α} (h : ∀ a ∈ as, LawfulAt cmp a) (bs cs : List α) :
    Chains (compareLists cmp as bs) (compareLists cmp bs cs) (compareLists cmp as cs) := by
  induction as generalizing bs cs with
  | nil =>
    cases bs with
    | nil => exact ⟨fun _ => rfl, nofun, nofun⟩
    | cons b bs =>
      cases cs with
      | nil => exact ⟨nofun, fun _ hbc => absurd rfl hbc, nofun⟩
      | cons c cs => exact ⟨nofun, fun _ _ => rfl, nofun⟩
  | cons a as ih =>
    cases bs with
    | nil =>
      cases cs with
      | nil => exact ⟨nofun, nofun, fun _ _ => rfl⟩
      | cons c cs => exact ⟨nofun, nofun, fun _ hbc => absurd rfl hbc⟩
    | cons b bs =>
      cases cs with
      | nil => exact ⟨fun _ => rfl, fun _ hbc => absurd rfl hbc, fun _ _ => rfl⟩
      | cons c cs => exact ((h a (.head _)).chains b c).then (ih (fun x hx => h x (.tail _ hx)) bs cs)

/-- Lists compare lawfully if their items do. -/
theorem lists {as : List α} (h : ∀ a ∈ as, LawfulAt cmp a) : LawfulAt (compareLists cmp) as :=
  ⟨swap_lists h, chains_lists h⟩

end LawfulAt

/-- Two lists are equal in their order if they are equally long and agree place by place. -/
theorem compareLists_eq_iff {cmp : α → α → Ordering} {as bs : List α} :
    compareLists cmp as bs = .eq ↔ List.Forall₂ (fun a b => cmp a b = .eq) as bs := by
  induction as generalizing bs with
  | nil =>
    cases bs with
    | nil => exact ⟨fun _ => .nil, fun _ => rfl⟩
    | cons b bs => exact ⟨nofun, nofun⟩
  | cons a as ih =>
    cases bs with
    | nil => exact ⟨nofun, nofun⟩
    | cons b bs => rw [compareLists, Ordering.then_eq_eq, List.forall₂_cons, ih]

/-- Two lists are related place by place, their places counted. -/
theorem forall₂_iff_getElem? {R : α → α → Prop} {as bs : List α} :
    List.Forall₂ R as bs ↔
      as.length = bs.length ∧ ∀ (i : Nat) (a b : α), as[i]? = some a → bs[i]? = some b → R a b := by
  rw [List.forall₂_iff_get]
  refine and_congr_right fun _ => ⟨fun h i a b ha hb => ?_, fun h i hi hj => ?_⟩
  · obtain ⟨hi, rfl⟩ := List.getElem?_eq_some_iff.1 ha
    obtain ⟨hj, rfl⟩ := List.getElem?_eq_some_iff.1 hb
    exact h i hi hj
  · exact h i _ _ (List.getElem?_eq_getElem hi) (List.getElem?_eq_getElem hj)

/-! ### One product for all values -/

/-- The tests of the values, run on a list of as many others, compare the two lists. -/
theorem firstDifference_map {cmp : α → α → Ordering} {as bs : List α} (h : as.length = bs.length) :
    firstDifference (as.map cmp) bs = compareLists cmp as bs := by
  induction as generalizing bs with
  | nil =>
    obtain rfl : bs = [] := List.length_eq_zero_iff.1 h.symm
    rfl
  | cons a as ih =>
    cases bs with
    | nil => cases h
    | cons b bs =>
      rw [List.map_cons, firstDifference, compareLists, ih (Nat.succ.inj h)]

namespace Value

variable {a b : Value}

/-- The value of a number. -/
def numeral : Value → WithBot (WithTop ℚ)
  | .number n => n.toBinary64.value
  | _ => Binary64.zero.value

/-- The text of a string. -/
def text : Value → String
  | .string s => s
  | _ => ""

/-- The keys of an object, sorted. -/
def sortedKeys : Value → List String
  | .object members => Members.keys (Members.sortByKey members)
  | _ => []

/-- The items of an array, or what the keys of an object name, in the order of the sorted keys. -/
def contents : Value → List Value
  | .array items => items
  | .object members => Members.values (Members.sortByKey members)
  | _ => []

theorem mem_children_of_mem_contents {x : Value} (h : x ∈ a.contents) : x ∈ a.children := by
  cases a with
  | null | bool | number | string => cases h
  | array items => exact h
  | object members =>
    obtain ⟨m, hm, rfl⟩ := List.mem_map.1 h
    exact List.mem_map_of_mem (Members.mem_sortByKey.1 hm)

theorem compareItems_eq (as bs : List Value) : compareItems as bs = compareLists compare as bs := by
  induction as generalizing bs with
  | nil => cases bs <;> rfl
  | cons a as ih =>
    cases bs with
    | nil => rfl
    | cons b bs => rw [compareItems, compareLists, ih]

theorem memberTests_eq (ms : List (String × Value)) :
    memberTests ms = ms.map fun m => (m.1, compare m.2) := by
  induction ms with
  | nil => rfl
  | cons m ms ih => rw [memberTests, List.map_cons, ih]

/-- Numbers are never unordered. -/
theorem compare_number (m n : Number) :
    m.compare n = Ord.compare m.toBinary64.value n.toBinary64.value := by
  have hnumber : ∀ n : Number, n.toBinary64.isNaN = false
    | .integer i => Binary64.isNaN_ofInt i
    | .float _ => rfl
  rw [Number.compare, Binary64.compare?_eq (hnumber m) (hnumber n)]
  rfl

/-- Objects compare by their sorted keys and then by their values in the order of the keys.  The tests
that go through the values stop at the shorter list, but two lists of different lengths are told
apart by their keys. -/
theorem compare_object (ms ns : List (String × Value)) :
    compare (.object ms) (.object ns) =
      (compareLists Ord.compare (object ms).sortedKeys (object ns).sortedKeys).then
        (compareLists compare (object ms).contents (object ns).contents) := by
  let tests := Members.sortByKey (memberTests ms)
  have htests : tests = (Members.sortByKey ms).map fun m => (m.1, compare m.2) := by
    show Members.sortByKey (memberTests ms) = _
    rw [memberTests_eq, Members.sortByKey_map]
  have hkeys : Members.keys tests = (object ms).sortedKeys := by
    rw [htests]
    exact List.map_map ..
  have hvalues : Members.values tests = (object ms).contents.map compare := by
    rw [htests, contents, Members.values, Members.values, List.map_map, List.map_map]
    rfl
  have hcompare : compare (.object ms) (.object ns) =
      (compareLists Ord.compare (Members.keys tests) (object ns).sortedKeys).then
        (firstDifference (Members.values tests) (object ns).contents) := by
    rw [compare]
    rfl
  rw [hcompare, hkeys, hvalues]
  cases hagree : compareLists Ord.compare (object ms).sortedKeys (object ns).sortedKeys with
  | lt | gt => rfl
  | eq =>
    have hlength : (object ms).contents.length = (object ns).contents.length := by
      have hsame := (compareLists_eq_iff.1 hagree).length_eq
      simpa [sortedKeys, contents, Members.keys, Members.values] using hsame
    rw [firstDifference_map hlength]

/-- **The order as one product.**  Values compare by rank, value of a number, text, sorted keys and
contents, one after the other; what a value does not have is the same for all values of its rank. -/
theorem compare_eq_then (a b : Value) :
    a.compare b =
      (Ord.compare a.rank b.rank).then ((Ord.compare a.numeral b.numeral).then
        ((Ord.compare a.text b.text).then
          ((compareLists Ord.compare a.sortedKeys b.sortedKeys).then
            (compareLists compare a.contents b.contents)))) := by
  have hlists : ∀ {α : Type} (cmp : α → α → Ordering), compareLists cmp [] [] = .eq := fun _ => rfl
  have htie : ∀ o : Ordering, o.then .eq = o := fun o => by cases o <;> rfl
  cases a with
  | null =>
    cases b with
    | bool b => cases b <;> rfl
    | null => simp [compare, sortedKeys, contents, hlists]
    | _ => rfl
  | bool a =>
    cases b with
    | bool b => cases a <;> cases b <;> simp [compare, rank, numeral, text, sortedKeys, contents, hlists]
    | _ => cases a <;> rfl
  | number m =>
    cases b with
    | bool b => cases b <;> rfl
    | number n => simp [compare, rank, numeral, text, sortedKeys, contents, hlists, compare_number, htie]
    | _ => rfl
  | string s =>
    cases b with
    | bool b => cases b <;> rfl
    | string t => simp [compare, rank, numeral, text, sortedKeys, contents, hlists, htie]
    | _ => rfl
  | array as =>
    cases b with
    | bool b => cases b <;> rfl
    | array bs => simp [compare, rank, numeral, text, sortedKeys, contents, hlists, compareItems_eq]
    | _ => rfl
  | object ms =>
    cases b with
    | bool b => cases b <;> rfl
    | object ns => simp [compare_object, rank, numeral, text]
    | _ => rfl

/-! ### The laws -/

/-- **The comparison of values is lawful** at every value: each factor of the product is, the last one by
the induction. -/
theorem compare_lawfulAt (a : Value) : LawfulAt compare a := by
  induction a using Value.induction with
  | step a ih =>
    have hrank := (LawfulAt.of_transCmp Ord.compare a.rank).on rank
    have hnumeral := (LawfulAt.of_transCmp Ord.compare a.numeral).on numeral
    have htext := (LawfulAt.of_transCmp Ord.compare a.text).on text
    have hkeys := (LawfulAt.lists fun key _ => LawfulAt.of_transCmp Ord.compare key).on sortedKeys (b := a)
    have hcontents := (LawfulAt.lists fun x hx => ih x (mem_children_of_mem_contents hx)).on contents
    have hproduct := hrank.andThen (hnumeral.andThen (htext.andThen (hkeys.andThen hcontents)))
    rw [show (compare : Value → Value → Ordering) = _ from funext fun a => funext (compare_eq_then a)]
    exact hproduct

/-! ### Values that are equal in the order -/

/-- Two values of one shape: numbers of one value, strings and truth values that are the same, arrays of
one length that agree place by place, objects with the same keys whose values agree key by key. -/
inductive Same : Value → Value → Prop
  | null : Same .null .null
  | bool (b : Bool) : Same (.bool b) (.bool b)
  | number {m n : Number} : m.toBinary64.value = n.toBinary64.value → Same (.number m) (.number n)
  | string (s : String) : Same (.string s) (.string s)
  | array {as bs : List Value} : as.length = bs.length →
      (∀ (i : Nat) (a b : Value), as[i]? = some a → bs[i]? = some b → Same a b) →
      Same (.array as) (.array bs)
  | object {ms ns : List (String × Value)} :
      (∀ key, key ∈ Members.keys ms ↔ key ∈ Members.keys ns) →
      (∀ (key : String) (v w : Value), Members.get? ms key = some v → Members.get? ns key = some w →
        Same v w) →
      Same (.object ms) (.object ns)

/-- Equal in the order is to be equal in each factor of the product. -/
theorem compare_eq_iff : a.compare b = .eq ↔
    a.rank = b.rank ∧ a.numeral = b.numeral ∧ a.text = b.text ∧ a.sortedKeys = b.sortedKeys ∧
      List.Forall₂ (fun x y => x.compare y = .eq) a.contents b.contents := by
  rw [compare_eq_then]
  simp only [Ordering.then_eq_eq, compareLists_eq_iff, Std.LawfulEqOrd.compare_eq_iff_eq,
    List.forall₂_eq_eq_eq]

/-- The values of two objects agree key by key if they agree in the order of the sorted keys. -/
theorem same_members_iff {ms ns : List (String × Value)} (hm : Members.Distinct ms)
    (hn : Members.Distinct ns) {R : Value → Value → Prop} :
    (object ms).sortedKeys = (object ns).sortedKeys ∧
        List.Forall₂ R (object ms).contents (object ns).contents ↔
      (∀ key, key ∈ Members.keys ms ↔ key ∈ Members.keys ns) ∧
        ∀ key v w, Members.get? ms key = some v → Members.get? ns key = some w → R v w := by
  show Members.keys (Members.sortByKey ms) = Members.keys (Members.sortByKey ns) ∧
      List.Forall₂ R (Members.values (Members.sortByKey ms)) (Members.values (Members.sortByKey ns)) ↔ _
  rw [Members.keys_sortByKey_eq_iff hm hn]
  refine and_congr_right fun hsame => ?_
  rw [Members.forall₂_values_iff (Members.distinct_sortByKey.2 hm) (Members.distinct_sortByKey.2 hn)
    ((Members.keys_sortByKey_eq_iff hm hn).2 hsame)]
  simp only [Members.mem_sortByKey, Members.get?_eq_some_iff hm, Members.get?_eq_some_iff hn]

/-- **Equality in the order.**  Two values are equal in the order exactly if they are the same up to the
spelling of numbers and the order of keys. -/
theorem compare_eq_iff_same (ha : a.Proper) (hb : b.Proper) : a.compare b = .eq ↔ a.Same b := by
  constructor
  · intro h
    induction a using Value.induction generalizing b with
    | step a ih =>
      obtain ⟨hrank, hnumeral, htext, hkeys, hcontents⟩ := compare_eq_iff.1 h
      match a, b, hrank with
      | .null, .null, _ => exact .null
      | .bool false, .bool false, _ => exact .bool false
      | .bool true, .bool true, _ => exact .bool true
      | .number m, .number n, _ => exact .number hnumeral
      | .string s, .string t, _ =>
        obtain rfl : s = t := htext
        exact .string s
      | .array as, .array bs, _ =>
        obtain ⟨hlength, hplaces⟩ := forall₂_iff_getElem?.1 hcontents
        refine .array hlength fun i x y hx hy => ?_
        have hxmem : x ∈ as := List.mem_of_getElem? hx
        have hymem : y ∈ bs := List.mem_of_getElem? hy
        exact ih x hxmem (ha.child hxmem) (hb.child hymem) (hplaces i x y hx hy)
      | .object ms, .object ns, _ =>
        obtain ⟨hsame, hvalues⟩ := (same_members_iff ha.self hb.self).1 ⟨hkeys, hcontents⟩
        refine .object hsame fun key v w hv hw => ?_
        have hvmem := Members.mem_of_get?_eq_some hv
        have hwmem := Members.mem_of_get?_eq_some hw
        exact ih v (Members.mem_values_of_mem hvmem) (ha.member hvmem) (hb.member hwmem)
          (hvalues key v w hv hw)
  · intro h
    induction h with
    | null => rfl
    | bool b => cases b <;> rfl
    | number hvalue => exact compare_eq_iff.2 ⟨rfl, hvalue, rfl, rfl, .nil⟩
    | string s => exact compare_eq_iff.2 ⟨rfl, rfl, rfl, rfl, .nil⟩
    | array hlength _ ih =>
      refine compare_eq_iff.2 ⟨rfl, rfl, rfl, rfl, forall₂_iff_getElem?.2 ⟨hlength, ?_⟩⟩
      intro i x y hx hy
      exact ih i x y hx hy (ha.child (List.mem_of_getElem? hx)) (hb.child (List.mem_of_getElem? hy))
    | object hsame _ ih =>
      obtain ⟨hkeys, hcontents⟩ := (same_members_iff ha.self hb.self (R := fun x y => x.compare y = .eq)).2
        ⟨hsame, fun key v w hv hw => ih key v w hv hw (ha.member (Members.mem_of_get?_eq_some hv))
          (hb.member (Members.mem_of_get?_eq_some hw))⟩
      exact compare_eq_iff.2 ⟨rfl, rfl, rfl, hkeys, hcontents⟩

/-- **The order of values is a total preorder,** with the equality of shapes behind it.  A value is equal to
itself, the comparison turned round is the reverse, two steps upward make one, and values that are
equal compare alike with every third; `equals` holds exactly between values of one shape. -/
theorem compare_is_a_total_preorder (a b c : Value) :
    a.compare a = .eq ∧
    b.compare a = (a.compare b).swap ∧
    (a.compare b ≠ .gt → b.compare c ≠ .gt → a.compare c ≠ .gt) ∧
    (a.compare b = .eq → a.compare c = b.compare c) ∧
    (a.Proper → b.Proper → (a.equals b = true ↔ a.Same b)) := by
  have hlawful := compare_lawfulAt a
  have hchains := hlawful.chains b c
  refine ⟨hlawful.refl, hlawful.swap b, fun hab hbc => ?_, hchains.eq, fun ha hb => ?_⟩
  · cases hfirst : a.compare b with
    | lt => exact fun hac => nomatch (hchains.lt hfirst hbc).symm.trans hac
    | eq => exact fun hac => hbc ((hchains.eq hfirst).symm.trans hac)
    | gt => exact absurd hfirst hab
  · rw [equals, beq_iff_eq]
    exact compare_eq_iff_same ha hb

/-- An object with its keys in another order, a one with a point and a zero with a sign is the same value,
and both come before an array. -/
theorem compare_is_a_total_preorder_spellings :
    let one : Value := .number (.float ⟨false, twoTo 52, -52⟩)
    let zero : Value := .number (.float (.zero true))
    let a : Value := .object [("x", .ofNat 1), ("y", .array [.ofNat 0, .null])]
    let b : Value := .object [("y", .array [zero, .null]), ("x", one)]
    let c : Value := .array [.string "x"]
    a.Proper ∧ b.Proper ∧ a.equals b = true ∧ a.Same b ∧ b.compare c = .gt ∧ a.compare c = b.compare c := by
  intro one zero a b c
  have hnumber (n : Number) : Proper (.number n) := .intro trivial nofun
  have hnull : Proper .null := .intro trivial nofun
  have ha : a.Proper := .object (by decide) ⟨hnumber _, .array ⟨hnumber _, hnull⟩⟩
  have hb : b.Proper := .object (by decide) ⟨.array ⟨hnumber _, hnull⟩, hnumber _⟩
  have hone : Same (.ofNat 1) one := .number (congrArg Binary64.value (by decide))
  have hzero : Same (.ofNat 0) zero := by
    refine .number (congrArg (fun q : ℚ => ((q : WithTop ℚ) : WithBot (WithTop ℚ))) ?_)
    exact (Finite64.value_zero false).trans (Finite64.value_zero true).symm
  have hitems : Same (.array [.ofNat 0, .null]) (.array [zero, .null]) := by
    refine .array rfl fun i x y hx hy => ?_
    match i, hx, hy with
    | 0, rfl, rfl => exact hzero
    | 1, rfl, rfl => exact .null
  have hsame : a.Same b := by
    refine .object (by simp [Members.keys, or_comm]) fun key v w hv hw => ?_
    rcases List.mem_cons.1 (Members.mem_of_get?_eq_some hv) with hx | hy
    · cases hx
      cases hw
      exact hone
    · cases List.mem_singleton.1 hy
      cases hw
      exact hitems
  obtain ⟨-, -, -, halike, hequal⟩ := compare_is_a_total_preorder a b c
  have hequals := (hequal ha hb).2 hsame
  exact ⟨ha, hb, hequals, hsame, rfl, halike (beq_iff_eq.1 hequals)⟩

end Value
end JsonFilter.Json
