import JsonFilter.Proofs.Eval.Transcripts
import JsonFilter.Proofs.Json.Order
import Mathlib.Data.List.Sort

/-!
# Sorted arrays

`sort`, `sort_by`, `unique`, `min` and `max` all go by the order of values.  That order has ties between
values that are not the same, a one with a point and one without, or two objects whose keys stand in
different orders.  So it can be observed which of two equal items comes first, which one is kept and
which one is the least, and each of the five settles it in its own way: a sort keeps the order that equal
items had, `unique` keeps the first of them, and the two searches go through the items from the left.

## What a sort is

`SortedFrom cmp items sorted` says that one list is another one in ascending order, with ties as they were.
Nothing in it mentions how the sort goes about it.

* **`sortedFrom_mergeSort`** — a merge sort sorts by every lawful comparison.
* **`forall₂_of_strictly_ascending`**, **`extreme_unbeaten`** — two lists without repetitions that hold the same
  items agree item by item, and no item beats the extreme one.
* **`sorting_builtins_agree`** — the five builtins, on every array.
-/

namespace JsonFilter.Json

variable {α β : Type} {cmp : α → α → Ordering} {a b c : α}

/-! ### Lawful comparisons of all values -/

/-- A comparison that is lawful from every value on. -/
def Lawful (cmp : α → α → Ordering) : Prop := ∀ a, LawfulAt cmp a

namespace Lawful

theorem trans (h : Lawful cmp) (hab : cmp a b ≠ .gt) (hbc : cmp b c ≠ .gt) : cmp a c ≠ .gt := by
  have hchains := (h a).chains b c
  cases hfirst : cmp a b with
  | lt => exact fun hac => nomatch (hchains.lt hfirst hbc).symm.trans hac
  | eq => exact (hchains.eq hfirst) ▸ hbc
  | gt => exact absurd hfirst hab

theorem lt_of_lt_of_le (h : Lawful cmp) (hab : cmp a b = .lt) (hbc : cmp b c ≠ .gt) : cmp a c = .lt :=
  ((h a).chains b c).lt hab hbc

/-- Two steps in one direction make one. -/
theorem trans_strict {wanted : Ordering} (h : Lawful cmp) (hwanted : wanted ≠ .eq) (hab : cmp a b = wanted)
    (hbc : cmp b c = wanted) : cmp a c = wanted := by
  have hchains := (h a).chains b c
  cases wanted with
  | lt => exact hchains.lt hab (by simp [hbc])
  | eq => exact absurd rfl hwanted
  | gt => exact hchains.gt hab (by simp [hbc])

theorem total (h : Lawful cmp) : cmp a b ≠ .gt ∨ cmp b a ≠ .gt := by
  rw [(h a).swap b]
  cases cmp a b <;> simp

theorem symm (h : Lawful cmp) (hab : cmp a b = .eq) : cmp b a = .eq := by
  rw [(h a).swap b, hab]
  rfl

/-- Two values that equal a third one are equal. -/
theorem eq_of_eq (h : Lawful cmp) (hb : cmp a b = .eq) (hc : cmp a c = .eq) : cmp b c = .eq :=
  ((h a).chains b c).eq hb ▸ hc

theorem eq_of_le_of_ge (h : Lawful cmp) (hab : cmp a b ≠ .gt) (hba : cmp b a ≠ .gt) : cmp a b = .eq := by
  rw [(h a).swap b] at hba
  cases hfirst : cmp a b with
  | lt =>
    rw [hfirst] at hba
    exact absurd rfl hba
  | eq => rfl
  | gt => exact absurd hfirst hab

/-- To compare by a feature is lawful where the comparison of the features is. -/
theorem on (h : Lawful cmp) (f : β → α) : Lawful fun x y => cmp (f x) (f y) := fun b => (h (f b)).on f

end Lawful

theorem Value.compare_lawful : Lawful Value.compare := Value.compare_lawfulAt

/-! ### Sorted lists -/

/-- **A list in ascending order, ties as they were.**  It has the items of the other list, none of them
behind a greater one, and those that are equal in the order that they had there. -/
structure SortedFrom (cmp : α → α → Ordering) (items sorted : List α) : Prop where
  perm : sorted.Perm items
  ascending : sorted.Pairwise fun a b => cmp a b ≠ .gt
  stable : ∀ a ∈ items, sorted.filter (cmp a · == .eq) = items.filter (cmp a · == .eq)

section

variable (h : Lawful cmp) (items : List α)
include h

/-- The sort by a lawful comparison: `mergeSort` keeps every sublist that is in order, and items that are
equal are in order. -/
theorem sortedFrom_mergeSort : SortedFrom cmp items (items.mergeSort fun a b => cmp a b != .gt) := by
  have htrans : ∀ a b c : α, (cmp a b != .gt) = true → (cmp b c != .gt) = true →
      (cmp a c != .gt) = true := by
    simp only [bne_iff_ne]
    exact fun a b c => h.trans
  have htotal : ∀ a b : α, ((cmp a b != .gt) || (cmp b a != .gt)) = true := by
    simp only [Bool.or_eq_true, bne_iff_ne]
    exact fun a b => h.total
  have hperm := List.mergeSort_perm items fun a b => cmp a b != .gt
  refine ⟨hperm, (List.pairwise_mergeSort htrans htotal items).imp fun hab => bne_iff_ne.1 hab, ?_⟩
  intro a _
  have hties : (items.filter (cmp a · == .eq)).Pairwise fun b c => (cmp b c != .gt) = true := by
    refine List.pairwise_of_forall_mem_list fun b hb c hc => ?_
    have htie := h.eq_of_eq (beq_iff_eq.1 (List.mem_filter.1 hb).2) (beq_iff_eq.1 (List.mem_filter.1 hc).2)
    simp [htie]
  have hsublist := (List.sublist_mergeSort htrans htotal hties List.filter_sublist).filter (cmp a · == .eq)
  rw [List.filter_filter, List.filter_congr (q := (cmp a · == .eq)) (by simp)] at hsublist
  exact (hsublist.eq_of_length (hperm.filter _).length_eq.symm).symm

omit h in
/-- A list in order is sorted already. -/
theorem mergeSort_of_ascending (hitems : items.Pairwise fun a b => cmp a b ≠ .gt) :
    (items.mergeSort fun a b => cmp a b != .gt) = items :=
  List.mergeSort_of_pairwise (hitems.imp fun hab => bne_iff_ne.2 hab)

end

/-- Two strictly ascending lists with the same values, up to equality in the order, agree place by place. -/
theorem forall₂_of_strictly_ascending (h : Lawful cmp) {xs ys : List α}
    (hxs : xs.Pairwise fun a b => cmp a b = .lt) (hys : ys.Pairwise fun a b => cmp a b = .lt)
    (hleft : ∀ x ∈ xs, ∃ y ∈ ys, cmp x y = .eq) (hright : ∀ y ∈ ys, ∃ x ∈ xs, cmp x y = .eq) :
    List.Forall₂ (fun x y => cmp x y = .eq) xs ys := by
  induction xs generalizing ys with
  | nil =>
    cases ys with
    | nil => exact .nil
    | cons y ys =>
      obtain ⟨x, hx, -⟩ := hright y List.mem_cons_self
      cases hx
  | cons x xs ih =>
    cases ys with
    | nil =>
      obtain ⟨y, hy, -⟩ := hleft x List.mem_cons_self
      cases hy
    | cons y ys =>
      rw [List.pairwise_cons] at hxs hys
      -- The first items are equal: neither is behind the one that the other one equals.
      have hxy : cmp x y = .eq := by
        obtain ⟨y', hy', hxy'⟩ := hleft x List.mem_cons_self
        obtain ⟨x', hx', hx'y⟩ := hright y List.mem_cons_self
        rcases List.mem_cons.1 hy' with rfl | hy'
        · exact hxy'
        rcases List.mem_cons.1 hx' with rfl | hx'
        · exact hx'y
        have hyx : cmp y x = .lt := h.lt_of_lt_of_le (hys.1 y' hy') (by simp [h.symm hxy'])
        have hxy : cmp x y = .lt := h.lt_of_lt_of_le (hxs.1 x' hx') (by simp [hx'y])
        rw [(h x).swap y, hxy] at hyx
        cases hyx
      refine .cons hxy (ih hxs.2 hys.2 (fun a ha => ?_) fun b hb => ?_)
      · obtain ⟨b, hb, hab⟩ := hleft a (List.mem_cons_of_mem x ha)
        rcases List.mem_cons.1 hb with rfl | hb
        · have hxa : cmp x a = .eq := h.eq_of_eq (h.symm hxy) (h.symm hab)
          exact nomatch hxa.symm.trans (hxs.1 a ha)
        · exact ⟨b, hb, hab⟩
      · obtain ⟨a, ha, hab⟩ := hright b (List.mem_cons_of_mem y hb)
        rcases List.mem_cons.1 ha with rfl | ha
        · exact nomatch (h.eq_of_eq hxy hab).symm.trans (hys.1 b hb)
        · exact ⟨a, ha, hab⟩

end JsonFilter.Json

namespace JsonFilter.Eval

open JsonFilter.Filter Json

/-! ### Lists without repetitions -/

theorem equals_iff {a b : Value} : a.equals b = true ↔ a.compare b = .eq := beq_iff_eq

section Unique

variable {v w : Value} {rest : List Value}

theorem keepFrom_sublist (kept : Value) (rest : List Value) :
    (dropEqualNeighbours.keepFrom kept rest).Sublist rest := by
  induction rest generalizing kept with
  | nil => exact .slnil
  | cons v rest ih =>
    unfold dropEqualNeighbours.keepFrom
    split
    · exact (ih kept).cons v
    · exact (ih v).cons_cons v

/-- What is kept of an ascending list ascends strictly: an item that is kept differs from the one in front
of it, and so do all behind it. -/
theorem keepFrom_strictly_ascending {kept : Value}
    (h : (kept :: rest).Pairwise fun a b => a.compare b ≠ .gt) :
    (kept :: dropEqualNeighbours.keepFrom kept rest).Pairwise fun a b => a.compare b = .lt := by
  induction rest generalizing kept with
  | nil => exact List.pairwise_singleton _ _
  | cons v rest ih =>
    obtain ⟨hkept, hrest⟩ := List.pairwise_cons.1 h
    unfold dropEqualNeighbours.keepFrom
    split
    · exact ih (List.pairwise_cons.2 ⟨fun b hb => hkept b (List.mem_cons_of_mem v hb), hrest.of_cons⟩)
    · rename_i hdiffers
      have hlt : kept.compare v = .lt := by
        have hle := hkept v List.mem_cons_self
        have hne : kept.compare v ≠ .eq := fun heq =>
          hdiffers (equals_iff.2 (Value.compare_lawful.symm heq))
        cases hcompare : kept.compare v <;> simp_all
      have htail := ih hrest
      refine List.pairwise_cons.2 ⟨fun b hb => ?_, htail⟩
      rcases List.mem_cons.1 hb with rfl | hb
      · exact hlt
      · have hvb := (List.pairwise_cons.1 htail).1 b hb
        exact Value.compare_lawful.lt_of_lt_of_le hlt (by simp [hvb])

/-- Every item is equal to one that is kept. -/
theorem exists_equal_keepFrom {kept : Value} (h : v ∈ kept :: rest) :
    ∃ w ∈ kept :: dropEqualNeighbours.keepFrom kept rest, v.compare w = .eq := by
  induction rest generalizing kept with
  | nil => exact ⟨v, h, (Value.compare_lawful v).refl⟩
  | cons u rest ih =>
    unfold dropEqualNeighbours.keepFrom
    rcases List.mem_cons.1 h with rfl | hrest
    · exact ⟨v, List.mem_cons_self, (Value.compare_lawful v).refl⟩
    split
    · rename_i hequal
      rcases List.mem_cons.1 hrest with rfl | hrest
      · exact ⟨kept, List.mem_cons_self, equals_iff.1 hequal⟩
      · exact ih (List.mem_cons_of_mem kept hrest)
    · obtain ⟨w, hw, hequal⟩ := ih hrest
      exact ⟨w, List.mem_cons_of_mem kept hw, hequal⟩

/-- Nothing is dropped where no neighbours are equal. -/
theorem keepFrom_of_strictly_ascending {kept : Value} (h : (kept :: rest).Pairwise fun a b => a.compare b = .lt) :
    dropEqualNeighbours.keepFrom kept rest = rest := by
  induction rest generalizing kept with
  | nil => rfl
  | cons v rest ih =>
    obtain ⟨hkept, hrest⟩ := List.pairwise_cons.1 h
    have hdiffers : ¬v.equals kept = true := fun hequal =>
      nomatch (Value.compare_lawful.symm (equals_iff.1 hequal)).symm.trans (hkept v List.mem_cons_self)
    rw [dropEqualNeighbours.keepFrom, if_neg hdiffers, ih hrest]

theorem dropEqualNeighbours_sublist (items : List Value) : (dropEqualNeighbours items).Sublist items := by
  cases items with
  | nil => exact .slnil
  | cons v rest => exact (keepFrom_sublist v rest).cons_cons v

theorem dropEqualNeighbours_strictly_ascending {items : List Value}
    (h : items.Pairwise fun a b => a.compare b ≠ .gt) :
    (dropEqualNeighbours items).Pairwise fun a b => a.compare b = .lt := by
  cases items with
  | nil => exact .nil
  | cons v rest => exact keepFrom_strictly_ascending h

theorem exists_equal_dropEqualNeighbours {items : List Value} (h : v ∈ items) :
    ∃ w ∈ dropEqualNeighbours items, v.compare w = .eq := by
  cases items with
  | nil => cases h
  | cons u rest => exact exists_equal_keepFrom h

theorem dropEqualNeighbours_of_strictly_ascending {items : List Value}
    (h : items.Pairwise fun a b => a.compare b = .lt) : dropEqualNeighbours items = items := by
  cases items with
  | nil => rfl
  | cons v rest => rw [dropEqualNeighbours, keepFrom_of_strictly_ascending h]

/-- A value is equal to one item of a strictly ascending list at most. -/
theorem countP_equals_le_one {items : List Value} (h : items.Pairwise fun a b => a.compare b = .lt)
    (v : Value) : items.countP (v.equals ·) ≤ 1 := by
  induction items with
  | nil => exact Nat.zero_le 1
  | cons u items ih =>
    obtain ⟨hu, hitems⟩ := List.pairwise_cons.1 h
    by_cases hequal : v.equals u = true
    · have hnone : items.countP (v.equals ·) = 0 := by
        refine List.countP_eq_zero.2 fun w hw hequal' => ?_
        exact nomatch (Value.compare_lawful.eq_of_eq (equals_iff.1 hequal) (equals_iff.1 hequal')).symm.trans
          (hu w hw)
      rw [List.countP_cons_of_pos hequal, hnone]
    · rw [List.countP_cons_of_neg hequal]
      exact ih hitems

/-- The items of a list in ascending order, one of those that are equal. -/
def distinctOf (items : List Value) : List Value := dropEqualNeighbours (Value.sort items)

theorem sortedFrom_sort (items : List Value) : SortedFrom Value.compare items (Value.sort items) :=
  sortedFrom_mergeSort Value.compare_lawful items

theorem sort_of_ascending {items : List Value} (h : items.Pairwise fun a b => a.compare b ≠ .gt) :
    Value.sort items = items := mergeSort_of_ascending items h

theorem distinctOf_strictly_ascending (items : List Value) :
    (distinctOf items).Pairwise fun a b => a.compare b = .lt :=
  dropEqualNeighbours_strictly_ascending (sortedFrom_sort items).ascending

theorem distinctOf_subset (items : List Value) : distinctOf items ⊆ items := fun _ hv =>
  (sortedFrom_sort items).perm.mem_iff.1 ((dropEqualNeighbours_sublist _).mem hv)

theorem exists_equal_distinctOf {items : List Value} (h : v ∈ items) :
    ∃ w ∈ distinctOf items, v.compare w = .eq :=
  exists_equal_dropEqualNeighbours ((sortedFrom_sort items).perm.mem_iff.2 h)

theorem countP_equals_distinctOf {items : List Value} (h : v ∈ items) :
    (distinctOf items).countP (v.equals ·) = 1 := by
  obtain ⟨w, hw, hequal⟩ := exists_equal_distinctOf h
  have hpos : 0 < (distinctOf items).countP (v.equals ·) :=
    List.countP_pos_iff.2 ⟨w, hw, equals_iff.2 hequal⟩
  exact Nat.le_antisymm (countP_equals_le_one (distinctOf_strictly_ascending items) v) hpos

theorem distinctOf_of_strictly_ascending {items : List Value}
    (h : items.Pairwise fun a b => a.compare b = .lt) : distinctOf items = items := by
  rw [distinctOf, sort_of_ascending (h.imp fun hab => by simp [hab]),
    dropEqualNeighbours_of_strictly_ascending h]

/-- The order of the items does not matter, up to equality in the order. -/
theorem distinctOf_of_perm {items items' : List Value} (h : items.Perm items') :
    List.Forall₂ (fun v w => v.equals w = true) (distinctOf items) (distinctOf items') := by
  refine (forall₂_of_strictly_ascending Value.compare_lawful (distinctOf_strictly_ascending items)
    (distinctOf_strictly_ascending items') (fun v hv => ?_) fun w hw => ?_).imp fun _ _ => equals_iff.2
  · exact exists_equal_distinctOf (h.mem_iff.1 (distinctOf_subset items hv))
  · obtain ⟨v, hv, hequal⟩ := exists_equal_distinctOf (h.mem_iff.2 (distinctOf_subset items' hw))
    exact ⟨v, hv, Value.compare_lawful.symm hequal⟩

end Unique

/-! ### Extremes -/

/-- The best item of those that were seen stays it, as long as nothing beats it. -/
theorem foldl_unbeaten {wanted : Ordering} (hwanted : wanted ≠ .eq) {rest seen : List Value} {best : Value}
    (hbest : best ∈ seen) (hseen : ∀ v ∈ seen, v.compare best ≠ wanted) :
    let found := rest.foldl (fun best item => if item.compare best == wanted then item else best) best
    found ∈ seen ++ rest ∧ ∀ v ∈ seen ++ rest, v.compare found ≠ wanted := by
  induction rest generalizing seen best with
  | nil => simpa using ⟨hbest, hseen⟩
  | cons item rest ih =>
    rw [List.foldl_cons, List.append_cons]
    split
    · next hbeats =>
      rw [beq_iff_eq] at hbeats
      refine ih (List.mem_append_right _ (List.mem_singleton_self item)) fun v hv => ?_
      rcases List.mem_append.1 hv with hv | hv
      · exact fun hvitem => hseen v hv (Value.compare_lawful.trans_strict hwanted hvitem hbeats)
      · rw [List.mem_singleton.1 hv, (Value.compare_lawful item).refl]
        exact hwanted.symm
    · next hstays =>
      refine ih (List.mem_append_left _ hbest) fun v hv => ?_
      rcases List.mem_append.1 hv with hv | hv
      · exact hseen v hv
      · rw [List.mem_singleton.1 hv]
        exact fun heq => hstays (beq_iff_eq.2 heq)

/-- **No item beats the extreme one,** and it is one of the items. -/
theorem extreme_unbeaten {wanted : Ordering} (hwanted : wanted ≠ .eq) {items : List Value}
    (hitems : items ≠ []) :
    extreme wanted items ∈ items ∧ ∀ v ∈ items, v.compare (extreme wanted items) ≠ wanted := by
  obtain ⟨first, rest, rfl⟩ := List.exists_cons_of_ne_nil hitems
  have hfirst : first.compare first ≠ wanted := by
    rw [(Value.compare_lawful first).refl]
    exact hwanted.symm
  exact foldl_unbeaten hwanted List.mem_cons_self (List.forall_mem_singleton.2 hfirst)

section

variable {items sorted : List Value} (hsorted : SortedFrom Value.compare items sorted) (hitems : items ≠ [])
include hsorted hitems

/-- The least item is as great as the first one of the sorted list: neither beats the other. -/
theorem extreme_lt_equals_head : ∃ first ∈ sorted.head?, (extreme .lt items).equals first = true := by
  have hwanted : Ordering.lt ≠ .eq := by decide
  obtain ⟨hmem, hunbeaten⟩ := extreme_unbeaten hwanted hitems
  cases sorted with
  | nil => exact absurd hsorted.perm.nil_eq.symm hitems
  | cons first rest =>
    refine ⟨first, rfl, equals_iff.2 (Value.compare_lawful.eq_of_le_of_ge ?_ ?_)⟩
    · have hfirst := hunbeaten first (hsorted.perm.mem_iff.1 List.mem_cons_self)
      rw [(Value.compare_lawful first).swap]
      exact fun heq => hfirst (Ordering.swap_inj.1 heq)
    · rcases List.mem_cons.1 (hsorted.perm.mem_iff.2 hmem) with heq | hrest
      · rw [heq, (Value.compare_lawful first).refl]
        decide
      · exact (List.pairwise_cons.1 hsorted.ascending).1 _ hrest

/-- The greatest item is as great as the last one of the sorted list. -/
theorem extreme_gt_equals_getLast : ∃ last ∈ sorted.getLast?, (extreme .gt items).equals last = true := by
  have hwanted : Ordering.gt ≠ .eq := by decide
  obtain ⟨hmem, hunbeaten⟩ := extreme_unbeaten hwanted hitems
  rcases List.eq_nil_or_concat sorted with rfl | ⟨rest, last, rfl⟩
  · exact absurd hsorted.perm.nil_eq.symm hitems
  · refine ⟨last, by simp, equals_iff.2 (Value.compare_lawful.eq_of_le_of_ge ?_ ?_)⟩
    · have hextreme := hsorted.perm.mem_iff.2 hmem
      have hascending := hsorted.ascending
      rw [List.concat_eq_append] at hextreme hascending
      rcases List.mem_append.1 hextreme with hrest | hlast
      · exact (List.pairwise_append.1 hascending).2.2 _ hrest _ (List.mem_singleton_self last)
      · rw [List.mem_singleton.1 hlast, (Value.compare_lawful last).refl]
        decide
    · exact hunbeaten last (hsorted.perm.mem_iff.1 (by simp))

end

/-! ### Streams that are collected -/

/-- **Without a deadline the stream gives these values,** raises nothing and ends. -/
structure Outputs.Gives (o : Outputs) (values : List Value) : Prop where
  results : (o.transcript .unlimited).results = values.map .ok
  complete : (o.transcript .unlimited).complete = true

namespace Outputs.Gives

variable {o : Outputs} {values found : List Value}

theorem single (v : Value) : (Outputs.single v).Gives [v] := ⟨rfl, rfl⟩

theorem guarded (h : o.Gives values) : (Outputs.guarded fun _ => o).Gives values := ⟨h.results, h.complete⟩

/-- All values of a stream are collected. -/
theorem collect {next : List Value → Outputs} (ho : o.Gives values) (hnext : (next values).Gives found) :
    (Outputs.collect o next).Gives found := by
  unfold Outputs.collect
  -- The values collected so far are what the induction is about.
  generalize hseen : ([] : List Value) = seen
  replace hnext : (next (seen.reverse ++ values)).Gives found := hseen ▸ hnext
  clear hseen
  induction o generalizing values seen with
  | done =>
    obtain rfl : values = [] := List.map_eq_nil_iff.1 ho.results.symm
    rwa [List.append_nil] at hnext
  | emit r rest ih =>
    obtain ⟨v, values, rfl, rfl, hrest⟩ := List.map_eq_cons_iff.1 ho.results.symm
    refine ih () ⟨hrest.symm, ho.complete⟩ (v :: seen) ?_
    rwa [List.reverse_cons, List.append_assoc]
  | check next' ih =>
    have hrest := ih false ⟨ho.results, ho.complete⟩ seen hnext
    exact ⟨hrest.results, hrest.complete⟩
  | pause next' ih => exact ih () ⟨ho.results, ho.complete⟩ seen hnext
  | exhausted => cases ho.complete

/-- Value by value, all that a filter gives for it is collected. -/
theorem collectEach {f : Value → Outputs} {outputs : Value → List Value}
    {next : List (List Value) → Outputs} {items : List Value} (hf : ∀ v ∈ items, (f v).Gives (outputs v))
    (hnext : (next (items.map outputs)).Gives found) : (Outputs.collectEach f next items []).Gives found := by
  have hfrom : ∀ seen : List (List Value), (next (seen.reverse ++ items.map outputs)).Gives found →
      (Outputs.collectEach f next items seen).Gives found := by
    clear hnext
    induction items with
    | nil =>
      intro seen hnext
      rwa [List.map_nil, List.append_nil] at hnext
    | cons v items ih =>
      intro seen hnext
      refine (hf v List.mem_cons_self).collect (ih (fun w hw => hf w (List.mem_cons_of_mem v hw)) _ ?_)
      rwa [List.reverse_cons, List.append_assoc]
  exact hfrom [] hnext

end Outputs.Gives

/-- The items that are sorted by the keys that go with them are sorted by a function of the items. -/
theorem sortByKeys_map (items : List Value) (key : Value → Value) :
    sortByKeys ((items.map key).zip items) =
      items.mergeSort fun a b => (key a).compare (key b) != .gt := by
  have hkeyed : (items.map key).zip items = items.map fun v => (key v, v) := by
    have hzip : (items.map key).zip (items.map id) = items.map fun v => (key v, v) := List.zip_map'
    rwa [List.map_id] at hzip
  rw [hkeyed, sortByKeys, ← List.map_mergeSort (r := fun a b => (key a).compare (key b) != .gt)
    (fun _ _ _ _ => rfl), List.map_map]
  exact List.map_id _

/-! ### The builtins -/

/-- The call of a name without arguments gives one value and nothing else. -/
def Maps (c : Context) (name : String) (input output : Value) : Prop :=
  ∀ span, eval (.call name [] span) c input = .guarded fun _ => .single output

theorem maps_of_builtin {c : Context} {name : String} {b : Nullary} {input output : Value}
    (hname : c.definition? name = none) (hb : Nullary.ofName? name = some b)
    (h : callNullary c input b = .single output) : Maps c name input output := by
  intro span
  simp only [eval, evalCall, hname, hb, h]

/-- **The builtins that sort agree with each other and with the order of values,** on every array.  `sort`
gives the array in ascending order with ties as they were, and so does `sort_by` in the order of the arrays of
what a filter gives for the items, if it raises nothing.  `unique` ascends strictly, takes its items from the
array and has one for every item; for an array with the same items it gives items that are equal place by
place.  `min` and `max` are items that are equal to the first and to the last one of the sorted array, and
null where there is none.  What is sorted or without repetitions stays as it is. -/
theorem sorting_builtins_agree (c : Context)
    (hc : ∀ name ∈ ["sort", "unique", "min", "max"], c.definition? name = none) (items : List Value) :
    ∃ (sorted distinct : List Value) (least greatest : Value),
      (Maps c "sort" (.array items) (.array sorted) ∧
        SortedFrom Value.compare items sorted ∧
        Maps c "sort" (.array sorted) (.array sorted)) ∧
      (Maps c "unique" (.array items) (.array distinct) ∧
        distinct.Pairwise (fun a b => a.compare b = .lt) ∧
        distinct ⊆ items ∧
        (∀ v ∈ items, distinct.countP (v.equals ·) = 1) ∧
        Maps c "unique" (.array distinct) (.array distinct) ∧
        ∀ shuffled : List Value, shuffled.Perm items → ∃ distinct',
          Maps c "unique" (.array shuffled) (.array distinct') ∧
            List.Forall₂ (fun v w => v.equals w = true) distinct distinct') ∧
      (Maps c "min" (.array items) least ∧ Maps c "max" (.array items) greatest ∧
        (items = [] → least = .null ∧ greatest = .null) ∧
        (items ≠ [] → least ∈ items ∧ greatest ∈ items ∧
          (∃ first ∈ sorted.head?, least.equals first = true) ∧
          ∃ last ∈ sorted.getLast?, greatest.equals last = true)) ∧
      ∀ (f : Expr) (outputs : Value → List Value), (∀ v ∈ items, (eval f c v).Gives (outputs v)) →
        ∃ ordered : List Value,
          (∀ span, (eval (.call "sort_by" [f] span) c (.array items)).Gives [.array ordered]) ∧
            SortedFrom (fun a b => (Value.array (outputs a)).compare (.array (outputs b))) items ordered := by
  have hsort (items : List Value) : Maps c "sort" (.array items) (.array (Value.sort items)) :=
    maps_of_builtin (hc "sort" (by decide)) rfl rfl
  have hunique (items : List Value) : Maps c "unique" (.array items) (.array (distinctOf items)) :=
    maps_of_builtin (hc "unique" (by decide)) rfl rfl
  have hmin : Maps c "min" (.array items) (extreme .lt items) :=
    maps_of_builtin (hc "min" (by decide)) rfl rfl
  have hmax : Maps c "max" (.array items) (extreme .gt items) :=
    maps_of_builtin (hc "max" (by decide)) rfl rfl
  have hsorted := sortedFrom_sort items
  refine ⟨Value.sort items, distinctOf items, extreme .lt items, extreme .gt items,
    ⟨hsort items, hsorted, ?_⟩,
    ⟨hunique items, distinctOf_strictly_ascending items, distinctOf_subset items,
      fun v hv => countP_equals_distinctOf hv, ?_, fun shuffled hperm => ?_⟩,
    ⟨hmin, hmax, ?_, fun hitems => ?_⟩, fun f outputs hf => ?_⟩
  · have hagain := hsort (Value.sort items)
    rwa [sort_of_ascending hsorted.ascending] at hagain
  · have hagain := hunique (distinctOf items)
    rwa [distinctOf_of_strictly_ascending (distinctOf_strictly_ascending items)] at hagain
  · exact ⟨distinctOf shuffled, hunique shuffled, distinctOf_of_perm hperm.symm⟩
  · rintro rfl
    exact ⟨rfl, rfl⟩
  · exact ⟨(extreme_unbeaten (by decide) hitems).1, (extreme_unbeaten (by decide) hitems).1,
      extreme_lt_equals_head hsorted hitems, extreme_gt_equals_getLast hsorted hitems⟩
  · let key (v : Value) : Value := .array (outputs v)
    refine ⟨items.mergeSort fun a b => (key a).compare (key b) != .gt, fun span => ?_,
      sortedFrom_mergeSort (Value.compare_lawful.on key) items⟩
    have hkeys : sortByKeys (((items.map outputs).map Value.array).zip items) =
        items.mergeSort fun a b => (key a).compare (key b) != .gt := by
      rw [List.map_map]
      exact sortByKeys_map items key
    have hcollected : (Outputs.collectEach (eval f c)
        (fun keys => .single (.array (sortByKeys ((keys.map .array).zip items)))) items []).Gives
          [.array (sortByKeys (((items.map outputs).map Value.array).zip items))] :=
      .collectEach hf (.single _)
    rw [hkeys] at hcollected
    exact hcollected.guarded

/-- Ones with and without a point, objects with their keys in two orders, and a key that ties some items. -/
theorem sorting_builtins_agree_ties :
    let c := Context.empty .null 5
    let one : Value := .number (.float ⟨false, twoTo 52, -52⟩)
    let ab : Value := .object [("a", .null), ("b", .ofNat 2)]
    let ba : Value := .object [("b", .ofNat 2), ("a", .null)]
    let items : List Value := [ba, .ofNat 1, .string "x", ab, one, .null]
    let kind : Expr := .call "type" [] (.point 0)
    (∀ name ∈ ["sort", "unique", "min", "max"], c.definition? name = none) ∧
    (∀ v ∈ items, (eval kind c v).Gives [.string v.typeName]) ∧
      ∃ (sorted distinct : List Value) (least greatest : Value),
        (Maps c "sort" (.array items) (.array sorted) ∧
          SortedFrom Value.compare items sorted ∧
          Maps c "sort" (.array sorted) (.array sorted)) ∧
        (Maps c "unique" (.array items) (.array distinct) ∧
          distinct.Pairwise (fun a b => a.compare b = .lt) ∧
          distinct ⊆ items ∧
          (∀ v ∈ items, distinct.countP (v.equals ·) = 1) ∧
          Maps c "unique" (.array distinct) (.array distinct) ∧
          ∃ distinct', Maps c "unique" (.array items.reverse) (.array distinct') ∧
            List.Forall₂ (fun v w => v.equals w = true) distinct distinct') ∧
        (Maps c "min" (.array items) least ∧ Maps c "max" (.array items) greatest ∧
          least ∈ items ∧ greatest ∈ items ∧
          (∃ first ∈ sorted.head?, least.equals first = true) ∧
          ∃ last ∈ sorted.getLast?, greatest.equals last = true) ∧
        ∃ ordered : List Value,
          (∀ span, (eval (.call "sort_by" [kind] span) c (.array items)).Gives [.array ordered]) ∧
            SortedFrom (fun a b => (Value.array [.string a.typeName]).compare
              (.array [.string b.typeName])) items ordered := by
  intro c one ab ba items kind
  have hc : ∀ name ∈ ["sort", "unique", "min", "max"], c.definition? name = none := fun _ _ => rfl
  have hkind : ∀ v ∈ items, (eval kind c v).Gives [.string v.typeName] := fun v _ => ⟨rfl, rfl⟩
  obtain ⟨sorted, distinct, least, greatest, hsort, ⟨hunique, hstrict, hsub, hone, hagain, hperm⟩,
    ⟨hmin, hmax, -, hextremes⟩, hby⟩ := sorting_builtins_agree c hc items
  exact ⟨hc, hkind, sorted, distinct, least, greatest, hsort,
    ⟨hunique, hstrict, hsub, hone, hagain, hperm _ items.reverse_perm⟩,
    ⟨hmin, hmax, hextremes (List.cons_ne_nil _ _)⟩, hby kind (fun v => [.string v.typeName]) hkind⟩

end JsonFilter.Eval
