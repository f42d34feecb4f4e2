import JsonFilter.Proofs.Json.Merging
import Mathlib.Logic.Equiv.Basic

/-!
# The order of keys in a product

A union keeps the keys of its first object in their places and puts the new ones behind them.  A product of
objects has the same keys, but a key that both factors have changes places with the key that stands last
when its turn comes.  So a product has its keys in the order of the union in few cases only.

## Keys on the move

What happens to the keys can be told without the values: `mergeKey` is one turn.  A key moves only while it
stands last, at a turn of another key that is there already, and it takes the place of that one.  Whatever
does not stand last and gets no turn of its own stays where it is (`idxOf_foldl_mergeKey`), so a key that was
driven from the end does not come back (`idxOf_of_driven`).

* **`foldl_mergeKey_eq_iff`** — the keys end up in the order of the union exactly if the shared ones come
  first and are none, the last key, or another key followed by the last one.
* `Value.within?` — the value at the end of a path of keys.
* **`product_keeps_order_iff`** — the same for products, and for the products inside them at any depth.
-/

namespace JsonFilter.Json

open Equiv (swap)

/-- The keys after one more member was merged: a key that is there changes places with the last one, a new
key goes to the end. -/
def mergeKey (keys : List String) (key : String) : List String :=
  if key ∈ keys then keys.map (swap key (keys.getLast?.getD key)) else keys ++ [key]

variable {keys more : List String} {key last : String}

/-! ### One turn -/

theorem exists_last (h : key ∈ keys) : ∃ last, keys.getLast? = some last :=
  Option.ne_none_iff_exists'.1 fun hnone =>
    List.ne_nil_of_mem h (List.getLast?_eq_none_iff.1 hnone)

theorem map_swap_of_not_mem {a b : String} (ha : a ∉ keys) (hb : b ∉ keys) :
    keys.map (swap a b) = keys := by
  refine (List.map_congr_left fun k hk => ?_).trans (List.map_id keys)
  exact Equiv.swap_apply_of_ne_of_ne (fun h => ha (h ▸ hk)) fun h => hb (h ▸ hk)

theorem idxOf_map_swap (a b x : String) (keys : List String) :
    (keys.map (swap a b)).idxOf x = keys.idxOf (swap a b x) := by
  induction keys with
  | nil => rfl
  | cons k keys ih =>
    rw [List.map_cons, List.idxOf_cons, List.idxOf_cons, ih]
    by_cases hk : swap a b k = x
    · have hk' : k = swap a b x := by rw [← hk, Equiv.swap_apply_self]
      rw [beq_iff_eq.2 hk, beq_iff_eq.2 hk']
    · have hk' : k ≠ swap a b x := fun h => hk (by rw [h, Equiv.swap_apply_self])
      rw [beq_eq_false_iff_ne.2 hk, beq_eq_false_iff_ne.2 hk']

theorem mergeKey_of_not_mem (h : key ∉ keys) : mergeKey keys key = keys ++ [key] := if_neg h

theorem mergeKey_of_mem (h : key ∈ keys) (hlast : keys.getLast? = some last) :
    mergeKey keys key = keys.map (swap key last) := by
  rw [mergeKey, if_pos h, hlast, Option.getD_some]

/-- The last key stays where it is at its own turn. -/
theorem mergeKey_last (hlast : keys.getLast? = some key) : mergeKey keys key = keys := by
  rw [mergeKey_of_mem (List.mem_of_getLast? hlast) hlast, Equiv.swap_self]
  exact List.map_id keys

/-- The key whose turn it was stands last. -/
theorem getLast?_mergeKey (keys : List String) (key : String) :
    (mergeKey keys key).getLast? = some key := by
  by_cases h : key ∈ keys
  · obtain ⟨last, hlast⟩ := exists_last h
    rw [mergeKey_of_mem h hlast, List.getLast?_map, hlast, Option.map_some, Equiv.swap_apply_right]
  · rw [mergeKey_of_not_mem h, List.getLast?_concat]

theorem mem_mergeKey {x : String} : x ∈ mergeKey keys key ↔ x ∈ keys ∨ x = key := by
  by_cases h : key ∈ keys
  · obtain ⟨last, hlast⟩ := exists_last h
    have hmem : last ∈ keys := List.mem_of_getLast? hlast
    rw [mergeKey_of_mem h hlast, ← List.idxOf_lt_length_iff, idxOf_map_swap, List.length_map,
      List.idxOf_lt_length_iff, Equiv.swap_apply_def]
    split
    · next hx => simp [hx, hmem]
    · split
      · next hx => simp [hx, hmem, h]
      · next hx _ => simp [hx]
  · rw [mergeKey_of_not_mem h, List.mem_append, List.mem_singleton]

/-- A key that neither has its turn nor stands last stays in its place. -/
theorem idxOf_mergeKey {x : String} (hx : x ∈ keys) (hlast : keys.getLast? ≠ some x) (hne : x ≠ key) :
    (mergeKey keys key).idxOf x = keys.idxOf x := by
  by_cases h : key ∈ keys
  · obtain ⟨last, hend⟩ := exists_last h
    have hne' : x ≠ last := fun heq => hlast (heq ▸ hend)
    rw [mergeKey_of_mem h hend, idxOf_map_swap, Equiv.swap_apply_of_ne_of_ne hne hne']
  · rw [mergeKey_of_not_mem h, List.idxOf_append_of_mem hx]

/-- A key that was driven from the end comes back at the turn of the one that stands there now. -/
theorem mergeKey_back (h : key ∈ keys) (hlast : keys.getLast? = some last) :
    mergeKey (mergeKey keys key) last = keys := by
  have hmem : last ∈ mergeKey keys key := mem_mergeKey.2 (.inl (List.mem_of_getLast? hlast))
  rw [mergeKey_of_mem hmem (getLast?_mergeKey keys key), mergeKey_of_mem h hlast, List.map_map,
    Equiv.swap_comm]
  refine (List.map_congr_left fun k _ => ?_).trans (List.map_id keys)
  exact Equiv.swap_apply_self key last k

/-! ### All turns -/

theorem idxOf_foldl_mergeKey {x : String} (hx : x ∈ keys) (hlast : keys.getLast? ≠ some x)
    (hturn : x ∉ more) : (more.foldl mergeKey keys).idxOf x = keys.idxOf x := by
  induction more generalizing keys with
  | nil => rfl
  | cons k more ih =>
    obtain ⟨hne, hturn⟩ := List.ne_and_not_mem_of_not_mem_cons hturn
    have hlast' : (mergeKey keys k).getLast? ≠ some x := by
      rw [getLast?_mergeKey]
      exact fun heq => hne (Option.some.inj heq).symm
    rw [List.foldl_cons, ih (mem_mergeKey.2 (.inl hx)) hlast' hturn, idxOf_mergeKey hx hlast hne]

/-- **A key that is driven from the end stays** in the place of the key that drove it away, if it has no
turn of its own. -/
theorem idxOf_of_driven (hlast : keys.getLast? = some last) (hkey : key ∈ keys)
    (hturn : last ∉ key :: more) :
    ((key :: more).foldl mergeKey keys).idxOf last = keys.idxOf key := by
  obtain ⟨hne, hturn⟩ := List.ne_and_not_mem_of_not_mem_cons hturn
  have hlast' : (mergeKey keys key).getLast? ≠ some last := by
    rw [getLast?_mergeKey]
    exact fun heq => hne (Option.some.inj heq).symm
  have hmem : last ∈ mergeKey keys key := mem_mergeKey.2 (.inl (List.mem_of_getLast? hlast))
  rw [List.foldl_cons, idxOf_foldl_mergeKey hmem hlast' hturn, mergeKey_of_mem hkey hlast,
    idxOf_map_swap, Equiv.swap_apply_right]

theorem foldl_mergeKey_fresh (hmore : more.Nodup) (hfresh : ∀ k ∈ more, k ∉ keys) :
    more.foldl mergeKey keys = keys ++ more := by
  induction more generalizing keys with
  | nil => exact (List.append_nil keys).symm
  | cons k more ih =>
    obtain ⟨hnew, hmore⟩ := List.nodup_cons.1 hmore
    rw [List.foldl_cons, mergeKey_of_not_mem (hfresh k (.head _)), ih hmore, List.append_assoc]
    · rfl
    · intro j hj hmem
      rcases List.mem_append.1 hmem with hold | hsame
      · exact hfresh j (.tail _ hj) hold
      · exact hnew (List.mem_singleton.1 hsame ▸ hj)

/-- The turn of a new key makes no difference to the order of a union. -/
theorem kept_cons_iff (hkey : key ∉ keys) (hnew : key ∉ more) :
    (key :: more).foldl mergeKey keys = keys ++ (key :: more).filter (· ∉ keys) ↔
      more.foldl mergeKey (keys ++ [key]) = keys ++ [key] ++ more.filter (· ∉ keys ++ [key]) := by
  have hrest : more.filter (· ∉ keys ++ [key]) = more.filter (· ∉ keys) := by
    refine List.filter_congr fun k hk => decide_eq_decide.2 (not_congr ?_)
    have hne : k ≠ key := fun heq => hnew (heq ▸ hk)
    rw [List.mem_append, List.mem_singleton, or_iff_left hne]
  rw [List.foldl_cons, mergeKey_of_not_mem hkey, List.filter_cons_of_pos (by simpa using hkey), hrest,
    List.append_cons keys key (more.filter _)]

/-- Behind a last key that has no turn, keys in the order of a union are new ones only. -/
theorem fresh_of_kept (hlast : keys.getLast? = some last) (hturn : last ∉ more) (hmore : more.Nodup)
    (h : more.foldl mergeKey keys = keys ++ more.filter (· ∉ keys)) : ∀ k ∈ more, k ∉ keys := by
  induction more generalizing keys last with
  | nil => exact fun k hk => absurd hk List.not_mem_nil
  | cons k more ih =>
    obtain ⟨hnew, hrest⟩ := List.nodup_cons.1 hmore
    by_cases hk : k ∈ keys
    · -- The last key would be in the place of this one.
      have hmem : last ∈ keys := List.mem_of_getLast? hlast
      have hplace := idxOf_of_driven hlast hk hturn
      rw [h, List.idxOf_append_of_mem hmem, List.idxOf_inj hmem] at hplace
      exact absurd (hplace ▸ .head _) hturn
    · have hbehind := ih List.getLast?_concat hnew hrest ((kept_cons_iff hk hnew).1 h)
      intro j hj
      rcases List.mem_cons.1 hj with rfl | hj
      · exact hk
      · exact fun hmem => hbehind j hj (List.mem_append_left _ hmem)

/-- Keys that leave others in their places when they have their turns: first keys that are there, which are
none, the last one, or another one and then the last one, and behind them new ones. -/
def KeepPlaces (keys more : List String) : Prop :=
  ∃ shared fresh, more = shared ++ fresh ∧ (∀ k ∈ fresh, k ∉ keys) ∧
    (shared = [] ∨ ∃ last, keys.getLast? = some last ∧
      (shared = [last] ∨ ∃ k ∈ keys, shared = [k, last]))

theorem KeepPlaces.foldl_eq (h : KeepPlaces keys more) (hmore : more.Nodup) :
    more.foldl mergeKey keys = keys ++ more.filter (· ∉ keys) := by
  obtain ⟨shared, fresh, rfl, hfresh, hshared⟩ := h
  have hnew : fresh.filter (· ∉ keys) = fresh := List.filter_eq_self.2 (by simpa using hfresh)
  have hfold := foldl_mergeKey_fresh hmore.of_append_right hfresh
  rw [List.foldl_append, List.filter_append, hnew]
  obtain rfl | ⟨last, hlast, rfl | ⟨k, hk, rfl⟩⟩ := hshared
  · simpa using hfold
  · have hmem : last ∈ keys := List.mem_of_getLast? hlast
    simpa [mergeKey_last hlast, hmem] using hfold
  · have hmem : last ∈ keys := List.mem_of_getLast? hlast
    simpa [mergeKey_back hk hlast, hmem, hk] using hfold

/-- The first turn of a key that is not last is followed by the turn of the last one. -/
theorem exists_eq_cons_last (hkey : key ∈ keys) (hlast : keys.getLast? = some last) (hne : key ≠ last)
    (hmore : (key :: more).Nodup)
    (h : (key :: more).foldl mergeKey keys = keys ++ (key :: more).filter (· ∉ keys)) :
    ∃ rest, more = last :: rest := by
  have hturn : key ∉ more := (List.nodup_cons.1 hmore).1
  have hend := getLast?_mergeKey keys key
  have hplace : (mergeKey keys key).idxOf key = keys.idxOf last := by
    rw [mergeKey_of_mem hkey hlast, idxOf_map_swap, Equiv.swap_apply_left]
  -- In the order of a union the key is in its old place, and the last one in its own.
  have hstays : (more.foldl mergeKey (mergeKey keys key)).idxOf key = keys.idxOf key := by
    rw [List.foldl_cons] at h
    rw [h, List.idxOf_append_of_mem hkey]
  cases more with
  | nil =>
    rw [List.foldl_nil, hplace, List.idxOf_inj (List.mem_of_getLast? hlast)] at hstays
    exact absurd hstays.symm hne
  | cons k rest =>
    by_cases hk : k ∈ mergeKey keys key
    · rw [idxOf_of_driven hend hk hturn, mergeKey_of_mem hkey hlast, idxOf_map_swap, eq_comm,
        List.idxOf_inj hkey, eq_comm, Equiv.swap_apply_eq_iff, Equiv.swap_apply_left] at hstays
      exact ⟨rest, by rw [hstays]⟩
    · obtain ⟨hneq, hturn⟩ := List.ne_and_not_mem_of_not_mem_cons hturn
      have hmem : key ∈ mergeKey keys key ++ [k] := List.mem_append_left _ (mem_mergeKey.2 (.inr rfl))
      rw [List.foldl_cons, mergeKey_of_not_mem hk, idxOf_foldl_mergeKey hmem _ hturn,
        List.idxOf_append_of_mem (mem_mergeKey.2 (.inr rfl)), hplace,
        List.idxOf_inj (List.mem_of_getLast? hlast)] at hstays
      · exact absurd hstays.symm hne
      · rw [List.getLast?_concat]
        exact fun heq => hneq (Option.some.inj heq).symm

/-- **The order of a union is kept** exactly where the shared keys come first and are none, the last one, or
another one followed by the last one. -/
theorem foldl_mergeKey_eq_iff (hmore : more.Nodup) :
    more.foldl mergeKey keys = keys ++ more.filter (· ∉ keys) ↔ KeepPlaces keys more := by
  refine ⟨fun h => ?_, fun h => h.foldl_eq hmore⟩
  cases more with
  | nil => exact ⟨[], [], rfl, List.forall_mem_nil _, .inl rfl⟩
  | cons key more =>
    obtain ⟨hnew, hrest⟩ := List.nodup_cons.1 hmore
    by_cases hkey : key ∈ keys
    · obtain ⟨last, hlast⟩ := exists_last hkey
      by_cases hne : key = last
      · subst hne
        rw [List.foldl_cons, mergeKey_last hlast, List.filter_cons_of_neg (by simpa using hkey)] at h
        exact ⟨[key], more, rfl, fresh_of_kept hlast hnew hrest h, .inr ⟨key, hlast, .inl rfl⟩⟩
      · obtain ⟨rest, rfl⟩ := exists_eq_cons_last hkey hlast hne hmore h
        have hmem : last ∈ keys := List.mem_of_getLast? hlast
        obtain ⟨hnew', hrest'⟩ := List.nodup_cons.1 hrest
        rw [List.foldl_cons, List.foldl_cons, mergeKey_back hkey hlast,
          List.filter_cons_of_neg (by simpa using hkey),
          List.filter_cons_of_neg (by simpa using hmem)] at h
        exact ⟨[key, last], rest, rfl, fresh_of_kept hlast hnew' hrest' h,
          .inr ⟨last, hlast, .inr ⟨key, hkey, rfl⟩⟩⟩
    · have hbehind := fresh_of_kept List.getLast?_concat hnew hrest ((kept_cons_iff hkey hnew).1 h)
      refine ⟨[], key :: more, rfl, fun k hk => ?_, .inl rfl⟩
      rcases List.mem_cons.1 hk with rfl | hk
      · exact hkey
      · exact fun hmem => hbehind k hk (List.mem_append_left _ hmem)

/-! ### Keys of members -/

namespace Value

variable {base overlay : Members Value}

/-- One member is merged: the keys have their turn. -/
theorem keys_insert_swapRemove (hbase : base.Distinct) (key : String) (v : Value) :
    ((base.swapRemove key).insert key v).keys = mergeKey base.keys key := by
  rw [insert_swapRemove hbase, Members.keys_append]
  by_cases hkey : key ∈ base.keys
  · obtain ⟨front, w, rest, rfl, hfront⟩ := Members.exists_split hkey
    rw [Members.swapRemove_front hfront]
    rcases rest.eq_nil_or_concat' with rfl | ⟨rest, ⟨last, u⟩, rfl⟩
    · have hlast : Members.keys (front ++ [(key, w)]) = front.keys ++ [key] := Members.keys_append _ _
      rw [hlast, mergeKey_last List.getLast?_concat, List.getLast?_nil, List.append_nil]
      rfl
    · have hkeys : Members.keys (front ++ (key, w) :: (rest ++ [(last, u)])) =
          front.keys ++ key :: Members.keys rest ++ [last] := by simp [Members.keys]
      have hdistinct : (front.keys ++ key :: Members.keys rest ++ [last]).Nodup := hkeys ▸ hbase
      obtain ⟨hrest, hnew⟩ : key ∉ Members.keys rest ∧
          last ∉ front.keys ++ key :: Members.keys rest :=
        ⟨(List.nodup_cons.1 hdistinct.of_append_left.of_append_right).1,
          (List.nodup_cons.1 (List.nodup_append_comm.1 hdistinct)).1⟩
      simp only [List.mem_append, List.mem_cons, not_or] at hnew
      obtain ⟨hfront', -, hrest'⟩ := hnew
      rw [hkeys, mergeKey_of_mem (by simp) List.getLast?_concat, List.map_append, List.map_append,
        List.map_cons, map_swap_of_not_mem hfront hfront', map_swap_of_not_mem hrest hrest',
        Equiv.swap_apply_left, List.map_singleton, Equiv.swap_apply_right, List.getLast?_concat]
      simp [Members.keys]
  · rw [Members.swapRemove_of_not_mem hkey, mergeKey_of_not_mem hkey]
    rfl

theorem keys_mergeMembers (hbase : base.Distinct) (overlay : Members Value) :
    Members.keys (mergeMembers base overlay) = overlay.keys.foldl mergeKey base.keys := by
  induction overlay generalizing base with
  | nil => rfl
  | cons m overlay ih =>
    show Members.keys (mergeMembers ((base.swapRemove m.1).insert m.1 _) overlay) = _
    rw [ih (distinct_insert_swapRemove hbase _), keys_insert_swapRemove hbase]
    rfl

theorem keys_mergeMembers_perm (hbase : base.Distinct) (hoverlay : overlay.Distinct) :
    (Members.keys (mergeMembers base overlay)).Perm (base.extend overlay).keys := by
  have hunion : (base.extend overlay).keys.Nodup := by
    rw [Members.keys_extend hoverlay]
    refine List.nodup_append.2 ⟨hbase, hoverlay.filter _, fun k hk j hj heq => ?_⟩
    exact of_decide_eq_true (List.mem_filter.1 hj).2 (heq ▸ hk)
  refine (List.perm_ext_iff_of_nodup (mergeMembers_distinct hbase overlay) hunion).2 fun key => ?_
  rw [mem_keys_mergeMembers hbase hoverlay, Members.keys_extend hoverlay, List.mem_append,
    List.mem_filter, decide_eq_true_eq]
  tauto

/-! ### Objects inside objects -/

/-- The value at the end of a path of keys. -/
def within? (v : Value) : List String → Option Value
  | [] => some v
  | key :: path =>
    match v with
    | .object members => (Members.get? members key).bind fun inner => inner.within? path
    | _ => none

theorem within?_cons_eq_some {v w : Value} {key : String} {path : List String}
    (h : v.within? (key :: path) = some w) :
    ∃ (members : Members Value) (inner : Value),
      v = .object members ∧ members.get? key = some inner ∧ inner.within? path = some w := by
  cases v with
  | object members =>
    obtain ⟨inner, hinner, hw⟩ := Option.bind_eq_some_iff.1 h
    exact ⟨members, inner, rfl, hinner, hw⟩
  | _ => cases h

theorem within?_proper {v w : Value} (hv : v.Proper) {path : List String} (h : v.within? path = some w) :
    w.Proper := by
  induction path generalizing v with
  | nil => exact Option.some.inj h ▸ hv
  | cons key path ih =>
    obtain ⟨members, inner, rfl, hinner, hw⟩ := within?_cons_eq_some h
    exact ih (hv.member (Members.mem_of_get?_eq_some hinner)) hw

/-- Two objects at the end of one path are merged there. -/
theorem within?_mergeValue {v w : Value} (hv : v.Proper) (hw : w.Proper) {path : List String}
    {x y : Members Value} (hx : v.within? path = some (.object x)) (hy : w.within? path = some (.object y)) :
    (mergeValue (some v) w).within? path = some (.object (mergeMembers x y)) := by
  induction path generalizing v w with
  | nil =>
    obtain rfl := Option.some.inj hx
    obtain rfl := Option.some.inj hy
    rfl
  | cons key path ih =>
    obtain ⟨ms, v', rfl, hv', hx⟩ := within?_cons_eq_some hx
    obtain ⟨ns, w', rfl, hw', hy⟩ := within?_cons_eq_some hy
    have hinner := ih (hv.member (Members.mem_of_get?_eq_some hv'))
      (hw.member (Members.mem_of_get?_eq_some hw')) hx hy
    have hfound := get?_mergeMembers_of_some hv.self hw.self hw'
    rw [hv'] at hfound
    rw [mergeValue_objects, within?, hfound]
    exact hinner

/-- **Products and the order of keys.**  At every path where both factors have an object the product has
the product of the two, with the keys of their union.  They stand in the order of the union, the keys of the
first object and then the new ones, exactly if the second object has the keys of the first one in front of
its others, and these are none, the last key of the first object, or another one and then the last one. -/
theorem product_keeps_order_iff {a b : Members Value} (ha : (Value.object a).Proper)
    (hb : (Value.object b).Proper) {path : List String} {x y : Members Value}
    (hx : (Value.object a).within? path = some (.object x))
    (hy : (Value.object b).within? path = some (.object y)) :
    ∃ (product : Value) (merged union : Members Value),
      (Value.object a).multiply (.object b) = .ok product ∧
      product.within? path = some (.object merged) ∧
      (Value.object x).multiply (.object y) = .ok (.object merged) ∧
      (Value.object x).add (.object y) = .ok (.object union) ∧
      union.keys = x.keys ++ y.keys.filter (· ∉ x.keys) ∧
      merged.keys.Perm union.keys ∧
      (merged.keys = union.keys ↔ KeepPlaces x.keys y.keys) := by
  have hxdistinct : x.Distinct := (within?_proper ha hx).self
  have hydistinct : y.Distinct := (within?_proper hb hy).self
  refine ⟨.object (mergeMembers a b), mergeMembers x y, x.extend y, rfl,
    within?_mergeValue ha hb hx hy, rfl, rfl, Members.keys_extend hydistinct,
    keys_mergeMembers_perm hxdistinct hydistinct, ?_⟩
  rw [Members.keys_extend hydistinct, keys_mergeMembers hxdistinct]
  exact foldl_mergeKey_eq_iff hydistinct

/-- `{"o": {"p": 1, "q": 2, "r": 3}} * {"o": {"q": 4, "r": 5, "s": 6}}`: inside, another key and then the
last one come in front of a new one. -/
theorem product_keeps_order_iff_inside :
    let a : Members Value := [("o", .object [("p", .ofNat 1), ("q", .ofNat 2), ("r", .ofNat 3)])]
    let b : Members Value := [("o", .object [("q", .ofNat 4), ("r", .ofNat 5), ("s", .ofNat 6)])]
    (Value.object a).Proper ∧ (Value.object b).Proper ∧
      ∃ (product : Value) (merged : Members Value),
        (Value.object a).multiply (.object b) = .ok product ∧
        product.within? ["o"] = some (.object merged) ∧ merged.keys = ["p", "q", "r", "s"] := by
  intro a b
  have hnumber (n : Nat) : Proper (.ofNat n) := .intro trivial nofun
  have ha : (Value.object a).Proper :=
    .object (by decide) (.object (by decide) ⟨hnumber _, hnumber _, hnumber _⟩)
  have hb : (Value.object b).Proper :=
    .object (by decide) (.object (by decide) ⟨hnumber _, hnumber _, hnumber _⟩)
  obtain ⟨product, merged, union, hproduct, hmerged, -, -, hunion, -, hiff⟩ :=
    product_keeps_order_iff ha hb (show (Value.object a).within? ["o"] = _ from rfl) rfl
  have hplaces : KeepPlaces ["p", "q", "r"] ["q", "r", "s"] :=
    ⟨["q", "r"], ["s"], rfl, by decide, .inr ⟨"r", rfl, .inr ⟨"q", by decide, rfl⟩⟩⟩
  exact ⟨ha, hb, product, merged, hproduct, hmerged, (hiff.2 hplaces).trans (hunion.trans (by decide))⟩

/-- **A product moves keys:** `{"a": 1, "b": 2} * {"a": 3}` has its keys in another order than
`{"a": 1, "b": 2} + {"a": 3}`. -/
theorem product_moves_keys :
    let a : Value := .object [("a", .ofNat 1), ("b", .ofNat 2)]
    let b : Value := .object [("a", .ofNat 3)]
    a.multiply b = .ok (.object [("b", .ofNat 2), ("a", .ofNat 3)]) ∧
      a.add b = .ok (.object [("a", .ofNat 3), ("b", .ofNat 2)]) ∧
      ¬ Members.keys [("b", Value.ofNat 2), ("a", .ofNat 3)] =
        Members.keys [("a", Value.ofNat 3), ("b", .ofNat 2)] :=
  ⟨rfl, rfl, by decide⟩

end Value

end JsonFilter.Json
