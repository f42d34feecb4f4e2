import JsonFilter.Json.Arithmetic
import JsonFilter.Proofs.Json.Parts

/-!
# Products of objects

The product of two objects puts the members of the second one into the first one after the other.  Each
key is first taken out, and the last member moves into the gap, so that the members are on the move all the
time.  What a key names is not: a lookup in an object with distinct keys goes by what the object holds.

* **`get?_mergeMembers`** — what a key names in a product depends on what it names in the two factors, and
  on nothing else.
* `proper_mergeValue` — a product of values of JSON is one.
* `Value.Rearranged` — the same keys name the same, at every depth, in whatever order they stand.
* **`product_is_pointwise`** — the product by keys, the laws for equal and for empty factors.
-/

namespace JsonFilter.Json
namespace Value

variable {base overlay : Members Value} {key : String}

/-! ### One member -/

/-- A key that is taken out and put back stands at the end, once. -/
theorem insert_swapRemove (hbase : base.Distinct) (v : Value) :
    (base.swapRemove key).insert key v = base.swapRemove key ++ [(key, v)] :=
  Members.insert_new (Members.swapRemove_distinct hbase).2

theorem distinct_insert_swapRemove (hbase : base.Distinct) (v : Value) :
    ((base.swapRemove key).insert key v).Distinct := by
  obtain ⟨hleft, hnew⟩ : (base.swapRemove key).Distinct ∧ key ∉ (base.swapRemove key).keys :=
    Members.swapRemove_distinct hbase
  rw [Members.insert_new hnew, Members.Distinct, Members.keys_append]
  exact List.nodup_append_comm.1 (List.nodup_cons.2 ⟨hnew, hleft⟩)

/-! ### All members -/

theorem mergeMembers_distinct (hbase : base.Distinct) (overlay : Members Value) :
    Members.Distinct (mergeMembers base overlay) := by
  induction overlay generalizing base with
  | nil => exact hbase
  | cons m overlay ih => exact ih (distinct_insert_swapRemove hbase _)

/-- **What a key names in a product:** what it names in the first factor, changed by what it names in the
second one. -/
theorem get?_mergeMembers (hbase : base.Distinct) (hoverlay : overlay.Distinct) (key : String) :
    Members.get? (mergeMembers base overlay) key =
      match overlay.get? key with
      | some v => some (mergeValue (base.get? key) v)
      | none => base.get? key := by
  induction overlay generalizing base with
  | nil => rfl
  | cons m overlay ih =>
    obtain ⟨k, v⟩ := m
    obtain ⟨hnew, hrest⟩ := Members.distinct_cons.1 hoverlay
    show Members.get? (mergeMembers ((base.swapRemove k).insert k _) overlay) key = _
    rw [ih (distinct_insert_swapRemove hbase _) hrest, Members.get?_insert, Members.get?]
    by_cases hk : k = key
    · -- The key comes no second time.
      subst hk
      rw [Members.get?_eq_none_iff.2 hnew, if_pos rfl, if_pos rfl]
    · rw [if_neg hk, if_neg hk, Members.get?_swapRemove hbase hk]

theorem get?_mergeMembers_of_some (hbase : base.Distinct) (hoverlay : overlay.Distinct) {v : Value}
    (h : overlay.get? key = some v) :
    Members.get? (mergeMembers base overlay) key = some (mergeValue (base.get? key) v) := by
  rw [get?_mergeMembers hbase hoverlay, h]

theorem get?_mergeMembers_of_none (hbase : base.Distinct) (hoverlay : overlay.Distinct)
    (h : overlay.get? key = none) :
    Members.get? (mergeMembers base overlay) key = base.get? key := by
  rw [get?_mergeMembers hbase hoverlay, h]

/-- The keys of a product are those of its factors. -/
theorem mem_keys_mergeMembers (hbase : base.Distinct) (hoverlay : overlay.Distinct) :
    key ∈ Members.keys (mergeMembers base overlay) ↔ key ∈ base.keys ∨ key ∈ overlay.keys := by
  rw [← not_iff_not, not_or, ← Members.get?_eq_none_iff, ← Members.get?_eq_none_iff,
    ← Members.get?_eq_none_iff]
  cases h : overlay.get? key with
  | some v => simp [get?_mergeMembers_of_some hbase hoverlay h]
  | none => simp [get?_mergeMembers_of_none hbase hoverlay h]

/-- Members with new keys only are put behind the others. -/
theorem mergeMembers_fresh (hoverlay : overlay.Distinct) (hfresh : ∀ k ∈ overlay.keys, k ∉ base.keys) :
    mergeMembers base overlay = base ++ overlay := by
  induction overlay generalizing base with
  | nil => exact (List.append_nil base).symm
  | cons m overlay ih =>
    obtain ⟨k, v⟩ := m
    obtain ⟨hnew, hrest⟩ := Members.distinct_cons.1 hoverlay
    have hk : k ∉ base.keys := hfresh k (.head _)
    have hv : mergeValue (base.get? k) v = v := by
      rw [Members.get?_eq_none_iff.2 hk]
      cases v <;> rfl
    show mergeMembers ((base.swapRemove k).insert k (mergeValue (base.get? k) v)) overlay = _
    rw [hv, Members.swapRemove_of_not_mem hk, Members.insert_new hk, ih hrest, List.append_assoc]
    · rfl
    · intro other hother hmem
      rw [Members.keys_append] at hmem
      rcases List.mem_append.1 hmem with hold | hsame
      · exact hfresh other (.tail _ hother) hold
      · exact hnew (List.mem_singleton.1 hsame ▸ hother)

/-! ### Values -/

/-- Two objects under one key are merged. -/
theorem mergeValue_objects (ms ns : Members Value) :
    mergeValue (some (.object ms)) (.object ns) = .object (mergeMembers ms ns) := rfl

/-- Where there are no two objects, the new value stands. -/
theorem mergeValue_eq {existing : Option Value} {v : Value}
    (h : ∀ ms ns, existing = some (.object ms) → v ≠ .object ns) : mergeValue existing v = v := by
  cases v with
  | object ns =>
    match existing with
    | some (.object ms) => exact absurd rfl (h ms ns rfl)
    | none | some .null | some (.bool _) | some (.number _) | some (.string _) | some (.array _) => rfl
  | _ => rfl

/-- **Products of values of JSON are values of JSON.** -/
theorem proper_mergeValue {existing : Option Value} {v : Value} (hexisting : ∀ w ∈ existing, w.Proper)
    (hv : v.Proper) : (mergeValue existing v).Proper := by
  induction v using Value.induction generalizing existing with
  | step v ih =>
    by_cases hobjects : ∃ ms ns, existing = some (.object ms) ∧ v = .object ns
    · obtain ⟨ms, ns, rfl, rfl⟩ := hobjects
      have hms : (Value.object ms).Proper := hexisting _ rfl
      rw [mergeValue_objects]
      refine .intro (mergeMembers_distinct hms.self ns) fun x hx => ?_
      obtain ⟨⟨key, _⟩, hmem, rfl⟩ := List.mem_map.1 hx
      have hfound := (Members.get?_eq_some_iff (mergeMembers_distinct hms.self ns)).2 hmem
      cases hnew : Members.get? ns key with
      | none =>
        rw [get?_mergeMembers_of_none hms.self hv.self hnew] at hfound
        exact hms.member (Members.mem_of_get?_eq_some hfound)
      | some w =>
        have hw := Members.mem_of_get?_eq_some hnew
        rw [get?_mergeMembers_of_some hms.self hv.self hnew] at hfound
        obtain rfl := Option.some.inj hfound
        exact ih w (Members.mem_values_of_mem hw)
          (fun x hx => hms.member (Members.mem_of_get?_eq_some hx)) (hv.member hw)
    · rw [mergeValue_eq fun ms ns hms hns => hobjects ⟨ms, ns, hms, hns⟩]
      exact hv

/-! ### Products with the order of keys aside -/

/-- The same but for the order of keys, in objects inside one another, too. -/
inductive Rearranged : Value → Value → Prop
  | refl (v : Value) : Rearranged v v
  | object {ms ns : Members Value} :
      (∀ key, key ∈ ms.keys ↔ key ∈ ns.keys) →
      (∀ (key : String) (v w : Value), ms.get? key = some v → ns.get? key = some w → Rearranged v w) →
      Rearranged (.object ms) (.object ns)

/-- A value merged into itself stays what it is. -/
theorem rearranged_mergeValue_self {v : Value} (hv : v.Proper) : Rearranged (mergeValue (some v) v) v := by
  induction v using Value.induction with
  | step v ih =>
    cases v with
    | object ms =>
      refine .object (fun key => ?_) fun key v w hfound hw => ?_
      · rw [mem_keys_mergeMembers hv.self hv.self, or_self]
      · have hmem := Members.mem_of_get?_eq_some hw
        rw [get?_mergeMembers_of_some hv.self hv.self hw, hw] at hfound
        obtain rfl := Option.some.inj hfound
        exact ih w (Members.mem_values_of_mem hmem) (hv.member hmem)
    | _ => exact .refl _

/-- **Products of objects are pointwise.**  A product has the keys of its factors.  A key that names objects
in both of them names their product, any other key of the second factor names what it names there, and the
keys that only the first one has name what they named.  A factor times itself is the factor, up to the
order of keys at every depth, and so is a factor times an empty object, from either side. -/
theorem product_is_pointwise {a b : Members Value} (ha : (Value.object a).Proper)
    (hb : (Value.object b).Proper) :
    (∃ m : Members Value, (Value.object a).multiply (.object b) = .ok (.object m) ∧
      (Value.object m).Proper ∧
      (∀ key, key ∈ m.keys ↔ key ∈ a.keys ∨ key ∈ b.keys) ∧
      ∀ key,
        match a.get? key, b.get? key with
        | some (.object x), some (.object y) =>
          ∃ z, (Value.object x).multiply (.object y) = .ok z ∧ m.get? key = some z
        | _, some v => m.get? key = some v
        | v, none => m.get? key = v) ∧
    (∃ v, (Value.object a).multiply (.object a) = .ok v ∧ v.Rearranged (.object a)) ∧
    (Value.object a).multiply (.object []) = .ok (.object a) ∧
    (Value.object []).multiply (.object b) = .ok (.object b) := by
  refine ⟨⟨mergeMembers a b, rfl, ?_, fun key => ?_, fun key => ?_⟩, ⟨_, rfl, ?_⟩, rfl, ?_⟩
  · have hproper : (mergeValue (some (.object a)) (.object b)).Proper :=
      proper_mergeValue (fun w hw => Option.some.inj hw ▸ ha) hb
    exact hproper
  · exact mem_keys_mergeMembers ha.self hb.self
  · split
    · next x y hx hy =>
      refine ⟨_, rfl, ?_⟩
      rw [get?_mergeMembers_of_some ha.self hb.self hy, hx]
      rfl
    · next v hy hobjects =>
      rw [get?_mergeMembers_of_some ha.self hb.self hy, mergeValue_eq]
      exact fun x y hx hv => hobjects x y hx hv
    · next hy => exact get?_mergeMembers_of_none ha.self hb.self hy
  · exact rearranged_mergeValue_self ha
  · have hfresh : mergeMembers [] b = [] ++ b :=
      mergeMembers_fresh hb.self fun _ _ => List.not_mem_nil
    rw [multiply, hfresh]
    rfl

/-- Objects under a key of both factors, an object in the place of a number, and a key that only the first
factor has, in front of the others. -/
theorem product_is_pointwise_nested :
    let inner : Value := .object [("p", .ofNat 1), ("q", .ofNat 2)]
    let a : Members Value := [("z", .array [inner]), ("x", inner), ("y", .ofNat 0)]
    let b : Members Value := [("x", .object [("p", .null), ("r", .ofNat 3)]), ("y", inner)]
    (Value.object a).Proper ∧ (Value.object b).Proper ∧
      (∃ m : Members Value, (Value.object a).multiply (.object b) = .ok (.object m) ∧
        (∀ key, key ∈ m.keys ↔ key ∈ a.keys ∨ key ∈ b.keys) ∧
        m.get? "x" = some (.object [("q", .ofNat 2), ("p", .null), ("r", .ofNat 3)]) ∧
        m.get? "y" = some inner ∧ m.get? "z" = some (.array [inner])) ∧
      (∃ v, (Value.object a).multiply (.object a) = .ok v ∧ v.Rearranged (.object a)) ∧
      (Value.object []).multiply (.object b) = .ok (.object b) := by
  intro inner a b
  have hnumber (n : Nat) : Proper (.ofNat n) := .intro trivial nofun
  have hnull : Proper .null := .intro trivial nofun
  have hinner : inner.Proper := .object (by decide) ⟨hnumber _, hnumber _⟩
  have ha : (Value.object a).Proper :=
    .object (by decide) ⟨.array hinner, hinner, hnumber _⟩
  have hb : (Value.object b).Proper :=
    .object (by decide) ⟨.object (by decide) ⟨hnull, hnumber _⟩, hinner⟩
  obtain ⟨⟨m, hm, -, hkeys, hnames⟩, hself, -, hempty⟩ := product_is_pointwise ha hb
  obtain ⟨z, hz, hx⟩ := hnames "x"
  obtain rfl := Except.ok.inj hz
  exact ⟨ha, hb, ⟨m, hm, hkeys, hx, hnames "y", hnames "z"⟩, hself, hempty⟩

end Value
end JsonFilter.Json
