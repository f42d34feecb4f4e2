import JsonFilter.Json.Members
import Mathlib.Data.List.Nodup
import Mathlib.Data.String.Basic

/-!
# Members with distinct keys

Members are a list, and a list can hold a key twice.  Where it does not, what a key names is what stands
beside it, a new key goes to the end, and the order of the members does not matter to a lookup.

* **`Members.get?_eq_some_iff`** — with distinct keys a lookup finds what the list holds.
* **`Members.keys_sortByKey_eq_iff`** — sorted by key, two objects have the same list of keys exactly if
  they have the same set of keys.
* **`Members.forall₂_values_iff`** — with the same list of keys, to relate the values place by place is to
  relate them key by key.
* `Members.insert_new` — a new key goes to the end.
* **`Members.swapRemove_perm`** — to take a key out rearranges the members and takes one of them away.
* **`Members.keys_extend_eraseDups`**, **`Members.get?_extend`** — a union has the keys of the first object and
  behind them the new ones, and the last member that was put in for a key says what it names.
-/

namespace JsonFilter.Json.Members

variable {α β : Type} {ms : Members α} {ns : Members β} {key : String} {v : α}

/-- No key stands there twice. -/
def Distinct (ms : Members α) : Prop := ms.keys.Nodup

instance (ms : Members α) : Decidable ms.Distinct := inferInstanceAs (Decidable ms.keys.Nodup)

@[simp] theorem distinct_nil : Distinct ([] : Members α) := List.nodup_nil

theorem distinct_cons {m : String × α} : Distinct (m :: ms) ↔ m.1 ∉ ms.keys ∧ ms.Distinct :=
  List.nodup_cons

theorem mem_keys_of_mem (h : (key, v) ∈ ms) : key ∈ ms.keys := List.mem_map_of_mem h

theorem mem_values_of_mem (h : (key, v) ∈ ms) : v ∈ ms.values := List.mem_map_of_mem h

/-- What a lookup finds stands in the list. -/
theorem mem_of_get?_eq_some (h : ms.get? key = some v) : (key, v) ∈ ms := by
  induction ms with
  | nil => cases h
  | cons m rest ih =>
    obtain ⟨k, w⟩ := m
    rw [get?] at h
    by_cases hk : k = key
    · obtain rfl : w = v := by simpa [hk] using h
      exact hk ▸ .head _
    · rw [if_neg hk] at h
      exact .tail _ (ih h)

/-- **A lookup among distinct keys** finds exactly what stands beside the key. -/
theorem get?_eq_some_iff (hdistinct : ms.Distinct) : ms.get? key = some v ↔ (key, v) ∈ ms := by
  refine ⟨mem_of_get?_eq_some, fun h => ?_⟩
  induction ms with
  | nil => cases h
  | cons m rest ih =>
    obtain ⟨hnew, hrest⟩ := distinct_cons.1 hdistinct
    rcases List.mem_cons.1 h with rfl | htail
    · exact if_pos rfl
    · have hk : m.1 ≠ key := fun heq => hnew (heq ▸ mem_keys_of_mem htail)
      exact (if_neg hk).trans (ih hrest htail)

/-- The key in the middle does not stand in front of itself. -/
theorem not_mem_keys_of_distinct {more : Members α} (h : Distinct (ms ++ [(key, v)] ++ more)) :
    key ∉ ms.keys := by
  rw [Distinct, keys, List.map_append, List.map_append] at h
  intro hmem
  exact List.disjoint_of_nodup_append h.of_append_left hmem (.head _)

/-- A new key goes to the end. -/
theorem insert_new (hnew : key ∉ ms.keys) : ms.insert key v = ms ++ [(key, v)] := by
  induction ms with
  | nil => rfl
  | cons m rest ih =>
    have hk : m.1 ≠ key := fun heq => hnew (heq ▸ .head _)
    have hrest : key ∉ keys rest := fun h => hnew (.tail _ h)
    show (if m.1 = key then _ else _) = _
    rw [if_neg hk, ih hrest]
    rfl

/-- **Values by place and by key.**  Between two lists of members with the same distinct keys, place by
place, the values are related in their order exactly if the values of every key are. -/
theorem forall₂_values_iff {R : α → β → Prop} (hm : ms.Distinct) (hn : ns.Distinct)
    (hkeys : ms.keys = ns.keys) :
    List.Forall₂ R ms.values ns.values ↔ ∀ key v w, (key, v) ∈ ms → (key, w) ∈ ns → R v w := by
  induction ms generalizing ns with
  | nil =>
    obtain rfl : ns = [] := List.map_eq_nil_iff.1 hkeys.symm
    exact ⟨fun _ _ _ _ h => (nomatch h), fun _ => .nil⟩
  | cons m ms ih =>
    cases ns with
    | nil => cases hkeys
    | cons n ns =>
      obtain ⟨hkey, htails⟩ : m.1 = n.1 ∧ keys ms = keys ns := List.cons.inj hkeys
      obtain ⟨hnewm, hms⟩ := distinct_cons.1 hm
      obtain ⟨hnewn, hns⟩ := distinct_cons.1 hn
      show List.Forall₂ R (m.2 :: values ms) (n.2 :: values ns) ↔ _
      rw [List.forall₂_cons, ih hms hns htails]
      constructor
      · rintro ⟨hhead, hrest⟩ key v w hv hw
        rcases List.mem_cons.1 hv with rfl | hv
        · rcases List.mem_cons.1 hw with rfl | hw
          · exact hhead
          · exact absurd (hkey ▸ mem_keys_of_mem hw) hnewn
        · rcases List.mem_cons.1 hw with rfl | hw
          · exact absurd (hkey ▸ mem_keys_of_mem hv) hnewm
          · exact hrest key v w hv hw
      · intro h
        exact ⟨h m.1 m.2 n.2 (.head _) (by rw [hkey]; exact .head _),
          fun key v w hv hw => h key v w (.tail _ hv) (.tail _ hw)⟩

/-! ### Members in the order of their keys -/

theorem sortByKey_perm (ms : Members α) : ms.sortByKey.Perm ms := List.mergeSort_perm _ _

theorem mem_sortByKey {m : String × α} : m ∈ ms.sortByKey ↔ m ∈ ms := (sortByKey_perm ms).mem_iff

theorem keys_sortByKey_perm (ms : Members α) : ms.sortByKey.keys.Perm ms.keys :=
  (sortByKey_perm ms).map Prod.fst

theorem distinct_sortByKey : ms.sortByKey.Distinct ↔ ms.Distinct :=
  (keys_sortByKey_perm ms).nodup_iff

theorem keys_sortByKey_sorted (ms : Members α) : ms.sortByKey.keys.Pairwise (· ≤ ·) := by
  have htrans (a b c : String × α) (hab : decide (a.1 ≤ b.1) = true)
      (hbc : decide (b.1 ≤ c.1) = true) : decide (a.1 ≤ c.1) = true :=
    decide_eq_true (le_trans (of_decide_eq_true hab) (of_decide_eq_true hbc))
  have htotal (a b : String × α) : (decide (a.1 ≤ b.1) || decide (b.1 ≤ a.1)) = true := by
    simpa using le_total a.1 b.1
  exact List.pairwise_map.2
    ((List.pairwise_mergeSort htrans htotal ms).imp fun h => of_decide_eq_true h)

/-- **Sorted keys.**  Two objects with distinct keys have the same keys in the same order, once they are
sorted, exactly if they have the same keys. -/
theorem keys_sortByKey_eq_iff (hm : ms.Distinct) (hn : ns.Distinct) :
    ms.sortByKey.keys = ns.sortByKey.keys ↔ ∀ key, key ∈ ms.keys ↔ key ∈ ns.keys := by
  constructor
  · intro heq key
    rw [← (keys_sortByKey_perm ms).mem_iff, heq, (keys_sortByKey_perm ns).mem_iff]
  · intro hsame
    have hperm : ms.sortByKey.keys.Perm ns.sortByKey.keys :=
      (keys_sortByKey_perm ms).trans
        (((List.perm_ext_iff_of_nodup hm hn).2 hsame).trans (keys_sortByKey_perm ns).symm)
    exact hperm.eq_of_pairwise (fun _ _ _ _ => le_antisymm) (keys_sortByKey_sorted ms)
      (keys_sortByKey_sorted ns)

/-- What the keys name may be replaced before or after the sort. -/
theorem sortByKey_map (ms : Members α) (f : α → β) :
    sortByKey (ms.map fun m => (m.1, f m.2)) = ms.sortByKey.map fun m => (m.1, f m.2) :=
  (List.map_mergeSort (f := fun m : String × α => (m.1, f m.2)) fun _ _ _ _ => rfl).symm

/-! ### Keys taken out and put in -/

/-- The order of members with distinct keys does not matter to a lookup. -/
theorem get?_perm {ns : Members α} (hperm : ms.Perm ns) (hdistinct : ms.Distinct) :
    ms.get? key = ns.get? key := by
  have hdistinct' : ns.Distinct := (hperm.map Prod.fst).nodup_iff.1 hdistinct
  ext v
  rw [get?_eq_some_iff hdistinct, get?_eq_some_iff hdistinct', hperm.mem_iff]

theorem get?_eq_none_iff : ms.get? key = none ↔ key ∉ ms.keys := by
  induction ms with
  | nil => exact ⟨fun _ => List.not_mem_nil, fun _ => rfl⟩
  | cons m rest ih =>
    show (if m.1 = key then some m.2 else get? rest key) = none ↔ key ∉ m.1 :: keys rest
    by_cases hk : m.1 = key
    · simp [hk]
    · rw [if_neg hk, ih, List.mem_cons, not_or, and_iff_right (Ne.symm hk)]

/-- A key that names something stands behind others. -/
theorem exists_split (hkey : key ∈ ms.keys) :
    ∃ front v rest, ms = front ++ (key, v) :: rest ∧ key ∉ keys front := by
  induction ms with
  | nil => cases hkey
  | cons m ms ih =>
    by_cases hk : m.1 = key
    · exact ⟨[], m.2, ms, by rw [← hk]; rfl, List.not_mem_nil⟩
    · obtain ⟨front, v, rest, rfl, hnew⟩ := ih ((List.mem_cons.1 hkey).resolve_left (Ne.symm hk))
      exact ⟨m :: front, v, rest, rfl, List.not_mem_cons_of_ne_of_not_mem (Ne.symm hk) hnew⟩

/-- A key that is not there cannot be taken out. -/
theorem swapRemove_of_not_mem (hnew : key ∉ ms.keys) : ms.swapRemove key = ms := by
  induction ms with
  | nil => rfl
  | cons m rest ih =>
    obtain ⟨hk, hrest⟩ := List.ne_and_not_mem_of_not_mem_cons hnew
    show (if m.1 = key then _ else _) = _
    rw [if_neg (Ne.symm hk), ih hrest]

/-- What stands in front of a key stays in front when it is taken out. -/
theorem swapRemove_front (hnew : key ∉ ms.keys) (rest : Members α) :
    swapRemove (ms ++ (key, v) :: rest) key =
      ms ++ match rest.getLast? with
        | some last => last :: rest.dropLast
        | none => [] := by
  induction ms with
  | nil => exact if_pos rfl
  | cons m front ih =>
    obtain ⟨hk, hfront⟩ := List.ne_and_not_mem_of_not_mem_cons hnew
    show (if m.1 = key then _ else m :: swapRemove (front ++ (key, v) :: rest) key) = _
    rw [if_neg (Ne.symm hk), ih hfront]
    rfl

/-- **To take a key out** takes its member away and rearranges the others. -/
theorem swapRemove_perm (hv : (key, v) ∈ ms) (hdistinct : ms.Distinct) :
    ms.Perm ((key, v) :: ms.swapRemove key) := by
  obtain ⟨front, rest, rfl⟩ := List.append_of_mem hv
  have hnew : key ∉ keys front := by
    have hwhole : Distinct (front ++ [(key, v)] ++ rest) := by rwa [List.append_assoc]
    exact not_mem_keys_of_distinct hwhole
  rw [swapRemove_front hnew]
  refine List.perm_middle.trans (.cons _ (.append_left _ ?_))
  rcases rest.eq_nil_or_concat' with rfl | ⟨rest, last, rfl⟩
  · exact .nil
  · rw [List.getLast?_concat, List.dropLast_concat]
    exact List.perm_append_singleton last rest

theorem swapRemove_keys_perm (hkey : key ∈ ms.keys) (hdistinct : ms.Distinct) :
    ms.keys.Perm (key :: (ms.swapRemove key).keys) := by
  obtain ⟨⟨_, v⟩, hv, rfl⟩ := List.mem_map.1 hkey
  exact (swapRemove_perm hv hdistinct).map Prod.fst

/-- What is left has distinct keys, and the key is not among them. -/
theorem swapRemove_distinct (hdistinct : ms.Distinct) :
    (ms.swapRemove key).Distinct ∧ key ∉ (ms.swapRemove key).keys := by
  by_cases hkey : key ∈ ms.keys
  · have hleft := (swapRemove_keys_perm hkey hdistinct).nodup_iff.1 hdistinct
    exact ⟨hleft.of_cons, (List.nodup_cons.1 hleft).1⟩
  · rw [swapRemove_of_not_mem hkey]
    exact ⟨hdistinct, hkey⟩

/-- The other keys name what they named before. -/
theorem get?_swapRemove (hdistinct : ms.Distinct) {other : String} (hne : key ≠ other) :
    (ms.swapRemove key).get? other = ms.get? other := by
  by_cases hkey : key ∈ ms.keys
  · obtain ⟨⟨_, v⟩, hv, rfl⟩ := List.mem_map.1 hkey
    rw [get?_perm (swapRemove_perm hv hdistinct) hdistinct]
    exact (if_neg hne).symm
  · rw [swapRemove_of_not_mem hkey]

theorem keys_append (ms ns : Members α) : keys (ms ++ ns) = ms.keys ++ ns.keys := List.map_append

/-- A key that is there stays in its place. -/
theorem keys_insert_of_mem (hkey : key ∈ ms.keys) : (ms.insert key v).keys = ms.keys := by
  induction ms with
  | nil => cases hkey
  | cons m rest ih =>
    show keys (if m.1 = key then _ else _) = _
    by_cases hk : m.1 = key
    · rw [if_pos hk, ← hk]
      rfl
    · have hrest : key ∈ keys rest := (List.mem_cons.1 hkey).resolve_left (Ne.symm hk)
      rw [if_neg hk]
      exact congrArg (m.1 :: ·) (ih hrest)

/-! ### Unions -/

theorem extend_nil (ms : Members α) : ms.extend [] = ms := rfl

theorem extend_cons (ms : Members α) (m : String × α) (more : Members α) :
    ms.extend (m :: more) = (ms.insert m.1 m.2).extend more := rfl

/-- **The keys of a union:** those of the first object, and behind them the new ones in the order in which
they come first. -/
theorem keys_extend_eraseDups (ms more : Members α) :
    (ms.extend more).keys = ms.keys ++ (more.keys.filter (· ∉ ms.keys)).eraseDups := by
  induction more generalizing ms with
  | nil => exact (List.append_nil _).symm
  | cons m more ih =>
    show (extend (ms.insert m.1 m.2) more).keys = ms.keys ++ ((m.1 :: keys more).filter _).eraseDups
    rw [ih]
    by_cases hkey : m.1 ∈ ms.keys
    · rw [keys_insert_of_mem hkey, List.filter_cons_of_neg (by simpa using hkey)]
    · have hrest : (keys more).filter (· ∉ (ms.insert m.1 m.2).keys) =
          ((keys more).filter (· ∉ ms.keys)).filter fun k => !k == m.1 := by
        rw [List.filter_filter, insert_new hkey, keys_append]
        refine List.filter_congr fun k _ => Bool.eq_iff_iff.2 ?_
        rw [Bool.and_eq_true, decide_eq_true_iff, decide_eq_true_iff, List.mem_append, not_or, and_comm]
        exact and_congr_left' (by simp [keys])
      rw [hrest, insert_new hkey, keys_append, List.filter_cons_of_pos (by simpa using hkey),
        List.eraseDups_cons, List.append_assoc]
      rfl

theorem lookup_eq_get? (ms : Members α) (key : String) : ms.lookup key = ms.get? key := by
  induction ms with
  | nil => rfl
  | cons m rest ih =>
    rw [List.lookup_cons, get?, ih]
    by_cases hkey : m.1 = key
    · simp [hkey]
    · simp [hkey, beq_false_of_ne (Ne.symm hkey)]

/-- **What a key names in a union:** what the last of the members put in names, or what the first object
names. -/
theorem get?_extend (ms more : Members α) (key : String) :
    (ms.extend more).get? key = (more.reverse.lookup key).or (ms.get? key) := by
  induction more generalizing ms with
  | nil => rfl
  | cons m more ih =>
    rw [extend_cons, ih, get?_insert, List.reverse_cons, List.lookup_append, lookup_eq_get? [m],
      Option.or_assoc]
    congr 1
    by_cases hkey : m.1 = key
    · simp [get?, hkey]
    · simp [get?, hkey]

theorem distinct_insert (hdistinct : ms.Distinct) : (ms.insert key v).Distinct := by
  by_cases hkey : key ∈ ms.keys
  · rw [Distinct, keys_insert_of_mem hkey]
    exact hdistinct
  · rw [insert_new hkey, Distinct, keys_append]
    exact List.nodup_append_comm.1 (List.nodup_cons.2 ⟨hkey, hdistinct⟩)

theorem distinct_extend (hdistinct : ms.Distinct) (more : Members α) : (ms.extend more).Distinct := by
  induction more generalizing ms with
  | nil => exact hdistinct
  | cons m more ih => exact ih (distinct_insert hdistinct)

/-- Among distinct keys none comes a second time. -/
theorem eraseDups_of_nodup {keys : List String} (h : keys.Nodup) : keys.eraseDups = keys := by
  induction keys with
  | nil => rfl
  | cons k keys ih =>
    obtain ⟨hnew, hkeys⟩ := List.nodup_cons.1 h
    have hkept : keys.filter (fun other => !other == k) = keys :=
      List.filter_eq_self.2 fun other hother => by
        have hne : other ≠ k := fun heq => hnew (heq ▸ hother)
        simpa using hne
    rw [List.eraseDups_cons, hkept, ih hkeys]

/-- The keys of a union with an object whose keys are distinct. -/
theorem keys_extend {more : Members α} (hdistinct : more.Distinct) :
    (ms.extend more).keys = ms.keys ++ more.keys.filter (· ∉ ms.keys) := by
  rw [keys_extend_eraseDups, eraseDups_of_nodup (hdistinct.filter _)]

/-- With distinct keys what the second object names comes first. -/
theorem get?_extend_of_distinct {more : Members α} (hdistinct : more.Distinct) (ms : Members α)
    (key : String) : (ms.extend more).get? key = (more.get? key).or (ms.get? key) := by
  have hreverse : more.get? key = get? more.reverse key :=
    get?_perm (List.reverse_perm more).symm hdistinct
  rw [get?_extend, lookup_eq_get?, hreverse]

/-- Members with distinct keys are their keys in order and what the keys name. -/
theorem eq_of_get?_eq {ns : Members α} (hdistinct : ms.Distinct) (hkeys : ms.keys = ns.keys)
    (hnames : ∀ key, ms.get? key = ns.get? key) : ms = ns := by
  have hdistinct' : ns.Distinct := by rwa [Distinct, ← hkeys]
  have hvalues : ms.values = ns.values := by
    refine List.forall₂_eq_eq_eq ▸ (forall₂_values_iff hdistinct hdistinct' hkeys).2 ?_
    intro key v w hv hw
    have hname := hnames key
    rw [(get?_eq_some_iff hdistinct).2 hv, (get?_eq_some_iff hdistinct').2 hw] at hname
    exact Option.some.inj hname
  calc ms = ms.keys.zip ms.values := List.zip_of_prod rfl rfl
    _ = ns.keys.zip ns.values := by rw [hkeys, hvalues]
    _ = ns := (List.zip_of_prod rfl rfl).symm

/-- **Unions are associative,** the order of the members included. -/
theorem extend_assoc {ms more others : Members α} (hms : ms.Distinct) (hmore : more.Distinct)
    (hothers : others.Distinct) :
    (ms.extend more).extend others = ms.extend (more.extend others) := by
  have hunion : (more.extend others).Distinct := distinct_extend hmore others
  refine eq_of_get?_eq (distinct_extend (distinct_extend hms more) others) ?_ fun key => ?_
  · have hnew : others.keys.filter (· ∉ ms.keys ++ more.keys.filter (· ∉ ms.keys)) =
        (others.keys.filter (· ∉ more.keys)).filter (· ∉ ms.keys) := by
      rw [List.filter_filter]
      refine List.filter_congr fun key _ => Bool.eq_iff_iff.2 ?_
      rw [Bool.and_eq_true, decide_eq_true_iff, decide_eq_true_iff, decide_eq_true_iff,
        List.mem_append, List.mem_filter, decide_eq_true_iff]
      tauto
    rw [keys_extend hothers, keys_extend hmore, keys_extend hunion, keys_extend hothers, hnew,
      List.filter_append, List.append_assoc]
  · rw [get?_extend_of_distinct hothers, get?_extend_of_distinct hmore, get?_extend_of_distinct hunion,
      get?_extend_of_distinct hothers, Option.or_assoc]

end JsonFilter.Json.Members
