import JsonFilter.Proofs.Json.Literals
import JsonFilter.Proofs.Json.Parts

/-!
# Values read back

The compact text of a value is read back as the value itself: the same items, the same members in the same
order, whatever characters its strings and keys have.

## Which values

Three conditions, each for a limit of the text form.  Numbers are whole and have 64 bits, since a float is
read the quick way; no object has a key twice, since the reader keeps one member for each key; and
containers nest no deeper than the reader follows them (`Value.nesting`).

## The readers of lists and objects

They count their turns (`readItemsFrom`, `readMembersFrom`).  Each turn takes at least a comma, so that the
length of the text is enough turns for all items.

* **`Value.takes_compact`** — the reader of values takes the text of a value from in front of anything that
  may follow a value.
* **`Value.ofText_compact`** — the whole text of a value gives the value.
-/

namespace JsonFilter.Json

variable {α β : Type} {text text' rest : List Char}

/-! ### Readers one after the other -/

namespace Takes

variable {read : Reader α} {a : α} {b : β}

theorem bind (next : α → Reader β) (h : Takes read text a (text' ++ rest))
    (hnext : Takes (next a) text' b rest) :
    Takes (fun i => read i >>= fun p => next p.1 p.2) (text ++ text') b rest := by
  intro place
  obtain ⟨between, hread⟩ := h place
  obtain ⟨place', hdone⟩ := hnext between
  refine ⟨place', ?_⟩
  show (read ⟨text ++ text' ++ rest, place⟩ >>= _) = _
  rw [List.append_assoc, hread]
  exact hdone

theorem map (f : α → β) (h : Takes read text a rest) :
    Takes (fun i => (read i).map fun p => (f p.1, p.2)) text (f a) rest := by
  intro place
  obtain ⟨place', hread⟩ := h place
  refine ⟨place', ?_⟩
  show (read ⟨text ++ rest, place⟩).map _ = _
  rw [hread]
  rfl

end Takes

/-- Nothing is skipped in front of a character that is no blank. -/
theorem Input.skipSpace_cons {c : Char} (h : isSpace c = false) (cs : List Char) (place : Place) :
    skipSpace ⟨c :: cs, place⟩ = ⟨c :: cs, place⟩ := by
  unfold skipSpace
  rw [List.takeWhile_cons, h, if_neg Bool.false_ne_true]
  rfl

namespace Value

/-! ### The values in question -/

mutual

/-- How deep the containers of a value nest. -/
def nesting : Value → Nat
  | .array items => itemsNesting items + 1
  | .object members => membersNesting members + 1
  | _ => 0

/-- The deepest nesting among items. -/
def itemsNesting : List Value → Nat
  | [] => 0
  | v :: rest => max (nesting v) (itemsNesting rest)

/-- The deepest nesting among members. -/
def membersNesting : List (String × Value) → Nat
  | [] => 0
  | (_, v) :: rest => max (nesting v) (membersNesting rest)

end

theorem nesting_le_itemsNesting {items : List Value} {v : Value} (h : v ∈ items) :
    v.nesting ≤ itemsNesting items := by
  induction items with
  | nil => cases h
  | cons w rest ih =>
    rw [itemsNesting]
    rcases List.mem_cons.1 h with rfl | hrest
    · exact Nat.le_max_left ..
    · exact Nat.le_trans (ih hrest) (Nat.le_max_right ..)

theorem nesting_le_membersNesting {members : List (String × Value)} {v : Value}
    (h : v ∈ Members.values members) : v.nesting ≤ membersNesting members := by
  induction members with
  | nil => cases h
  | cons m rest ih =>
    rw [membersNesting]
    rcases List.mem_cons.1 h with rfl | hrest
    · exact Nat.le_max_left ..
    · exact Nat.le_trans (ih hrest) (Nat.le_max_right ..)

/-- If the value is a number, it is whole and has 64 bits, signed or not. -/
def Whole64 : Value → Prop
  | .number (.integer i) => -(twoTo 63 : Int) ≤ i ∧ i < twoTo 64
  | .number (.float _) => False
  | _ => True

/-! ### How a text begins and ends -/

/-- A text that a value can begin with: no blank, and no bracket that ends a list. -/
def Begins (text : List Char) : Prop :=
  ∃ c cs, text = c :: cs ∧ Input.isSpace c = false ∧ c ≠ ']'

/-- The first character of a whole number. -/
theorem exists_first_digit (i : Int) :
    ∃ c cs, Number.text (.integer i) = c :: cs ∧ (c = '-' ∨ c.isDigit = true) := by
  rw [Number.text]
  by_cases hneg : i < 0
  · rw [if_pos hneg]
    exact ⟨'-', decimalDigits i.natAbs, rfl, .inl rfl⟩
  · rw [if_neg hneg, List.nil_append]
    obtain ⟨d, ds, hdigits⟩ := List.exists_cons_of_ne_nil (decimalDigits_ne_nil i.natAbs)
    have hmem : d ∈ decimalDigits i.natAbs := by
      rw [hdigits]
      exact .head _
    exact ⟨d, ds, hdigits, .inr (isDigit_of_mem_decimalDigits hmem)⟩

theorem isSpace_of_isDigit {c : Char} (h : c.isDigit = true) : Input.isSpace c = false := by
  have hne (d : Char) (hd : d.isDigit = false) : (c == d) = false := by
    rw [beq_eq_false_iff_ne]
    rintro rfl
    exact Bool.noConfusion (h.symm.trans hd)
  rw [Input.isSpace, hne ' ' rfl, hne '\n' rfl, hne '\t' rfl, hne '\r' rfl]
  rfl

theorem begins_compactChars {v : Value} (h : v.Whole64) : Begins v.compactChars := by
  match v, h with
  | .null, _ => exact ⟨'n', ['u', 'l', 'l'], by decide +kernel, rfl, by decide⟩
  | .bool true, _ => exact ⟨'t', ['r', 'u', 'e'], by decide +kernel, rfl, by decide⟩
  | .bool false, _ => exact ⟨'f', ['a', 'l', 's', 'e'], by decide +kernel, rfl, by decide⟩
  | .number (.integer i), _ =>
    obtain ⟨c, cs, htext, rfl | hdigit⟩ := exists_first_digit i
    · exact ⟨'-', cs, htext, rfl, by decide⟩
    · refine ⟨c, cs, htext, isSpace_of_isDigit hdigit, ?_⟩
      rintro rfl
      cases hdigit
  | .string s, _ => exact ⟨'"', _, rfl, rfl, by decide⟩
  | .array items, _ => exact ⟨'[', _, rfl, rfl, by decide⟩
  | .object members, _ => exact ⟨'\x7b', _, rfl, rfl, by decide⟩

theorem ends_compactItemsRest (items : List Value) (rest : List Char) :
    Ends (compactItemsRest items ++ rest) := by
  cases items with
  | nil => exact fun c hc => .inr (.inl (Option.some.inj hc).symm)
  | cons v items => exact fun c hc => .inl (Option.some.inj hc).symm

theorem ends_compactMembersRest (members : List (String × Value)) (rest : List Char) :
    Ends (compactMembersRest members ++ rest) := by
  cases members with
  | nil => exact fun c hc => .inr (.inr (Option.some.inj hc).symm)
  | cons m members => exact fun c hc => .inl (Option.some.inj hc).symm

theorem length_lt_compactItemsRest (items : List Value) :
    items.length < (compactItemsRest items).length := by
  induction items with
  | nil => exact Nat.one_pos
  | cons v items ih =>
    rw [compactItemsRest, List.length_cons, List.length_cons, List.length_append]
    omega

theorem length_lt_compactMembersRest (members : List (String × Value)) :
    members.length < (compactMembersRest members).length := by
  induction members with
  | nil => exact Nat.one_pos
  | cons m members ih =>
    rw [compactMembersRest, List.length_cons, List.length_cons, List.length_append, List.length_cons,
      List.length_append]
    omega

/-! ### Lists -/

section Lists

variable {item : Reader Value}

/-- An item behind a comma. -/
theorem readItemsFrom_comma (budget : Nat) (before : List Value) (hbegins : Begins text)
    (place : Place) :
    readItemsFrom item (budget + 1) before ⟨',' :: (text ++ rest), place⟩ =
      (item ⟨text ++ rest, place.advance ','⟩ >>= fun p =>
        readItemsFrom item budget (p.1 :: before) p.2) := by
  obtain ⟨c, cs, rfl, hspace, hclose⟩ := hbegins
  have hcomma := Input.skipSpace_cons (c := ',') rfl (c :: cs ++ rest) place
  have hitem := Input.skipSpace_cons hspace (cs ++ rest) (place.advance ',')
  have hdrop : Input.drop ⟨',' :: (c :: cs ++ rest), place⟩ 1 = ⟨c :: (cs ++ rest), place.advance ','⟩ := rfl
  rw [readItemsFrom, hcomma]
  dsimp only
  rw [hdrop, hitem]
  split
  · next heq => cases heq
  · next heq => cases heq
  · split
    · next heq => cases heq
    · next heq => exact absurd (List.cons.inj heq).1 hclose
    · rfl
  · next hother => exact absurd rfl (hother _)

/-- The items behind the first one, with a turn for each and one for the bracket. -/
theorem takes_itemsRest (rest : List Char) {items : List Value} (hbegins : ∀ v ∈ items, Begins v.compactChars)
    (hitems : ∀ v ∈ items, ∀ rest, Ends rest → Takes item v.compactChars v rest) {budget : Nat}
    (hbudget : items.length < budget) (before : List Value) :
    Takes (readItemsFrom item budget before) (compactItemsRest items) (before.reverse ++ items) rest := by
  induction items generalizing budget before with
  | nil =>
    obtain ⟨turns, rfl⟩ := Nat.exists_eq_succ_of_ne_zero (Nat.ne_of_gt hbudget)
    intro place
    refine ⟨place.advance ']', ?_⟩
    rw [List.append_nil]
    rfl
  | cons v items ih =>
    obtain ⟨turns, rfl⟩ := Nat.exists_eq_succ_of_ne_zero (Nat.ne_of_gt (Nat.zero_lt_of_lt hbudget))
    have hv := hitems v (.head _) _ (ends_compactItemsRest items rest)
    have hrest := ih (fun w hw => hbegins w (.tail _ hw)) (fun w hw => hitems w (.tail _ hw))
      (Nat.lt_of_succ_lt_succ hbudget) (v :: before)
    have hboth := hv.bind (fun w => readItemsFrom item turns (w :: before)) hrest
    intro place
    obtain ⟨place', hread⟩ := hboth (place.advance ',')
    refine ⟨place', ?_⟩
    rw [compactItemsRest, List.cons_append, List.append_assoc,
      readItemsFrom_comma turns before (hbegins v (.head _)), ← List.append_assoc]
    refine hread.trans ?_
    rw [List.reverse_cons, List.append_assoc]
    rfl

/-- **The items of a list,** behind its opening bracket. -/
theorem takes_items {items : List Value} (hbegins : ∀ v ∈ items, Begins v.compactChars)
    (hitems : ∀ v ∈ items, ∀ rest, Ends rest → Takes item v.compactChars v rest) :
    Takes (readItems item) (compactItems items) items rest := by
  cases items with
  | nil => exact fun place => ⟨place.advance ']', rfl⟩
  | cons v items =>
    intro place
    obtain ⟨between, hv⟩ := hitems v (.head _) _ (ends_compactItemsRest items rest) place
    have hbudget : items.length < (compactItemsRest items ++ rest).length + 1 := by
      have := length_lt_compactItemsRest items
      rw [List.length_append]
      omega
    obtain ⟨place', hrest⟩ := takes_itemsRest rest (fun w hw => hbegins w (.tail _ hw))
      (fun w hw => hitems w (.tail _ hw)) hbudget [v] between
    refine ⟨place', ?_⟩
    obtain ⟨c, cs, htext, hspace, hclose⟩ := hbegins v (.head _)
    have hskip := Input.skipSpace_cons hspace (cs ++ (compactItemsRest items ++ rest)) place
    rw [htext, List.cons_append] at hv
    rw [compactItems, List.append_assoc, htext, List.cons_append, readItems, hskip]
    dsimp only
    split
    · next heq => cases heq
    · next heq => exact absurd (List.cons.inj heq).1 hclose
    · rw [hv]
      exact hrest

end Lists

/-! ### Objects -/

section Objects

variable {value : Reader Value} {members : List (String × Value)}

/-- Reads the colon and the value of a key and puts them to the members read before. -/
def readMember (value : Reader Value) (before : Members Value) (key : String) : Reader (Members Value) :=
  fun i => do
    let (_, i) ← readColon i
    let (v, i) ← value i
    return (before.insert key v, i)

theorem takes_member (before : Members Value) {key : String} {v : Value} (hkey : key ∉ before.keys)
    (hv : Takes value v.compactChars v rest) :
    Takes (readMember value before key) (':' :: v.compactChars) (before ++ [(key, v)]) rest := by
  intro place
  obtain ⟨place', hread⟩ := hv (place.advance ':')
  refine ⟨place', ?_⟩
  show (value ⟨v.compactChars ++ rest, place.advance ':'⟩ >>= _) = _
  rw [hread, ← Members.insert_new hkey]
  rfl

/-- The members behind the first one, with a turn for each and one for the brace. -/
theorem takes_membersRest
    (hvalues : ∀ m ∈ members, ∀ rest, Ends rest → Takes value m.2.compactChars m.2 rest) {budget : Nat}
    (hbudget : members.length < budget) {before : Members Value}
    (hdistinct : Members.Distinct (before ++ members)) :
    Takes (readMembersFrom (readMember value) budget before) (compactMembersRest members)
      (before ++ members) rest := by
  induction members generalizing budget before with
  | nil =>
    obtain ⟨turns, rfl⟩ := Nat.exists_eq_succ_of_ne_zero (Nat.ne_of_gt hbudget)
    intro place
    refine ⟨place.advance '\x7d', ?_⟩
    rw [List.append_nil]
    rfl
  | cons m members ih =>
    obtain ⟨turns, rfl⟩ := Nat.exists_eq_succ_of_ne_zero (Nat.ne_of_gt (Nat.zero_lt_of_lt hbudget))
    obtain ⟨key, v⟩ := m
    have hassoc : before ++ (key, v) :: members = before ++ [(key, v)] ++ members := by
      rw [List.append_assoc]
      rfl
    rw [hassoc] at hdistinct ⊢
    have hkey : key ∉ before.keys := Members.not_mem_keys_of_distinct hdistinct
    have hv := hvalues (key, v) (.head _) _ (ends_compactMembersRest members rest)
    have hrest := ih (fun n hn => hvalues n (.tail _ hn)) (Nat.lt_of_succ_lt_succ hbudget) hdistinct
    have hmember := (takes_member before hkey hv).bind (readMembersFrom (readMember value) turns) hrest
    have hboth := (takes_string key _).bind (fun k i => readMember value before k i >>= fun p =>
      readMembersFrom (readMember value) turns p.1 p.2) hmember
    intro place
    obtain ⟨place', hread⟩ := hboth ((place.advance ',').advance '"')
    refine ⟨place', ?_⟩
    refine Eq.trans ?_ hread
    rw [compactMembersRest, stringText]
    simp only [List.cons_append, List.append_assoc]
    rfl

/-- **The members of an object,** behind its opening brace. -/
theorem takes_members (hdistinct : Members.Distinct members)
    (hvalues : ∀ m ∈ members, ∀ rest, Ends rest → Takes value m.2.compactChars m.2 rest) :
    Takes (readMembers (readMember value) []) (compactMembers members) members rest := by
  cases members with
  | nil => exact fun place => ⟨place.advance '\x7d', rfl⟩
  | cons m members =>
    obtain ⟨key, v⟩ := m
    have hv := hvalues (key, v) (.head _) _ (ends_compactMembersRest members rest)
    have hrest : Takes (fun i => readMembersFrom (readMember value) (i.rest.length + 1) [(key, v)] i)
        (compactMembersRest members) ((key, v) :: members) rest := by
      intro place
      have hbudget : members.length < (compactMembersRest members ++ rest).length + 1 := by
        have := length_lt_compactMembersRest members
        rw [List.length_append]
        omega
      exact takes_membersRest (fun n hn => hvalues n (.tail _ hn)) hbudget hdistinct place
    have hmember := (takes_member [] List.not_mem_nil hv).bind
      (fun ms i => readMembersFrom (readMember value) (i.rest.length + 1) ms i) hrest
    have hboth := (takes_string key _).bind (fun k i => readMember value [] k i >>= fun p =>
      readMembersFrom (readMember value) (p.2.rest.length + 1) p.1 p.2) hmember
    intro place
    obtain ⟨place', hread⟩ := hboth (place.advance '"')
    refine ⟨place', Eq.trans ?_ hread⟩
    rw [compactMembers, stringText]
    simp only [List.cons_append, List.append_assoc]
    rfl

end Objects

/-! ### Values -/

theorem readValue_number {depth : Nat} {c : Char} {cs : List Char} (h : c = '-' ∨ c.isDigit = true)
    (place : Place) :
    readValue depth ⟨c :: cs, place⟩ = (readNumberValue ⟨c :: cs, place⟩).map fun p => (.number p.1, p.2) := by
  have hspace : Input.isSpace c = false := by
    rcases h with rfl | hdigit
    · rfl
    · exact isSpace_of_isDigit hdigit
  have hother (d : Char) (hd : d.isDigit = false) (hminus : d ≠ '-') : c ≠ d := by
    rintro rfl
    rcases h with heq | hdigit
    · exact hminus heq
    · exact Bool.noConfusion (hdigit.symm.trans hd)
  have hnumber : (decide (c = '-') || c.isDigit) = true := by
    rcases h with rfl | hdigit
    · rfl
    · rw [hdigit, Bool.or_true]
  rw [readValue.eq_def]
  dsimp only
  rw [Input.skipSpace_cons hspace]
  split
  · next heq => cases heq
  · next heq => exact absurd (List.cons.inj heq).1 (hother 'n' rfl (by decide))
  · next heq => exact absurd (List.cons.inj heq).1 (hother 't' rfl (by decide))
  · next heq => exact absurd (List.cons.inj heq).1 (hother 'f' rfl (by decide))
  · next heq => exact absurd (List.cons.inj heq).1 (hother '"' rfl (by decide))
  · next heq => exact absurd (List.cons.inj heq).1 (hother '[' rfl (by decide))
  · next heq => exact absurd (List.cons.inj heq).1 (hother '\x7b' rfl (by decide))
  · next heq =>
    obtain ⟨rfl, rfl⟩ := List.cons.inj heq
    rw [if_pos hnumber]

/-- **The text of a value** is taken from in front of anything that may follow a value. -/
theorem takes_compact (v : Value) (hwhole : v.Everywhere Whole64) (hproper : v.Proper) {depth : Nat}
    (hdepth : v.nesting ≤ depth) (hends : Ends rest) :
    Takes (readValue depth) v.compactChars v rest := by
  induction v using Value.induction generalizing depth rest with
  | step v ih =>
    match v, hwhole.self with
    | .null, _ =>
      have hletters : wordText none = ['n', 'u', 'l', 'l'] := by decide +kernel
      intro place
      refine ⟨place.advanceAll ['n', 'u', 'l', 'l'], ?_⟩
      rw [compactChars, hletters, readValue.eq_def]
      rfl
    | .bool true, _ =>
      have hletters : wordText (some true) = ['t', 'r', 'u', 'e'] := by decide +kernel
      intro place
      refine ⟨place.advanceAll ['t', 'r', 'u', 'e'], ?_⟩
      rw [compactChars, hletters, readValue.eq_def]
      rfl
    | .bool false, _ =>
      have hletters : wordText (some false) = ['f', 'a', 'l', 's', 'e'] := by decide +kernel
      intro place
      refine ⟨place.advanceAll ['f', 'a', 'l', 's', 'e'], ?_⟩
      rw [compactChars, hletters, readValue.eq_def]
      rfl
    | .number (.integer i), hi =>
      intro place
      obtain ⟨place', hread⟩ := takes_integer hi.1 hi.2 hends place
      obtain ⟨c, cs, htext, hfirst⟩ := exists_first_digit i
      refine ⟨place', ?_⟩
      rw [compactChars, htext, List.cons_append, readValue_number hfirst, ← List.cons_append, ← htext,
        hread]
      rfl
    | .string s, _ =>
      intro place
      obtain ⟨place', hread⟩ := (takes_string s rest).map Value.string (place.advance '"')
      refine ⟨place', Eq.trans ?_ hread⟩
      rw [compactChars, stringText, readValue.eq_def]
      rfl
    | .array items, _ =>
      obtain ⟨inner, rfl⟩ := Nat.exists_eq_succ_of_ne_zero (Nat.ne_of_gt (Nat.zero_lt_of_lt hdepth))
      have hinner : itemsNesting items ≤ inner := Nat.le_of_succ_le_succ hdepth
      have hitems : Takes (readItems (readValue inner)) (compactItems items) items rest :=
        takes_items (fun w hw => begins_compactChars (hwhole.child hw).self) fun w hw rest hends =>
          ih w hw (hwhole.child hw) (hproper.child hw)
            (Nat.le_trans (nesting_le_itemsNesting hw) hinner) hends
      intro place
      obtain ⟨place', hread⟩ := hitems.map Value.array (place.advance '[')
      refine ⟨place', Eq.trans ?_ hread⟩
      rw [compactChars, readValue.eq_def]
      rfl
    | .object members, _ =>
      obtain ⟨inner, rfl⟩ := Nat.exists_eq_succ_of_ne_zero (Nat.ne_of_gt (Nat.zero_lt_of_lt hdepth))
      have hinner : membersNesting members ≤ inner := Nat.le_of_succ_le_succ hdepth
      have hmembers : Takes (readMembers (readMember (readValue inner)) []) (compactMembers members)
          members rest :=
        takes_members hproper.self fun m hm rest hends => by
          have hchild : m.2 ∈ (object members).children := List.mem_map_of_mem hm
          exact ih m.2 hchild (hwhole.child hchild) (hproper.child hchild)
            (Nat.le_trans (nesting_le_membersNesting hchild) hinner) hends
      intro place
      obtain ⟨place', hread⟩ := hmembers.map Value.object (place.advance '\x7b')
      refine ⟨place', Eq.trans ?_ hread⟩
      rw [compactChars, readValue.eq_def]
      rfl

/-- **The text of a value gives the value.** -/
theorem ofText_compact {v : Value} (hwhole : v.Everywhere Whole64) (hproper : v.Proper)
    (hdepth : v.nesting ≤ maxDepth) : ofText v.compact = .ok v := by
  have hends : Ends [] := fun c hc => by cases hc
  obtain ⟨place', hread⟩ := takes_compact v hwhole hproper hdepth hends .start
  rw [List.append_nil] at hread
  rw [ofText, Input.ofText, compact, String.toList_ofList, hread]
  rfl

end Value
end JsonFilter.Json
