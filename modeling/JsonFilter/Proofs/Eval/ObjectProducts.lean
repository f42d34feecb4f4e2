import JsonFilter.Proofs.Eval.Showing

/-!
# Object construction

The entries of an object construction give keys and values, each side a stream of its own.  The construction
collects both sides of one entry after the other and extends every object so far with every key and every
value.  So the objects are the product of the sides, with the first entry the slowest, and a key that is
chosen twice stays where it first came and names what was chosen last.

* `choices` — all ways to choose a key and a value from each entry, in order.
* `length_choices`, `pairwise_choices`, `choices_places` — how many there are, in which order, from where.
* `foldl_extendObjects` — the objects of all entries, from any objects before.
* `EntryGives`, `EntryFails` — what an entry comes to.
* **`object_is_the_product`** — the outputs of a construction, or the failure that takes their place.
-/

namespace JsonFilter.Eval

open JsonFilter.Filter Json

/-! ### Choices -/

section

variable {α β : Type}

/-- One key and one value from each pair of lists, the first pair the slowest and of a pair the key. -/
def choices : List (List α × List β) → List (List (α × β))
  | [] => [[]]
  | (keys, values) :: rest =>
    keys.flatMap fun key => values.flatMap fun value => (choices rest).map ((key, value) :: ·)

theorem length_choices (sides : List (List α × List β)) :
    (choices sides).length = (sides.map fun side => side.1.length * side.2.length).prod := by
  induction sides with
  | nil => rfl
  | cons side rest ih =>
    simp [choices, List.length_flatMap, ih, Nat.mul_assoc]

theorem mem_choices {sides : List (List α × List β)} {choice : List (α × β)} :
    choice ∈ choices sides ↔
      List.Forall₂ (fun pick side => pick.1 ∈ side.1 ∧ pick.2 ∈ side.2) choice sides := by
  induction sides generalizing choice with
  | nil => simp [choices]
  | cons side rest ih =>
    simp only [choices, List.mem_flatMap, List.mem_map, ih]
    constructor
    · rintro ⟨key, hkey, value, hvalue, choice, hchoice, rfl⟩
      exact .cons ⟨hkey, hvalue⟩ hchoice
    · rintro (_ | ⟨⟨hkey, hvalue⟩, hchoice⟩)
      exact ⟨_, hkey, _, hvalue, _, hchoice, rfl⟩

/-- Where both lists of every pair ascend, the choices ascend in the lexicographic order. -/
theorem pairwise_choices {r : α → α → Prop} {s : β → β → Prop} {sides : List (List α × List β)}
    (h : ∀ side ∈ sides, side.1.Pairwise r ∧ side.2.Pairwise s) :
    (choices sides).Pairwise (List.Lex (Prod.Lex r s)) := by
  induction sides with
  | nil => exact List.pairwise_singleton _ _
  | cons side rest ih =>
    obtain ⟨⟨hkeys, hvalues⟩, hrest⟩ := List.forall_mem_cons.1 h
    have hsame (key : α) (value : β) :
        ((choices rest).map ((key, value) :: ·)).Pairwise (List.Lex (Prod.Lex r s)) :=
      List.pairwise_map.2 ((ih hrest).imp .cons)
    refine List.pairwise_flatMap.2 ⟨fun key _ => ?_, hkeys.imp fun hless x hx y hy => ?_⟩
    · refine List.pairwise_flatMap.2 ⟨fun value _ => hsame key value, hvalues.imp fun hless x hx y hy => ?_⟩
      obtain ⟨x, -, rfl⟩ := List.mem_map.1 hx
      obtain ⟨y, -, rfl⟩ := List.mem_map.1 hy
      exact .rel (.right _ hless)
    · obtain ⟨_, -, hx⟩ := List.mem_flatMap.1 hx
      obtain ⟨_, -, hy⟩ := List.mem_flatMap.1 hy
      obtain ⟨x, -, rfl⟩ := List.mem_map.1 hx
      obtain ⟨y, -, rfl⟩ := List.mem_map.1 hy
      exact .rel (.left _ _ hless)

/-- The key and the value that stand at two places of an entry. -/
def pickAt? (place : Nat × Nat) (side : List α × List β) : Option (α × β) :=
  match side.1[place.1]?, side.2[place.2]? with
  | some key, some value => some (key, value)
  | _, _ => none

/-- What is chosen at these places, one pair for each entry. -/
def ChosenAt (sides : List (List α × List β)) (places : List (Nat × Nat)) (choice : List (α × β)) : Prop :=
  List.zipWith pickAt? places sides = choice.map some

/-- The places in the lists of each pair. -/
def placesOf (sides : List (List α × List β)) : List (List Nat × List Nat) :=
  sides.map fun side => (List.range side.1.length, List.range side.2.length)

theorem forall₂_range (l : List α) : List.Forall₂ (fun i x => l[i]? = some x) (List.range l.length) l := by
  refine List.forall₂_iff_get.2 ⟨List.length_range, fun i _ hi => ?_⟩
  simp [List.getElem?_eq_getElem hi]

/-- The choices are what stands at the choices of places. -/
theorem choices_places (sides : List (List α × List β)) :
    List.Forall₂ (ChosenAt sides) (choices (placesOf sides)) (choices sides) := by
  induction sides with
  | nil => exact .cons rfl .nil
  | cons side rest ih =>
    refine List.rel_flatMap (forall₂_range side.1) fun i key hkey => ?_
    refine List.rel_flatMap (forall₂_range side.2) fun j value hvalue => ?_
    refine List.rel_map (fun places choice hchoice => ?_) ih
    have hpick : pickAt? (i, j) side = some (key, value) := by rw [pickAt?, hkey, hvalue]
    rw [ChosenAt, List.zipWith_cons_cons, hpick, hchoice, List.map_cons]

end

/-! ### Objects -/

/-- The objects of all entries: each object so far with each choice put in. -/
theorem foldl_extendObjects (sides : List (List String × List Value)) (objects : List (Members Value)) :
    sides.foldl (fun objects side => extendObjects objects side.1 side.2) objects =
      objects.flatMap fun object => (choices sides).map object.extend := by
  induction sides generalizing objects with
  | nil => simp [choices, Members.extend_nil]
  | cons side rest ih =>
    rw [List.foldl_cons, ih]
    simp only [extendObjects, choices, List.flatMap_assoc, List.map_flatMap, List.flatMap_map,
      List.map_map]
    rfl

/-- The object has the chosen keys in the order in which they first came, and each names what was chosen
with it last. -/
structure Assembles (choice : List (String × Value)) (object : Members Value) : Prop where
  keys : object.keys = (choice.map Prod.fst).eraseDups
  names : ∀ key, object.get? key = choice.reverse.lookup key

theorem assembles_extend (choice : List (String × Value)) : Assembles choice (Members.extend [] choice) where
  keys := by
    rw [Members.keys_extend_eraseDups]
    simp [Members.keys]
  names key := by
    rw [Members.get?_extend, Members.get?_nil, Option.or_none]

/-! ### Entries -/

variable {c : Context} {input : Value} {entry : ObjectEntry}

/-- The stream of the keys of an entry. -/
def keyResults (key : ObjectKey Expr) (c : Context) (input : Value) : Outputs :=
  match key with
  | .static name | .variable name _ => .single (.string name)
  | .computed e => eval e c input

/-- The stream of the values of an entry.  One without a value takes what its key names: in the input or
among the variables. -/
def valueResults (entry : ObjectEntry) (c : Context) (input : Value) : Outputs :=
  match entry with
  | (_, some e) => eval e c input
  | (.static name, none) => .lift (input.field name)
  | (.variable name _, none) => c.withVariable name .single
  | (.computed _, none) => .failWith .keyWithoutValue

/-- The first failure of a stream, behind values. -/
def Outputs.FailsWith (o : Outputs) (f : Failure) : Prop :=
  ∃ (values : List Value) (rest : List Result),
    (o.transcript .unlimited).results = values.map .ok ++ .error f :: rest

/-- The entry has these keys, strings all of them, and these values. -/
structure EntryGives (c : Context) (input : Value) (entry : ObjectEntry)
    (side : List String × List Value) : Prop where
  keys : (keyResults entry.1 c input).Gives (side.1.map .string)
  values : (valueResults entry c input).Gives side.2

/-- The entry fails: one of its keys does, or a key is no string, or else one of its values fails. -/
inductive EntryFails (c : Context) (input : Value) (entry : ObjectEntry) : Failure → Prop
  | key {f : Failure} : (keyResults entry.1 c input).FailsWith f → EntryFails c input entry f
  | keyNotString {names : List String} {other : Value} {rest : List Value} :
    (∀ s, other ≠ .string s) →
      (keyResults entry.1 c input).Gives (names.map .string ++ other :: rest) →
      EntryFails c input entry (.ofError (.keyNotString other))
  | value {names : List String} {f : Failure} : (keyResults entry.1 c input).Gives (names.map .string) →
    (valueResults entry c input).FailsWith f → EntryFails c input entry f

/-! ### What is collected -/

/-- All of a list are images, or the first that is none stands behind images. -/
theorem images_or_first {α β : Type} (f : α → β) (l : List β) : (∃ xs : List α, l = xs.map f) ∨
    ∃ (xs : List α) (y : β) (rest : List β), (∀ x, y ≠ f x) ∧ l = xs.map f ++ y :: rest := by
  induction l with
  | nil => exact .inl ⟨[], rfl⟩
  | cons y l ih =>
    by_cases hy : ∃ x, y = f x
    · obtain ⟨x, rfl⟩ := hy
      rcases ih with ⟨xs, rfl⟩ | ⟨xs, other, rest, hother, rfl⟩
      · exact .inl ⟨x :: xs, rfl⟩
      · exact .inr ⟨x :: xs, other, rest, hother, rfl⟩
    · exact .inr ⟨[], y, l, not_exists.1 hy, rfl⟩

theorem Showing.collect_of_results {s : Showing} {values : List Value} {f : Failure} {rest : List Result}
    (h : s.results = values.map .ok ++ .error f :: rest) (next : List Value → Showing) :
    s.collect next = .one (.error f) := by
  induction s generalizing values next with
  | ended | cut => simp [Showing.results] at h
  | result r s ih =>
    cases values with
    | nil =>
      obtain ⟨rfl, -⟩ := List.cons.inj h
      rfl
    | cons v values =>
      obtain ⟨rfl, hrest⟩ := List.cons.inj h
      exact ih hrest fun values => next (v :: values)

namespace Outputs

/-- The failure takes the place of what is collected. -/
theorem FailsWith.collect {o : Outputs} {f : Failure} (h : o.FailsWith f) (next : List Value → Outputs) :
    (o.collect next).shown = .one (.error f) := by
  obtain ⟨values, rest, hresults⟩ := h
  rw [shown_collect]
  exact Showing.collect_of_results (transcript_results o ▸ hresults) _

theorem Gives.shown_collect {o : Outputs} {values : List Value} (h : o.Gives values)
    (next : List Value → Outputs) : (o.collect next).shown = (next values).shown := by
  rw [Outputs.shown_collect, h.shown, Showing.collect_ofValues]

/-- A stream that ends gives values only, or one of its results is the first failure. -/
theorem gives_or_failsWith {o : Outputs} (hends : (o.transcript .unlimited).complete = true) :
    (∃ values, o.Gives values) ∨ ∃ f, o.FailsWith f := by
  rcases images_or_first Except.ok (o.transcript .unlimited).results with
    ⟨values, hvalues⟩ | ⟨values, r, rest, hr, hresults⟩
  · exact .inl ⟨values, hvalues, hends⟩
  · cases r with
    | ok v => exact absurd rfl (hr v)
    | error f => exact .inr ⟨f, values, rest, hresults⟩

end Outputs

/-! ### Keys and values of an entry -/

theorem keyNames_strings (names : List String) : keyNames (names.map .string) = .ok names := by
  induction names with
  | nil => rfl
  | cons name names ih =>
    rw [List.map_cons, keyNames, ih]
    rfl

theorem keyNames_of_not_string {other : Value} (h : ∀ s, other ≠ .string s) (names : List String)
    (rest : List Value) :
    keyNames (names.map .string ++ other :: rest) = .error (.keyNotString other) := by
  induction names with
  | nil =>
    cases other with
    | string s => exact absurd rfl (h s)
    | _ => rfl
  | cons name names ih =>
    rw [List.map_cons, List.cons_append, keyNames, ih]
    rfl

/-- What goes on with the keys goes on with the names that are collected. -/
theorem shown_evalKey (key : ObjectKey Expr) (c : Context) (input : Value)
    (next : List String → Outputs) :
    (evalKey key c input next).shown =
      ((keyResults key c input).collect fun values =>
        match keyNames values with
        | .ok names => next names
        | .error e => .failWith e).shown := by
  cases key with
  | static name | «variable» name span =>
    rw [keyResults, (Outputs.Gives.single (.string name)).shown_collect]
    rfl
  | computed e => rfl

/-- What goes on with the values goes on with those that are collected. -/
theorem shown_evalEntryValue (hc : c.unresolved = .failWith) (entry : ObjectEntry) (input : Value)
    (next : List Value → Outputs) :
    (evalEntryValue entry.2 entry.1 c input next).shown =
      ((valueResults entry c input).collect next).shown := by
  obtain ⟨key, _ | e⟩ := entry
  · cases key with
    | static name =>
      simp only [evalEntryValue, withImpliedValue, valueResults]
      cases input.field name <;> rfl
    | «variable» name span =>
      simp only [evalEntryValue, withImpliedValue, valueResults, Context.withVariable, hc]
      cases c.variableValue? name <;> rfl
    | computed e =>
      simp only [evalEntryValue, withImpliedValue, valueResults, hc]
      rfl
  · rfl

/-- An entry that gives its keys and values hands the extended objects on. -/
theorem EntryGives.shown_evalEntries (hc : c.unresolved = .failWith) {side : List String × List Value}
    (h : EntryGives c input entry side) (rest : List ObjectEntry) (objects : List (Members Value)) :
    (evalEntries (entry :: rest) c input objects).shown =
      (evalEntries rest c input (extendObjects objects side.1 side.2)).shown := by
  rw [evalEntries, shown_evalKey, h.keys.shown_collect, keyNames_strings]
  dsimp only
  rw [shown_evalEntryValue hc entry, h.values.shown_collect]

/-- An entry that fails ends the construction. -/
theorem EntryFails.shown_evalEntries (hc : c.unresolved = .failWith) {f : Failure}
    (h : EntryFails c input entry f) (rest : List ObjectEntry) (objects : List (Members Value)) :
    (evalEntries (entry :: rest) c input objects).shown = .one (.error f) := by
  rw [evalEntries, shown_evalKey]
  cases h with
  | key hkey => exact hkey.collect _
  | keyNotString hother hkeys =>
    rw [hkeys.shown_collect, keyNames_of_not_string hother]
    rfl
  | value hkeys hvalue =>
    rw [hkeys.shown_collect, keyNames_strings]
    dsimp only
    rw [shown_evalEntryValue hc entry]
    exact hvalue.collect _

theorem shown_evalEntries_of_gives (hc : c.unresolved = .failWith) {before : List ObjectEntry}
    {sides : List (List String × List Value)} (h : List.Forall₂ (EntryGives c input) before sides)
    (after : List ObjectEntry) (objects : List (Members Value)) :
    (evalEntries (before ++ after) c input objects).shown =
      (evalEntries after c input
        (sides.foldl (fun objects side => extendObjects objects side.1 side.2) objects)).shown := by
  induction h generalizing objects with
  | nil => rfl
  | cons hentry _ ih => rw [List.cons_append, hentry.shown_evalEntries hc, ih, List.foldl_cons]

/-- An entry whose two streams end comes to one or the other. -/
theorem entryGives_or_entryFails
    (hkeys : ((keyResults entry.1 c input).transcript .unlimited).complete = true)
    (hvalues : ((valueResults entry c input).transcript .unlimited).complete = true) :
    (∃ side, EntryGives c input entry side) ∨ ∃ f, EntryFails c input entry f := by
  rcases Outputs.gives_or_failsWith hkeys with ⟨keys, hkeys⟩ | ⟨f, hf⟩
  · rcases images_or_first Value.string keys with ⟨names, rfl⟩ | ⟨names, other, rest, hother, rfl⟩
    · rcases Outputs.gives_or_failsWith hvalues with ⟨values, hvalues⟩ | ⟨f, hf⟩
      · exact .inl ⟨(names, values), hkeys, hvalues⟩
      · exact .inr ⟨f, .value hkeys hf⟩
    · exact .inr ⟨_, .keyNotString hother hkeys⟩
  · exact .inr ⟨f, .key hf⟩

/-! ### The product -/

/-- The objects of all entries, from where they are chosen. -/
theorem chosen_objects (sides : List (List String × List Value)) :
    List.Forall₂ (fun places object => ∃ choice, ChosenAt sides places choice ∧ Assembles choice object)
      (choices (placesOf sides)) ((choices sides).map (Members.extend [])) :=
  List.forall₂_map_right_iff.2
    ((choices_places sides).imp fun _ choice hchosen => ⟨choice, hchosen, assembles_extend choice⟩)

theorem mem_choices_placesOf {sides : List (List String × List Value)} {places : List (Nat × Nat)} :
    places ∈ choices (placesOf sides) ↔
      List.Forall₂ (fun place side => place.1 < side.1.length ∧ place.2 < side.2.length) places sides := by
  rw [mem_choices, placesOf, List.forall₂_map_right_iff]
  simp only [List.mem_range]

theorem pairwise_choices_placesOf (sides : List (List String × List Value)) :
    (choices (placesOf sides)).Pairwise (List.Lex (Prod.Lex (· < ·) (· < ·))) := by
  refine pairwise_choices fun side hside => ?_
  obtain ⟨side, -, rfl⟩ := List.mem_map.1 hside
  exact ⟨List.pairwise_lt_range, List.pairwise_lt_range⟩

/-- **Object construction is the ordered product of its entries.**  In a context where an undefined name is an
error, as it is in every run:

If every entry gives keys and values, the outputs are objects, one for each choice of a place among the keys
and a place among the values of every entry, in the lexicographic order of the places; so their number is
the product.  Each has the chosen keys in the order in which they first came, and each key names what was
chosen with it last.

If an entry fails behind entries that do not, its failure is the only result.  Where the streams of all
entries end, it is one or the other. -/
theorem object_is_the_product (hc : c.unresolved = .failWith) (entries : List ObjectEntry)
    (input : Value) :
    (∀ sides, List.Forall₂ (EntryGives c input) entries sides →
      ∃ (objects : List (Members Value)) (places : List (List (Nat × Nat))),
        (eval (.object entries) c input).Gives (objects.map .object) ∧
        objects.length = (sides.map fun side => side.1.length * side.2.length).prod ∧
        places.Pairwise (List.Lex (Prod.Lex (· < ·) (· < ·))) ∧
        (∀ chosen, chosen ∈ places ↔ List.Forall₂
          (fun place side => place.1 < side.1.length ∧ place.2 < side.2.length) chosen sides) ∧
        List.Forall₂ (fun chosen object => ∃ choice, ChosenAt sides chosen choice ∧ Assembles choice object)
          places objects) ∧
    (∀ before entry after sides f, entries = before ++ entry :: after →
      List.Forall₂ (EntryGives c input) before sides → EntryFails c input entry f →
      ((eval (.object entries) c input).transcript .unlimited).results = [.error f] ∧
        ((eval (.object entries) c input).transcript .unlimited).complete = true) ∧
    ((∀ entry ∈ entries,
        ((keyResults entry.1 c input).transcript .unlimited).complete = true ∧
          ((valueResults entry c input).transcript .unlimited).complete = true) →
      (∃ sides, List.Forall₂ (EntryGives c input) entries sides) ∨
      ∃ before entry after sides f, entries = before ++ entry :: after ∧
        List.Forall₂ (EntryGives c input) before sides ∧ EntryFails c input entry f) := by
  refine ⟨fun sides hsides => ?_, fun before entry after sides f hsplit hbefore hfails => ?_, fun hends => ?_⟩
  · refine ⟨(choices sides).map (Members.extend []), choices (placesOf sides), ?_, ?_,
      pairwise_choices_placesOf sides, fun chosen => mem_choices_placesOf, chosen_objects sides⟩
    · have hshown := shown_evalEntries_of_gives hc hsides [] [[]]
      rw [List.append_nil, foldl_extendObjects, List.flatMap_singleton] at hshown
      exact .of_shown (hshown.trans (Outputs.shown_ofList _))
    · rw [List.length_map, length_choices]
  · have hshown := shown_evalEntries_of_gives hc hbefore (entry :: after) [[]]
    rw [hfails.shown_evalEntries hc, ← hsplit] at hshown
    exact ⟨(Outputs.transcript_results _).trans (congrArg Showing.results hshown),
      (Outputs.transcript_complete _).trans (congrArg Showing.complete hshown)⟩
  · induction entries with
    | nil => exact .inl ⟨[], .nil⟩
    | cons entry entries ih =>
      obtain ⟨⟨hkeys, hvalues⟩, hrest⟩ := List.forall_mem_cons.1 hends
      rcases entryGives_or_entryFails hkeys hvalues with ⟨side, hside⟩ | ⟨f, hf⟩
      · rcases ih hrest with ⟨sides, hsides⟩ | ⟨before, failing, after, sides, f, rfl, hbefore, hf⟩
        · exact .inl ⟨side :: sides, .cons hside hsides⟩
        · exact .inr ⟨entry :: before, failing, after, side :: sides, f, rfl, .cons hside hbefore, hf⟩
      · exact .inr ⟨[], entry, entries, [], f, rfl, .nil, hf⟩

/-- `{("a", "b"): (true, .), a}` chooses a key twice, and in `{a, ("b", .): error}` the second entry has a key
that is no string. -/
theorem object_is_the_product_repeated :
    let a : Expr := .literal (.string "a")
    let b : Expr := .literal (.string "b")
    let input : Value := .object [("a", .null)]
    let c := Context.empty .null 0
    let first : ObjectEntry := (.computed (.comma a b), some (.comma (.literal (.bool true)) .identity))
    let second : ObjectEntry := (.static "a", none)
    let third : ObjectEntry := (.computed (.comma b .identity), some (.call "error" [] (.point 0)))
    c.unresolved = .failWith ∧
      EntryGives c input first (["a", "b"], [.bool true, input]) ∧
      EntryGives c input second (["a"], [.null]) ∧
      (∃ objects : List (Members Value),
        (eval (.object [first, second]) c input).Gives (objects.map .object) ∧ objects.length = 4) ∧
      EntryFails c input third (.ofError (.keyNotString input)) ∧
      ((eval (.object [second, third]) c input).transcript .unlimited).results =
        [.error (.ofError (.keyNotString input))] := by
  intro a b input c first second third
  have hfirst : EntryGives c input first (["a", "b"], [.bool true, input]) := ⟨⟨rfl, rfl⟩, ⟨rfl, rfl⟩⟩
  have hsecond : EntryGives c input second (["a"], [.null]) := ⟨⟨rfl, rfl⟩, ⟨rfl, rfl⟩⟩
  have hkeys : (keyResults third.1 c input).Gives (["b"].map .string ++ input :: []) := ⟨rfl, rfl⟩
  have hthird : EntryFails c input third (.ofError (.keyNotString input)) :=
    .keyNotString (by simp [input]) hkeys
  obtain ⟨objects, -, hgives, hlength, -⟩ := (object_is_the_product (c := c) rfl [first, second] input).1 _
    (.cons hfirst (.cons hsecond .nil))
  have hfails := (object_is_the_product (c := c) rfl [second, third] input).2.1 [second] third [] _ _ rfl
    (.cons hsecond .nil) hthird
  exact ⟨rfl, hfirst, hsecond, ⟨objects, hgives, hlength⟩, hthird, hfails.1⟩

end JsonFilter.Eval
