import JsonFilter.Proofs.Eval.CoreForms
import JsonFilter.Proofs.Json.Parts

/-!
# Sums of texts and containers

Null adds nothing, and where nothing is a number it does not matter which of two sums is taken first.  A sum
of values of different types fails, so each law has two sides: both sums succeed, with the same value down to
the order of the keys, or neither does.  The errors need not be the same; each names the operands that met.

* `Value.IsSum` — the sums that there are, one rule for each type.
* `Value.add_add_eq_ok_iff` — one way to put parentheses succeeds exactly if the other does.
* `Value.foldlM_add_eq_ok_iff` — a sum that starts from a value is that value and the sum of the rest.
* `sumInside_append` — the sum of two arrays put together.
* **`sums_are_a_monoid`** — the filters, and what the keys of a sum of objects name.
-/

namespace JsonFilter

namespace Json

/-- What comes first succeeds, and its value leads to the result. -/
theorem Outcome.bind_eq_ok_iff {α β : Type} {o : Outcome α} {f : α → Outcome β} {w : β} :
    (o >>= f) = .ok w ↔ ∃ u, o = .ok u ∧ f u = .ok w := by
  cases o with
  | ok u => exact ⟨fun h => ⟨u, rfl, h⟩, fun ⟨_, hu, h⟩ => Except.ok.inj hu ▸ h⟩
  | error e => exact ⟨fun h => (nomatch h), fun ⟨_, hu, _⟩ => (nomatch hu)⟩

namespace Value

/-! ### Two values -/

/-- Values other than numbers, whose sums are rounded.  An object has no key twice. -/
def Concatenable : Value → Prop
  | .number _ => False
  | v => v.DistinctKeys

/-- The sums of values other than numbers. -/
inductive IsSum : Value → Value → Value → Prop
  | null_left (b : Value) : IsSum .null b b
  | null_right (a : Value) : IsSum a .null a
  | strings (s t : String) : IsSum (.string s) (.string t) (.string (s ++ t))
  | arrays (xs ys : List Value) : IsSum (.array xs) (.array ys) (.array (xs ++ ys))
  | objects (ms ns : Members Value) : IsSum (.object ms) (.object ns) (.object (ms.extend ns))

variable {a b d v w : Value}

theorem null_add (a : Value) : Value.null.add a = .ok a := rfl

theorem add_null (a : Value) : a.add .null = .ok a := by cases a <;> rfl

theorem add_eq_ok_iff (ha : a.Concatenable) (hb : b.Concatenable) : a.add b = .ok v ↔ IsSum a b v := by
  constructor
  · intro h
    cases a with
    | null =>
      obtain rfl : b = v := Except.ok.inj h
      exact .null_left b
    | number => exact ha.elim
    | bool | string | array | object =>
      cases b with
      | null =>
        obtain rfl := Except.ok.inj h
        exact .null_right _
      | number => exact hb.elim
      | bool | string | array | object => cases h <;> constructor
  · rintro (_ | _ | _ | _ | _)
    · rfl
    · exact add_null a
    all_goals rfl

theorem IsSum.concatenable (h : IsSum a b v) (ha : a.Concatenable) (hb : b.Concatenable) :
    v.Concatenable := by
  cases h with
  | null_left => exact hb
  | null_right => exact ha
  | strings | arrays => trivial
  | objects ms ns => exact Members.distinct_extend ha ns

/-! ### Three values -/

theorem IsSum.assoc_right (ha : a.Concatenable) (hb : b.Concatenable) (hd : d.Concatenable)
    (hab : IsSum a b v) (h : IsSum v d w) : ∃ u, IsSum b d u ∧ IsSum a u w := by
  cases hab with
  | null_left => exact ⟨w, h, .null_left w⟩
  | null_right => exact ⟨d, .null_left d, h⟩
  | strings s t =>
    cases h with
    | null_right => exact ⟨_, .null_right _, .strings s t⟩
    | strings _ u => exact ⟨_, .strings t u, String.append_assoc ▸ .strings s (t ++ u)⟩
  | arrays xs ys =>
    cases h with
    | null_right => exact ⟨_, .null_right _, .arrays xs ys⟩
    | arrays _ zs => exact ⟨_, .arrays ys zs, List.append_assoc xs ys zs ▸ .arrays xs (ys ++ zs)⟩
  | objects ms ns =>
    cases h with
    | null_right => exact ⟨_, .null_right _, .objects ms ns⟩
    | objects _ os =>
      exact ⟨_, .objects ns os, Members.extend_assoc ha hb hd ▸ .objects ms (ns.extend os)⟩

theorem IsSum.assoc_left (ha : a.Concatenable) (hb : b.Concatenable) (hd : d.Concatenable)
    (hbd : IsSum b d v) (h : IsSum a v w) : ∃ u, IsSum a b u ∧ IsSum u d w := by
  cases hbd with
  | null_left => exact ⟨a, .null_right a, h⟩
  | null_right => exact ⟨w, h, .null_right w⟩
  | strings t u =>
    cases h with
    | null_left => exact ⟨_, .null_left _, .strings t u⟩
    | strings s => exact ⟨_, .strings s t, String.append_assoc ▸ .strings (s ++ t) u⟩
  | arrays ys zs =>
    cases h with
    | null_left => exact ⟨_, .null_left _, .arrays ys zs⟩
    | arrays xs => exact ⟨_, .arrays xs ys, List.append_assoc xs ys zs ▸ .arrays (xs ++ ys) zs⟩
  | objects ns os =>
    cases h with
    | null_left => exact ⟨_, .null_left _, .objects ns os⟩
    | objects ms =>
      exact ⟨_, .objects ms ns, Members.extend_assoc ha hb hd ▸ .objects (ms.extend ns) os⟩

/-- **Parentheses do not matter.**  A sum of three values succeeds both ways or neither way. -/
theorem add_add_eq_ok_iff (ha : a.Concatenable) (hb : b.Concatenable) (hd : d.Concatenable) :
    (a.add b >>= fun ab => ab.add d) = .ok w ↔ (b.add d >>= a.add) = .ok w := by
  rw [Outcome.bind_eq_ok_iff, Outcome.bind_eq_ok_iff]
  constructor
  · rintro ⟨v, hab, h⟩
    have hsum := (add_eq_ok_iff ha hb).1 hab
    obtain ⟨u, hbd, hau⟩ :=
      hsum.assoc_right ha hb hd ((add_eq_ok_iff (hsum.concatenable ha hb) hd).1 h)
    exact ⟨u, (add_eq_ok_iff hb hd).2 hbd, (add_eq_ok_iff ha (hbd.concatenable hb hd)).2 hau⟩
  · rintro ⟨v, hbd, h⟩
    have hsum := (add_eq_ok_iff hb hd).1 hbd
    obtain ⟨u, hab, hud⟩ :=
      hsum.assoc_left ha hb hd ((add_eq_ok_iff ha (hsum.concatenable hb hd)).1 h)
    exact ⟨u, (add_eq_ok_iff ha hb).2 hab, (add_eq_ok_iff (hab.concatenable ha hb) hd).2 hud⟩

/-! ### Many values -/

/-- Sums of such values are such values. -/
theorem concatenable_foldlM_add {values : List Value} (hvalues : ∀ x ∈ values, x.Concatenable)
    (ha : a.Concatenable) (h : values.foldlM add a = .ok v) : v.Concatenable := by
  induction values generalizing a with
  | nil => exact Except.ok.inj h ▸ ha
  | cons x values ih =>
    obtain ⟨hx, hrest⟩ := List.forall_mem_cons.1 hvalues
    rw [List.foldlM_cons] at h
    obtain ⟨ax, hax, h⟩ := Outcome.bind_eq_ok_iff.1 h
    exact ih hrest (((add_eq_ok_iff ha hx).1 hax).concatenable ha hx) h

/-- **A sum that starts from a value** is that value and the sum of the rest. -/
theorem foldlM_add_eq_ok_iff {values : List Value} (hvalues : ∀ x ∈ values, x.Concatenable)
    (ha : a.Concatenable) :
    values.foldlM add a = .ok v ↔ (values.foldlM add .null >>= a.add) = .ok v := by
  induction values generalizing a v with
  | nil =>
    show Except.ok a = .ok v ↔ a.add .null = .ok v
    rw [add_null]
  | cons x values ih =>
    obtain ⟨hx, hrest⟩ := List.forall_mem_cons.1 hvalues
    have hfrom {y w : Value} (hy : y.Concatenable) :
        values.foldlM add y = .ok w ↔ ∃ s, values.foldlM add .null = .ok s ∧ y.add s = .ok w :=
      (ih hrest hy).trans Outcome.bind_eq_ok_iff
    have hsum {s : Value} (hs : values.foldlM add .null = .ok s) : s.Concatenable :=
      concatenable_foldlM_add hrest (show Concatenable .null from trivial) hs
    rw [List.foldlM_cons, List.foldlM_cons, null_add, Outcome.bind_eq_ok_iff]
    show _ ↔ (values.foldlM add x >>= a.add) = .ok v
    rw [Outcome.bind_eq_ok_iff]
    constructor
    · rintro ⟨ax, hax, h⟩
      have hconcatenable : ax.Concatenable := ((add_eq_ok_iff ha hx).1 hax).concatenable ha hx
      obtain ⟨s, hs, hv⟩ := (hfrom hconcatenable).1 h
      obtain ⟨xs, hxs, hv⟩ := Outcome.bind_eq_ok_iff.1
        ((add_add_eq_ok_iff ha hx (hsum hs)).1 (Outcome.bind_eq_ok_iff.2 ⟨ax, hax, hv⟩))
      exact ⟨xs, (hfrom hx).2 ⟨s, hs, hxs⟩, hv⟩
    · rintro ⟨xs, h, hv⟩
      obtain ⟨s, hs, hxs⟩ := (hfrom hx).1 h
      obtain ⟨ax, hax, hv⟩ := Outcome.bind_eq_ok_iff.1
        ((add_add_eq_ok_iff ha hx (hsum hs)).2 (Outcome.bind_eq_ok_iff.2 ⟨xs, hxs, hv⟩))
      have hconcatenable : ax.Concatenable := ((add_eq_ok_iff ha hx).1 hax).concatenable ha hx
      exact ⟨ax, hax, (hfrom hconcatenable).2 ⟨s, hs, hv⟩⟩

end Value

end Json

namespace Eval

open JsonFilter.Filter Json

/-- **The sum of two arrays put together** is the sum of the first and the sum of the second. -/
theorem sumInside_append {xs ys : List Value} (hxs : ∀ x ∈ xs, x.Concatenable)
    (hys : ∀ y ∈ ys, y.Concatenable) (v : Value) :
    sumInside (.array (xs ++ ys)) = .ok v ↔ ∃ first second,
      sumInside (.array xs) = .ok first ∧ sumInside (.array ys) = .ok second ∧ first.add second = .ok v := by
  have hsum (items : List Value) : sumInside (.array items) = items.foldlM Value.add .null := rfl
  rw [hsum, hsum, hsum, List.foldlM_append, Outcome.bind_eq_ok_iff]
  refine exists_congr fun first => ?_
  rw [exists_and_left]
  refine and_congr_right fun hfirst => ?_
  have hconcatenable : first.Concatenable :=
    Value.concatenable_foldlM_add hxs (show Value.Concatenable .null from trivial) hfirst
  rw [Value.foldlM_add_eq_ok_iff hys hconcatenable, Outcome.bind_eq_ok_iff]

/-! ### Filters -/

variable {c : Context} {input : Value}

/-- The sum of filters that make one result each. -/
theorem shown_plus_of_one {f g : Expr} {x y : Outcome Value}
    (hf : (eval f c input).shown = .one (resultOf x)) (hg : (eval g c input).shown = .one (resultOf y)) :
    (eval (.binary .add f g) c input).shown =
      .one (resultOf (y >>= fun b => x >>= fun a => a.add b)) := by
  rw [shown_plus, hf, hg]
  cases y with
  | ok b => cases x <;> rfl
  | error e => rfl

theorem gives_iff_of_one {o : Outputs} {x : Outcome Value} (h : o.shown = .one (resultOf x)) (v : Value) :
    o.Gives [v] ↔ x = .ok v := by
  constructor
  · intro hgives
    have hresult : resultOf x = .ok v := (Showing.result.inj (h.symm.trans hgives.shown)).1
    cases x with
    | ok w => exact congrArg _ (Except.ok.inj hresult)
    | error e => cases hresult
  · rintro rfl
    exact .of_shown h

theorem shown_add_of_gives (hadd : c.definition? "add" = none) {f : Expr} {items : List Value}
    (hf : (eval f c input).Gives [.array items]) (span : Span) :
    (eval (.pipe f (.call "add" [] span)) c input).shown = .one (resultOf (sumInside (.array items))) := by
  rw [shown_pipe, hf.shown]
  show (Showing.one (.ok (.array items))).bind _ = _
  rw [Showing.one_bind, eval_nullary (b := .add) hadd (by decide)]
  rfl

/-- **Sums of texts and containers are a monoid** with null for its identity.  That null adds nothing holds
for all results of a filter and for numbers too.  For values other than numbers, sums of three succeed
whichever two are added first, or do not, and the sum of what two arrays hold is the sum of their sums; the
value is the same.

A sum of objects has the keys of the left one in their order and behind them those that are new, in the order
of the right one.  Where both have a key, it names what it names in the right one. -/
theorem sums_are_a_monoid (c : Context) (input : Value) :
    (∀ f : Expr, (eval (.binary .add (.literal .null) f) c input).Alike (eval f c input) ∧
      (eval (.binary .add f (.literal .null)) c input).Alike (eval f c input)) ∧
      (∀ (f g h : Expr) (a b d : Value), (eval f c input).Gives [a] → (eval g c input).Gives [b] →
        (eval h c input).Gives [d] → a.Concatenable → b.Concatenable → d.Concatenable → ∀ v,
          (eval (.binary .add (.binary .add f g) h) c input).Gives [v] ↔
            (eval (.binary .add f (.binary .add g h)) c input).Gives [v]) ∧
      (c.definition? "add" = none → ∀ (f g : Expr) (xs ys : List Value) (p q r : Span),
        (eval f c input).Gives [.array xs] → (eval g c input).Gives [.array ys] →
        (∀ x ∈ xs, x.Concatenable) → (∀ y ∈ ys, y.Concatenable) → ∀ v,
          (eval (.pipe (.binary .add f g) (.call "add" [] p)) c input).Gives [v] ↔
            (eval (.binary .add (.pipe f (.call "add" [] q)) (.pipe g (.call "add" [] r))) c input).Gives
              [v]) ∧
      ∀ (f g : Expr) (ms ns : Members Value), (eval f c input).Gives [.object ms] →
        (eval g c input).Gives [.object ns] → ms.Distinct → ns.Distinct → ∃ sum : Members Value,
          (eval (.binary .add f g) c input).Gives [.object sum] ∧ sum.Distinct ∧
            sum.keys = ms.keys ++ ns.keys.filter (· ∉ ms.keys) ∧
            ∀ key, sum.get? key = (ns.get? key).or (ms.get? key) := by
  have hone {e : Expr} {v : Value} (h : (eval e c input).Gives [v]) :
      (eval e c input).shown = .one (resultOf (.ok v)) := h.shown
  refine ⟨fun f => ⟨Outputs.alike_iff.2 ?_, Outputs.alike_iff.2 ?_⟩,
    fun f g h a b d hf hg hh ha hb hd v => ?_, fun hadd f g xs ys p q r hf hg hxs hys v => ?_,
    fun f g ms ns hf hg hms hns => ?_⟩
  · rw [shown_plus]
    exact Showing.bind_single _
  · rw [shown_plus, shown_literal, Showing.one_bind]
    simp only [literalValue, Value.add_null]
    exact Showing.bind_single _
  · rw [gives_iff_of_one (shown_plus_of_one (shown_plus_of_one (hone hf) (hone hg)) (hone hh)),
      gives_iff_of_one (shown_plus_of_one (hone hf) (shown_plus_of_one (hone hg) (hone hh)))]
    exact Value.add_add_eq_ok_iff ha hb hd
  · have hwhole : (eval (.binary .add f g) c input).Gives [.array (xs ++ ys)] :=
      .of_shown (shown_plus_of_one (hone hf) (hone hg))
    rw [gives_iff_of_one (shown_add_of_gives hadd hwhole p),
      gives_iff_of_one (shown_plus_of_one (shown_add_of_gives hadd hf q) (shown_add_of_gives hadd hg r)),
      sumInside_append hxs hys]
    simp only [Outcome.bind_eq_ok_iff]
    constructor
    · rintro ⟨first, second, hfirst, hsecond, hsum⟩
      exact ⟨second, hsecond, first, hfirst, hsum⟩
    · rintro ⟨second, hsecond, first, hfirst, hsum⟩
      exact ⟨first, second, hfirst, hsecond, hsum⟩
  · exact ⟨ms.extend ns, .of_shown (shown_plus_of_one (hone hf) (hone hg)), Members.distinct_extend hms ns,
      Members.keys_extend hns, Members.get?_extend_of_distinct hns ms⟩

/-- Two objects with a key in common; put together the other way round they have their keys in another
order. -/
theorem sums_are_a_monoid_overlapping :
    let a : Members Value := [("k", .string "1"), ("m", .null)]
    let b : Members Value := [("n", .array []), ("k", .string "2")]
    let items : List Value := [.null, .object a]
    let c := (((Context.empty .null 0).bind "a" (.object a)).bind "b" (.object b)).bind "items" (.array items)
    let x (name : String) : Expr := .variable name (.point 0)
    let plus (f g : Expr) : Expr := .binary .add f g
    let total (f : Expr) : Expr := .pipe f (.call "add" [] (.point 0))
    (eval (x "a") c .null).Gives [.object a] ∧ (eval (x "b") c .null).Gives [.object b] ∧
      (eval (x "items") c .null).Gives [.array items] ∧ c.definition? "add" = none ∧
      Members.Distinct a ∧ Members.Distinct b ∧ (∀ v ∈ items, v.Concatenable) ∧
      (eval (plus (plus (x "a") (x "b")) (x "a")) c .null).Gives
        [.object [("k", .string "1"), ("m", .null), ("n", .array [])]] ∧
      (eval (plus (x "a") (plus (x "b") (x "a"))) c .null).Gives
        [.object [("k", .string "1"), ("m", .null), ("n", .array [])]] ∧
      (eval (plus (total (x "items")) (total (x "items"))) c .null).Gives [.object a] ∧
      ∃ sum : Members Value, (eval (plus (x "b") (x "a")) c .null).Gives [.object sum] ∧
        sum.keys = ["n", "k", "m"] ∧ sum.get? "k" = some (.string "1") := by
  intro a b items c x plus total
  have ha : (eval (x "a") c .null).Gives [.object a] := .of_shown rfl
  have hb : (eval (x "b") c .null).Gives [.object b] := .of_shown rfl
  have hitems : (eval (x "items") c .null).Gives [.array items] := .of_shown rfl
  have hdistinct : Members.Distinct a ∧ Members.Distinct b := ⟨by decide, by decide⟩
  have hconcatenable : ∀ v ∈ items, v.Concatenable :=
    List.forall_mem_cons.2 ⟨trivial, List.forall_mem_singleton.2 hdistinct.1⟩
  obtain ⟨-, hassoc, hsums, hobjects⟩ := sums_are_a_monoid c .null
  have hleft : (eval (plus (plus (x "a") (x "b")) (x "a")) c .null).Gives
      [.object [("k", .string "1"), ("m", .null), ("n", .array [])]] := .of_shown rfl
  have hwhole : (eval (total (plus (x "items") (x "items"))) c .null).Gives [.object a] := .of_shown rfl
  obtain ⟨sum, hsum, -, hkeys, hnames⟩ :=
    hobjects (x "b") (x "a") b a hb ha hdistinct.2 hdistinct.1
  exact ⟨ha, hb, hitems, rfl, hdistinct.1, hdistinct.2, hconcatenable, hleft,
    (hassoc (x "a") (x "b") (x "a") _ _ _ ha hb ha hdistinct.1 hdistinct.2 hdistinct.1 _).1 hleft,
    (hsums rfl (x "items") (x "items") items items (.point 0) (.point 0) (.point 0) hitems hitems
      hconcatenable hconcatenable _).1 hwhole,
    sum, hsum, hkeys, hnames "k"⟩

end Eval

end JsonFilter
