import JsonFilter.Proofs.Eval.Limits
import JsonFilter.Proofs.Numeric.Integers

/-!
# Ranges of integers

`range(start; stop)` counts with binary64 numbers: it begins at the number nearest to `start`, adds one, and
ends where the number nearest to `stop` is reached.  Between `-2 ^ 53` and `2 ^ 53` this goes through the
integers.  Beyond, a number plus one may be the same number again, and then the range goes on with it for
ever.

* `climb` — the integers that a range goes through, a step for each turn of its loop.
* **`range_shows_climb`** — the results of a range show these integers.
* **`range_of_integers`** — which integers a range gives up to `2 ^ 53`, and between which numbers it ends.
* `range_stands_still` — `range(9007199254740992; 9007199254740994)` does not end.
-/

namespace JsonFilter.Eval

open JsonFilter.Filter Json

/-! ### The way from one integer to another -/

/-- The integers on the way to a bound, as far as some turns lead. -/
def climb (bound : Int) : Nat → Int → List Int
  | 0, _ => []
  | turns + 1, a => if bound ≤ a then [] else a :: climb bound turns (nearest (a + 1))

/-- Whether the bound is reached with so many turns. -/
def arrives (bound : Int) : Nat → Int → Bool
  | 0, _ => false
  | turns + 1, a => bound ≤ a || arrives bound turns (nearest (a + 1))

/-- Where the bound is not reached, every turn leads to one more integer. -/
theorem length_climb {bound : Int} {turns : Nat} {a : Int} (h : arrives bound turns a = false) :
    (climb bound turns a).length = turns := by
  induction turns generalizing a with
  | zero => rfl
  | succ turns ih =>
    simp only [arrives, Bool.or_eq_false_iff, decide_eq_false_iff_not] at h
    obtain ⟨hbelow, hrest⟩ := h
    rw [climb, if_neg hbelow, List.length_cons, ih hrest]

/-- A way ends if it ends behind its first step. -/
theorem exists_arrives_of_succ {bound a : Int}
    (h : ∃ turns, arrives bound turns (nearest (a + 1)) = true) :
    ∃ turns, arrives bound turns a = true := by
  obtain ⟨turns, harrives⟩ := h
  refine ⟨turns + 1, ?_⟩
  rw [arrives, harrives, Bool.or_true]

/-- Up to `2 ^ 53` the way leads through all integers. -/
theorem climb_of_le {bound : Int} (hbound : bound ≤ 2 ^ 53) {a : Int} (ha : -2 ^ 53 ≤ a) {turns : Nat}
    (hturns : (bound - a).toNat < turns) :
    climb bound turns a = (List.range (bound - a).toNat).map (fun k : Nat => a + k) ∧
      arrives bound turns a = true := by
  induction turns generalizing a with
  | zero => exact absurd hturns (Nat.not_lt_zero _)
  | succ turns ih =>
    by_cases hdone : bound ≤ a
    · have hnone : (bound - a).toNat = 0 := by omega
      rw [climb, if_pos hdone, arrives, hnone]
      simp [hdone]
    · have hnext : nearest (a + 1) = a + 1 := nearest_of_le (by omega) (by omega)
      obtain ⟨hway, harrives⟩ := ih (a := a + 1) (by omega) (by omega)
      have hcount : (bound - a).toNat = (bound - (a + 1)).toNat + 1 := by omega
      rw [climb, if_neg hdone, arrives, hnext, harrives, hway, hcount, List.range_succ_eq_map]
      simp [Function.comp_def, Int.add_assoc, Int.add_comm 1]

/-- Between which integers of 53 bits the way ends: none is left to go, both are within the limits, or a tie
leads from the one to the other. -/
def WayEnds (a bound : Int) : Prop :=
  bound ≤ a ∨ (-2 ^ 53 - 2 ≤ a ∧ bound ≤ 2 ^ 53) ∨ (a % 4 = 2 ∧ bound = a + 2)

section

variable {bound : Int} (hbound : nearest bound = bound)
include hbound

/-- On a way that does not end a step leads to another one. -/
theorem not_wayEnds_succ {a : Int} (ha : nearest a = a) (h : ¬ WayEnds a bound) :
    ¬ WayEnds (nearest (a + 1)) bound := by
  have heven := even_of_nearest ha
  have heven' := even_of_nearest hbound
  simp only [WayEnds, not_or, not_and] at h ⊢
  rw [nearest_succ ha]
  obtain ⟨hbelow, hinside, hlast⟩ := h
  -- Beyond the limits only even integers are kept, so a bound above a tie is at least two above it.
  split_ifs with hsmall hodd
  · refine ⟨?_, ?_, ?_⟩ <;> omega
  · refine ⟨?_, ?_, ?_⟩ <;> omega
  · exact ⟨hbelow, hinside, hlast⟩

theorem arrives_eq_false {a : Int} (ha : nearest a = a) (h : ¬ WayEnds a bound) (turns : Nat) :
    arrives bound turns a = false := by
  induction turns generalizing a with
  | zero => rfl
  | succ turns ih =>
    have hbelow : ¬ bound ≤ a := fun hdone => h (.inl hdone)
    rw [arrives, ih (nearest_idem _) (not_wayEnds_succ hbound ha h), decide_eq_false hbelow]
    rfl

/-- **Where ways end:** the bound is not above the start, or both are integers of 53 bits, but for one more
at the lower end, or a single step of two leads from the one to the other. -/
theorem arrives_iff {a : Int} (ha : nearest a = a) :
    (∃ turns, arrives bound turns a = true) ↔ WayEnds a bound := by
  have hinside {c : Int} (hc : -2 ^ 53 ≤ c) (hle : bound ≤ 2 ^ 53) :
      ∃ turns, arrives bound turns c = true :=
    ⟨_, (climb_of_le hle hc (Nat.lt_succ_self _)).2⟩
  constructor
  · rintro ⟨turns, harrives⟩
    by_contra hendless
    rw [arrives_eq_false hbound ha hendless] at harrives
    cases harrives
  · rintro (hdone | ⟨hlow, hhigh⟩ | ⟨hodd, hlast⟩)
    · refine ⟨1, ?_⟩
      rw [arrives, decide_eq_true hdone, Bool.true_or]
    · rcases le_or_gt (-2 ^ 53) a with hin | hout
      · exact hinside hin hhigh
      · -- The least integer of this kind: its successor is a tie.
        have heven := even_of_nearest ha (.inl hout.le)
        have hstep := nearest_succ ha
        rw [if_neg (by omega), if_pos (by omega)] at hstep
        refine exists_arrives_of_succ ?_
        rw [hstep]
        exact hinside (by omega) hhigh
    · by_cases hsmall : -2 ^ 53 ≤ a ∧ a < 2 ^ 53
      · exact hinside hsmall.1 (by omega)
      · have hstep := nearest_succ ha
        rw [if_neg hsmall, if_pos hodd] at hstep
        refine exists_arrives_of_succ ⟨1, ?_⟩
        rw [hstep, hlast, arrives, decide_eq_true le_rfl, Bool.true_or]

end

/-! ### What a range shows -/

/-- A result that is the number of an integer. -/
def Shows (r : Result) (a : Int) : Prop :=
  ∃ x : Finite64, x.value = a ∧ r = .ok (.ofBinary64 (.finite x))

/-- Integers below `2 ^ 53` are written as such. -/
theorem Shows.eq_ofInt {r : Result} {a : Int} (h : Shows r a) (ha : a.natAbs < 2 ^ 53) :
    r = .ok (.ofInt a) := by
  obtain ⟨x, hx, rfl⟩ := h
  obtain ⟨hintegral, htruncated⟩ := Finite64.isIntegral_of_value hx
  have hexact : x.truncated < Value.exactLimit := by rwa [htruncated]
  rw [Value.ofBinary64, Value.ofFinite, hintegral, decide_eq_true hexact, Bool.and_self, if_pos rfl,
    Finite64.toInt_of_value hx]

theorem Shows.eq_map_ofInt {results : List Result} {integers : List Int}
    (h : List.Forall₂ Shows results integers) (hsmall : ∀ a ∈ integers, a.natAbs < 2 ^ 53) :
    results = integers.map fun a => .ok (.ofInt a) := by
  induction h with
  | nil => rfl
  | cons hshows _ ih =>
    obtain ⟨hfirst, hrest⟩ := List.forall_mem_cons.1 hsmall
    rw [List.map_cons, hshows.eq_ofInt hfirst, ih hrest]

/-- An integer of at most 65 bits has room among the binary64 numbers. -/
theorem log2_lt_of_bounds {i : Int} (hlow : -2 ^ 64 ≤ i) (hhigh : i ≤ 2 ^ 64) :
    i.natAbs.log2 < 1000 := by
  rcases Nat.eq_zero_or_pos i.natAbs with hzero | hpos
  · rw [hzero]
    decide
  · have hlog : i.natAbs.log2 < 65 := (Nat.log2_lt (by omega)).2 (by omega)
    omega

/-- Counting up to a bound shows the way to it. -/
theorem countUp_shows {y : Finite64} {bound : Int} (hy : y.value = bound) (hbound : bound ≤ 2 ^ 64)
    {x : Finite64} {a : Int} (hx : x.value = a) (ha : nearest a = a) (hlow : -2 ^ 64 ≤ a) (turns : Nat) :
    List.Forall₂ Shows ((Outputs.countUp (.finite y) turns (.finite x)).transcript .unlimited).results
        (climb bound turns a) ∧
      ((Outputs.countUp (.finite y) turns (.finite x)).transcript .unlimited).complete =
        arrives bound turns a := by
  induction turns generalizing x a with
  | zero => exact ⟨.nil, rfl⟩
  | succ turns ih =>
    have horder : Binary64.le (.finite y) (.finite x) = true ↔ bound ≤ a := by
      rw [Binary64.le_finite_iff, hy, hx, Int.cast_le]
    by_cases hdone : bound ≤ a
    · rw [Outputs.countUp, if_pos (horder.2 hdone), climb, if_pos hdone, arrives, decide_eq_true hdone]
      exact ⟨.nil, rfl⟩
    · -- The way stays between its start and its bound, so no number on it is infinite.
      have hroom : (a + 1).natAbs.log2 < 1000 := log2_lt_of_bounds (by omega) (by omega)
      obtain ⟨x', hnext, hx'⟩ := Binary64.exists_ofInt hroom
      have hstay : a ≤ nearest (a + 1) := by
        have hmono := nearest_mono (show a ≤ a + 1 by omega)
        rwa [ha] at hmono
      obtain ⟨hrest, hends⟩ := ih hx' (nearest_idem _) (hlow.trans hstay)
      rw [Outputs.countUp, if_neg (mt horder.1 hdone), climb, if_neg hdone, arrives,
        decide_eq_false hdone, Binary64.add_one_eq hx, hnext]
      exact ⟨.cons ⟨x, hx, rfl⟩ hrest, hends⟩

/-! ### Ranges -/

/-- The integers of JSON texts: the signed and the unsigned ones of 64 bits. -/
def IsWord (i : Int) : Prop := -2 ^ 63 ≤ i ∧ i < 2 ^ 64

theorem IsWord.nearest_bounds {i : Int} (h : IsWord i) : -2 ^ 64 ≤ nearest i ∧ nearest i ≤ 2 ^ 64 := by
  have hlow := nearest_mono (show -2 ^ 64 ≤ i from (by decide : (-2 ^ 64 : Int) ≤ -2 ^ 63).trans h.1)
  have hhigh := nearest_mono h.2.le
  have hleast : nearest (-2 ^ 64) = -2 ^ 64 := by decide +kernel
  have hgreatest : nearest (2 ^ 64) = 2 ^ 64 := by decide +kernel
  rw [hleast] at hlow
  rw [hgreatest] at hhigh
  exact ⟨hlow, hhigh⟩

/-- The number nearest to an integer of a JSON text stands for one. -/
theorem IsWord.exists_ofInt {i : Int} (h : IsWord i) :
    ∃ x, Binary64.ofInt i = .finite x ∧ x.value = nearest i :=
  Binary64.exists_ofInt (log2_lt_of_bounds ((by decide : (-2 ^ 64 : Int) ≤ -2 ^ 63).trans h.1) h.2.le)

/-- Counting between two integers of JSON texts. -/
theorem countUp_ofInt_shows {start stop : Int} (hstart : IsWord start) (hstop : IsWord stop) (turns : Nat) :
    let t := (Outputs.countUp (.ofInt stop) turns (.ofInt start)).transcript .unlimited
    List.Forall₂ Shows t.results (climb (nearest stop) turns (nearest start)) ∧
      t.complete = arrives (nearest stop) turns (nearest start) := by
  obtain ⟨x, hofStart, hx⟩ := hstart.exists_ofInt
  obtain ⟨y, hofStop, hy⟩ := hstop.exists_ofInt
  rw [hofStart, hofStop]
  exact countUp_shows hy hstop.nearest_bounds.2 hx (nearest_idem _) hstart.nearest_bounds.1 turns

section

variable {f g : Expr} {C : Contexts Nat id} {input : Value} {start stop : Int}
  (hf : Gives (fun turns => eval f (C.get turns) input) [.ok (.ofInt start)])
  (hg : Gives (fun turns => eval g (C.get turns) input) [.ok (.ofInt stop)])
include hf hg

/-- A range between two integers counts from the one to the other. -/
theorem eventually_range (span : Span) : ∀ᶠ turns in Filter.atTop,
    let t := (eval (.call "range" [f, g] span) (C.get turns) input).transcript .unlimited
    let counted := (Outputs.countUp (.ofInt stop) turns (.ofInt start)).transcript .unlimited
    t.results = counted.results ∧ t.complete = counted.complete := by
  filter_upwards [hf, hg] with turns hstart hstop
  simp only [eval, evalCall, show Binary.ofName? "range" = some .range from by decide, callBinary]
  constructor
  · refine (Outputs.unlimited_bind_of_single hstart.1 hstart.2 _).1.trans ?_
    exact (Outputs.unlimited_bind_of_single hstop.1 hstop.2 _).1
  · refine (Outputs.unlimited_bind_of_single hstart.1 hstart.2 _).2.trans ?_
    exact (Outputs.unlimited_bind_of_single hstop.1 hstop.2 _).2

variable (hstart : IsWord start) (hstop : IsWord stop) (span : Span)
include hstart hstop

/-- **Ranges show the way** from the one integer of 53 bits to the other. -/
theorem range_shows_climb : ∀ᶠ turns in Filter.atTop,
    let t := (eval (.call "range" [f, g] span) (C.get turns) input).transcript .unlimited
    List.Forall₂ Shows t.results (climb (nearest stop) turns (nearest start)) ∧
      t.complete = arrives (nearest stop) turns (nearest start) := by
  filter_upwards [eventually_range hf hg span] with turns hcounted
  obtain ⟨hshows, hends⟩ := countUp_ofInt_shows hstart hstop turns
  exact ⟨hcounted.1.symm ▸ hshows, hcounted.2.trans hends⟩

/-- A range whose way ends gives what it shows on it, and no more. -/
theorem range_gives {turns : Nat} (h : arrives (nearest stop) turns (nearest start) = true) :
    ∃ results, Gives (fun turns => eval (.call "range" [f, g] span) (C.get turns) input) results ∧
      List.Forall₂ Shows results (climb (nearest stop) turns (nearest start)) := by
  obtain ⟨hshows, hends⟩ := countUp_ofInt_shows hstart hstop turns
  refine ⟨_, ?_, hshows⟩
  have hreaches := Reaches.countUp (.ofInt stop) turns (.ofInt start) 0
  filter_upwards [eventually_range hf hg span, hreaches.gives (hends.trans h)] with more hcounted hgives
  exact ⟨hcounted.1.trans hgives.1, hcounted.2.trans hgives.2⟩

/-- A range whose way does not end gives a result in every turn. -/
theorem range_endless (h : ¬ WayEnds (nearest start) (nearest stop)) : ∀ᶠ turns in Filter.atTop,
    let t := (eval (.call "range" [f, g] span) (C.get turns) input).transcript .unlimited
    t.results.length = turns ∧ t.complete = false := by
  filter_upwards [range_shows_climb hf hg hstart hstop span] with turns hturns
  have hnever := arrives_eq_false (nearest_idem stop) (nearest_idem start) h turns
  exact ⟨hturns.1.length_eq.trans (length_climb hnever), hturns.2.trans hnever⟩

end

/-- **Ranges of integers.**  Let two filters give one integer of a JSON text each.  If both are between
`-2 ^ 53` and `2 ^ 53`, or the second one is not above the first one, the range between them gives the
numbers from the first one up to the second one, written as integers, and ends; only `-2 ^ 53` itself is not
written as an integer.  In general it depends on what 53 bits keep of the two whether a range ends: it does if
the second one is not above the first one then, if they are between these limits (the first one may be two
below), or if the first one is twice an odd number and the second one is two above it.  No other range ends;
each gives more and more results. -/
theorem range_of_integers {f g : Expr} {C : Contexts Nat id} {input : Value} {start stop : Int}
    (hf : Gives (fun turns => eval f (C.get turns) input) [.ok (.ofInt start)])
    (hg : Gives (fun turns => eval g (C.get turns) input) [.ok (.ofInt stop)])
    (hstart : IsWord start) (hstop : IsWord stop) (span : Span) :
    let out turns := eval (.call "range" [f, g] span) (C.get turns) input
    (stop ≤ start ∨ (-2 ^ 53 ≤ start ∧ stop ≤ 2 ^ 53) →
      let integers := (List.range (stop - start).toNat).map fun k : Nat => start + k
      ∃ results, Gives out results ∧ List.Forall₂ Shows results integers ∧
        (-2 ^ 53 < start → results = integers.map fun a => .ok (.ofInt a))) ∧
    ((∃ results, Gives out results) ↔ WayEnds (nearest start) (nearest stop)) ∧
    (¬ WayEnds (nearest start) (nearest stop) →
      ∀ n, ∀ᶠ turns in Filter.atTop, n ≤ ((out turns).transcript .unlimited).results.length) := by
  intro out
  have hendless := range_endless hf hg hstart hstop span
  refine ⟨fun hclaimed => ?_, ⟨?_, fun hends => ?_⟩, fun h n => ?_⟩
  · by_cases hdone : stop ≤ start
    · have hnone : (stop - start).toNat = 0 := by omega
      have harrives : arrives (nearest stop) 1 (nearest start) = true := by
        rw [arrives, decide_eq_true (nearest_mono hdone), Bool.true_or]
      obtain ⟨results, hgives, hshows⟩ := range_gives hf hg hstart hstop span harrives
      rw [climb, if_pos (nearest_mono hdone)] at hshows
      rw [hnone]
      exact ⟨results, hgives, hshows, fun _ => Shows.eq_map_ofInt hshows (List.forall_mem_nil _)⟩
    · obtain ⟨hlow, hhigh⟩ := hclaimed.resolve_left hdone
      obtain ⟨hway, harrives⟩ := climb_of_le hhigh hlow (Nat.lt_succ_self _)
      have hkeptStart : nearest start = start := nearest_of_le hlow (by omega)
      have hkeptStop : nearest stop = stop := nearest_of_le (by omega) hhigh
      obtain ⟨results, hgives, hshows⟩ := range_gives hf hg hstart hstop span
        (by rw [hkeptStart, hkeptStop]; exact harrives)
      rw [hkeptStart, hkeptStop, hway] at hshows
      refine ⟨results, hgives, hshows, fun habove => Shows.eq_map_ofInt hshows fun a ha => ?_⟩
      obtain ⟨k, hk, rfl⟩ := List.mem_map.1 ha
      have hcount := List.mem_range.1 hk
      omega
  · rintro ⟨results, hgives⟩
    by_contra h
    obtain ⟨turns, hcut, -, hcomplete⟩ := ((hendless h).and hgives).exists
    rw [hcut.2] at hcomplete
    cases hcomplete
  · obtain ⟨turns, harrives⟩ := (arrives_iff (nearest_idem stop) (nearest_idem start)).2 hends
    obtain ⟨results, hgives, -⟩ := range_gives hf hg hstart hstop span harrives
    exact ⟨results, hgives⟩
  · filter_upwards [hendless h, Filter.eventually_ge_atTop n] with turns hturns hmore
    rw [hturns.1]
    exact hmore

/-- Two bound integers. -/
def boundIntegers (start stop : Int) : Contexts Nat id :=
  ((Contexts.empty id .null fun _ => .failWith).bind "start" (.ofInt start)).bind "stop" (.ofInt stop)

theorem gives_boundIntegers (start stop : Int) :
    Gives (fun turns => eval (.variable "start" (.point 0)) ((boundIntegers start stop).get turns) .null)
        [.ok (.ofInt start)] ∧
      Gives (fun turns => eval (.variable "stop" (.point 0)) ((boundIntegers start stop).get turns) .null)
        [.ok (.ofInt stop)] :=
  ⟨.of_forall fun _ => ⟨rfl, rfl⟩, .of_forall fun _ => ⟨rfl, rfl⟩⟩

/-- `range($start; $stop)` up to `2 ^ 53`. -/
theorem range_of_integers_below_limit :
    let C := boundIntegers (2 ^ 53 - 2) (2 ^ 53)
    let bounds : List Expr := [.variable "start" (.point 0), .variable "stop" (.point 0)]
    Gives (fun turns => eval (.call "range" bounds (.point 0)) (C.get turns) .null)
      [.ok (.ofInt (2 ^ 53 - 2)), .ok (.ofInt (2 ^ 53 - 1))] := by
  intro C bounds
  have hstart : IsWord (2 ^ 53 - 2) := ⟨by decide, by decide⟩
  have hstop : IsWord (2 ^ 53) := ⟨by decide, by decide⟩
  obtain ⟨hf, hg⟩ := gives_boundIntegers (2 ^ 53 - 2) (2 ^ 53)
  obtain ⟨hclaimed, -⟩ := range_of_integers hf hg hstart hstop (.point 0)
  obtain ⟨results, hgives, -, hwritten⟩ := hclaimed (.inr (by decide))
  obtain rfl := hwritten (by decide)
  exact hgives

/-- `range($start; $stop)` from `2 ^ 53` to the number behind it: one more is the same number again. -/
theorem range_stands_still :
    let C := boundIntegers (2 ^ 53) (2 ^ 53 + 2)
    let bounds : List Expr := [.variable "start" (.point 0), .variable "stop" (.point 0)]
    IsWord (2 ^ 53) ∧ IsWord (2 ^ 53 + 2) ∧
      ¬ ∃ results, Gives (fun turns => eval (.call "range" bounds (.point 0)) (C.get turns) .null)
        results := by
  intro C bounds
  have hstart : IsWord (2 ^ 53) := ⟨by decide, by decide⟩
  have hstop : IsWord (2 ^ 53 + 2) := ⟨by decide, by decide⟩
  refine ⟨hstart, hstop, fun ⟨results, hgives⟩ => ?_⟩
  have hway : ¬ WayEnds (nearest (2 ^ 53)) (nearest (2 ^ 53 + 2)) := by
    have hkept : nearest (2 ^ 53) = 2 ^ 53 := by decide +kernel
    have hkept' : nearest (2 ^ 53 + 2) = 2 ^ 53 + 2 := by decide +kernel
    rw [hkept, hkept', WayEnds]
    omega
  obtain ⟨hf, hg⟩ := gives_boundIntegers (2 ^ 53) (2 ^ 53 + 2)
  have hendless := range_endless hf hg hstart hstop (.point 0) hway
  obtain ⟨turns, hcut, -, hcomplete⟩ := (hendless.and hgives).exists
  rw [hcut.2] at hcomplete
  cases hcomplete

end JsonFilter.Eval
