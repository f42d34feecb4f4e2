import JsonFilter.Proofs.Template.Course
import JsonFilter.Proofs.Template.ReadBack

/-!
# Escaped characters

A backslash inside of a filter hides the next character, so which character it is should make no difference to
the places of the filters.  It makes one where the character is a brace and the same brace follows: the pair is
found by a look at the character before, and that look sees the hidden brace, too.

* `Stand.forget` — a stand without the texts that it has read.
* **`ranges_escaped`** — when the hidden character makes no difference, and what it does otherwise.
-/

namespace JsonFilter.Template

open Text (byteLength byteLength_append byteLength_concat)

/-! ### What the places depend on -/

/-- Without the text read. -/
def Segment.bare : Segment → Segment
  | .literal _ => .literal []
  | .filter _ start quote _ => .filter [] start quote []

namespace Stand

/-- Without the texts read. -/
def forget (s : Stand) : Stand :=
  ⟨s.slots.map fun slot => ⟨[], [], slot.span⟩, s.place, s.previous, s.veil, s.segment.bare⟩

variable {s t : Stand}

theorem forget_congr {slots slots' : List Slot} {segment segment' : Segment} (place : Nat)
    (previous : Option Char) (veil : Veil) (hslots : slots.map Slot.span = slots'.map Slot.span)
    (hsegment : segment.bare = segment'.bare) :
    forget ⟨slots, place, previous, veil, segment⟩ = forget ⟨slots', place, previous, veil, segment'⟩ := by
  have hbare (slots : List Slot) : (slots.map fun slot => Slot.mk [] [] slot.span) =
      (slots.map Slot.span).map (Slot.mk [] []) := List.map_map.symm
  unfold forget
  rw [hbare, hbare, hslots, hsegment]

/-- The texts read do not matter for the next character. -/
theorem next_congr (h : s.forget = t.forget) (c : Char) : (s.next c).map forget = (t.next c).map forget := by
  obtain ⟨slots, place, previous, veil, segment⟩ := s
  obtain ⟨slots', place', previous', veil', segment'⟩ := t
  injection h with hslots hplace hprevious hveil hsegment
  subst hplace hprevious hveil
  have hspans : slots.map Slot.span = slots'.map Slot.span := by
    have := congrArg (List.map Slot.span) hslots
    rwa [List.map_map, List.map_map] at this
  cases segment with
  | literal text =>
    cases segment' with
    | literal text' =>
      unfold next push
      dsimp only
      split_ifs
      · exact congrArg Except.ok (forget_congr _ _ _ hspans rfl)
      · exact congrArg Except.ok (forget_congr _ _ _ hspans rfl)
      · rfl
      · exact congrArg Except.ok (forget_congr _ _ _ hspans rfl)
    | filter before start quote text' => cases hsegment
  | filter before start quote text =>
    cases segment' with
    | literal text' => cases hsegment
    | filter before' start' quote' text' =>
      injection hsegment with _ hstart hquote
      subst hstart hquote
      unfold next push
      dsimp only
      split_ifs
      · exact congrArg Except.ok (forget_congr _ _ _ hspans rfl)
      · exact congrArg Except.ok (forget_congr _ _ _ hspans rfl)
      · exact congrArg Except.ok (forget_congr _ _ _ hspans rfl)
      · rfl
      · exact congrArg Except.ok (forget_congr _ _ _ (by rw [List.map_append, hspans, List.map_append]; rfl) rfl)
      · exact congrArg Except.ok (forget_congr _ _ _ hspans rfl)

/-- Two characters after which the stands differ in texts only are followed by the same filters. -/
theorem ranges_cons_congr {c d : Char} {cs : List Char}
    (hrest : ∀ {s t : Stand}, s.forget = t.forget → s.ranges cs = t.ranges cs)
    (h : (s.next c).map forget = (t.next d).map forget) : s.ranges (c :: cs) = t.ranges (d :: cs) := by
  rw [ranges_cons, ranges_cons]
  cases hs : s.next c with
  | error fault =>
    cases ht : t.next d with
    | error fault' =>
      rw [hs, ht] at h
      injection h with h
      rw [h]
    | ok t' =>
      rw [hs, ht] at h
      cases h
  | ok s' =>
    cases ht : t.next d with
    | error fault' =>
      rw [hs, ht] at h
      cases h
    | ok t' =>
      rw [hs, ht] at h
      injection h with h
      exact hrest h

/-- **The texts read do not matter for the places.** -/
theorem ranges_congr (h : s.forget = t.forget) (cs : List Char) : s.ranges cs = t.ranges cs := by
  induction cs generalizing s t with
  | nil =>
    obtain ⟨slots, place, previous, veil, segment⟩ := s
    obtain ⟨slots', place', previous', veil', segment'⟩ := t
    injection h with hslots hplace hprevious hveil hsegment
    have hspans := congrArg (List.map Slot.span) hslots
    rw [List.map_map, List.map_map] at hspans
    cases segment with
    | literal text =>
      cases segment' with
      | literal text' => exact congrArg Except.ok hspans
      | filter => cases hsegment
    | filter before start quote text =>
      cases segment' with
      | literal text' => cases hsegment
      | filter before' start' quote' text' =>
        injection hsegment with _ hstart _
        rw [hstart]
        rfl
  | cons c cs ih => exact ranges_cons_congr ih (next_congr h c)

/-- Behind a character that is not the first of two braces, it does not matter which one that is. -/
theorem next_unseen {before text : List Char} {start : Nat} {quote : Option Char} {b : Char}
    (hsegment : s.segment = .filter before start quote text)
    (hunseen : quote = none → isBrace b = true → s.previous ≠ some b) (previous : Option Char)
    (hprevious : quote = none → isBrace b = true → previous ≠ some b) :
    next { s with previous := previous } b = s.next b := by
  have hdouble (first : Option Char) (hfirst : quote = none → isBrace b = true → first ≠ some b)
      (brace : Char) (hbrace : isBrace brace = true) :
      (quote.isNone && decide (b = brace) && first == some brace) = false := by
    rw [Bool.eq_false_iff]
    intro hpair
    simp only [Bool.and_eq_true, Option.isNone_iff_eq_none, decide_eq_true_eq, beq_iff_eq] at hpair
    obtain ⟨⟨hquote, rfl⟩, hpair⟩ := hpair
    exact hfirst hquote hbrace hpair
  unfold next
  rw [hsegment]
  dsimp only
  rw [hdouble _ hunseen '\x7b' rfl, hdouble _ hunseen '\x7d' rfl, hdouble _ hprevious '\x7b' rfl,
    hdouble _ hprevious '\x7d' rfl]
  unfold push
  rw [hsegment]

/-- The filters found stay found. -/
theorem mem_ranges {cs : List Char} {spans : List Span} (h : s.ranges cs = .ok spans) {slot : Slot}
    (hslot : slot ∈ s.slots) : slot.span ∈ spans := by
  unfold ranges at h
  rw [scan_eq_scanFrom] at h
  cases hscan : scanFrom cs s.place s.previous (s.veil.covers cs.head?) s.segment with
  | error fault =>
    rw [hscan] at h
    cases h
  | ok parts =>
    rw [hscan] at h
    injection h with h
    rw [← h]
    exact List.mem_map_of_mem (List.mem_append_left _ hslot)

/-- Behind a backslash and the character that it hides. -/
def escape (s : Stand) (c : Char) : Stand := { s.push '\\' with veil := .anything }.push c

/-- A backslash that is read hides the next character. -/
theorem ranges_escape {before text : List Char} {start : Nat} {quote : Option Char}
    (hsegment : s.segment = .filter before start quote text) (hread : s.veil.covers (some '\\') = false)
    (c : Char) (cs : List Char) : s.ranges ('\\' :: c :: cs) = (s.escape c).ranges cs := by
  have hslash : s.next '\\' = .ok { s.push '\\' with veil := .anything } := by
    unfold next
    rw [hread, hsegment]
    rfl
  rw [ranges_cons, hslash]
  show ranges _ (c :: cs) = _
  rw [ranges_cons]
  rfl

end Stand

/-- **The hidden character.**  In a filter, what a backslash hides makes no difference to the places of the
filters, unless it is a brace outside of quotes and the same brace follows.  In that case the two count as a
pair: they open inside of the filter, which is a fault, or end the filter. -/
theorem ranges_escaped {front before text : List Char} {s : Stand} {start : Nat} {quote : Option Char}
    (hreached : Stand.start.after front = .ok s) (hsegment : s.segment = .filter before start quote text)
    (hread : s.veil.covers (some '\\') = false) {c d : Char} (hc : c.utf8Size = 1) (hd : d.utf8Size = 1)
    (behind : List Char) :
    ((quote = none → ∀ b ∈ behind.head?, isBrace b = true → b ≠ c ∧ b ≠ d) →
      ranges (.ofList (front ++ '\\' :: c :: behind)) = ranges (.ofList (front ++ '\\' :: d :: behind))) ∧
    (quote = none → c = '\x7b' → behind.head? = some '\x7b' →
      ranges (.ofList (front ++ '\\' :: c :: behind)) =
        .error (.nestedOpening (byteLength front + 1) (start - 2))) ∧
    (quote = none → c = '\x7d' → behind.head? = some '\x7d' →
      ∀ spans, ranges (.ofList (front ++ '\\' :: c :: behind)) = .ok spans →
        ⟨start, byteLength front + 1⟩ ∈ spans) := by
  have hranges (c : Char) :
      ranges (.ofList (front ++ '\\' :: c :: behind)) = (s.escape c).ranges behind := by
    rw [ranges_eq_start, String.toList_ofList]
    refine Eq.trans ?_ (Stand.ranges_escape hsegment hread c behind)
    exact congrArg (Except.map _) (Stand.scan_append hreached _)
  have hfilter (c : Char) :
      (s.escape c).segment = .filter before start quote (c :: '\\' :: text) := by
    show (s.segment.push '\\').push c = _
    rw [hsegment]
    rfl
  have hplace : (s.escape c).place = byteLength front + 2 := by
    show s.place + 1 + c.utf8Size = _
    rw [(Reads.of_after hreached).place, hc]
  refine ⟨fun hunseen => ?_, fun hquote hopens hbehind => ?_, fun hquote hcloses hbehind spans hspans => ?_⟩
  · -- the stands behind the two characters differ in the last character read, and in texts
    have hforget : Stand.forget { s.escape c with previous := some d } = (s.escape d).forget := by
      unfold Stand.forget
      dsimp only
      rw [hfilter c, hfilter d]
      unfold Stand.escape Stand.push
      rw [hc, hd]
      rfl
    rw [hranges, hranges]
    cases behind with
    | nil =>
      unfold Stand.ranges
      rw [Stand.scan_eq_finish rfl, Stand.scan_eq_finish rfl]
      unfold Stand.finish
      rw [hfilter c, hfilter d]
    | cons b behind =>
      refine Stand.ranges_cons_congr (fun h => Stand.ranges_congr h behind) ?_
      have hnext := Stand.next_congr hforget b
      rwa [Stand.next_unseen (hfilter c)
        (fun hquote hbrace heq => (hunseen hquote b rfl hbrace).1 (Option.some.inj heq).symm) _
        (fun hquote hbrace heq => (hunseen hquote b rfl hbrace).2 (Option.some.inj heq).symm)] at hnext
  · obtain ⟨rest, rfl⟩ := List.head?_eq_some_iff.1 hbehind
    subst hquote hopens
    have hnext : (s.escape '\x7b').next '\x7b' = .error (.nestedOpening (byteLength front + 1) (start - 2)) := by
      unfold Stand.next
      rw [hfilter, hplace]
      rfl
    rw [hranges, Stand.ranges_cons, hnext]
    rfl
  · obtain ⟨rest, rfl⟩ := List.head?_eq_some_iff.1 hbehind
    subst hquote hcloses
    have hnext : (s.escape '\x7d').next '\x7d' = .ok ⟨s.slots ++ [⟨before, ('\\' :: text).reverse,
        ⟨start, byteLength front + 1⟩⟩], byteLength front + 3, some '\x7d', .brace '\x7d', .literal []⟩ := by
      unfold Stand.next
      rw [hfilter, hplace]
      rfl
    rw [hranges, Stand.ranges_cons, hnext] at hspans
    exact Stand.mem_ranges hspans (List.mem_append_right _ List.mem_cons_self)

/-- A closing brace that a backslash hides, between quotes and in front of another one. -/
theorem ranges_escaped_in_string :
    ranges "\x7b\x7b'\\\x7d\x7d' \x7d\x7d" = ranges "\x7b\x7b'\\n\x7d' \x7d\x7d" := by
  have hreached : Stand.start.after ['\x7b', '\x7b', '\x27'] =
    .ok ⟨[], 3, some '\x27', .nothing, .filter [] 2 (some '\x27') ['\x27']⟩ := rfl
  exact (ranges_escaped hreached rfl rfl (show '\x7d'.utf8Size = 1 from rfl)
    (show 'n'.utf8Size = 1 from rfl) ['\x7d', '\x27', ' ', '\x7d', '\x7d']).1 nofun

/-- With an opening brace in the place of another hidden character the template is refused. -/
theorem escaped_brace_counts :
    ∃ s, Stand.start.after ['\x7b', '\x7b'] = .ok s ∧ s.segment = .filter [] 2 none [] ∧
      s.veil.covers (some '\\') = false ∧
      ranges "\x7b\x7b\\a\x7b\x7d\x7d" = .ok [⟨2, 5⟩] ∧
      ranges "\x7b\x7b\\\x7b\x7b\x7d\x7d" = .error (.nestedOpening 3 0) :=
  ⟨_, rfl, rfl, rfl, by decide +kernel, by decide +kernel⟩

end JsonFilter.Template
