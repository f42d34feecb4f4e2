import JsonFilter.Proofs.Text.Bytes
import JsonFilter.Template.Render

/-!
# The course of a scan

`scanFrom` gives its result when it has come to the end.  What it knows half way is a `Stand`: the filters found
so far, and what the place is inside of.  A scan goes from one stand to the next, a character at a time, without
a look ahead: a brace that will be the third one in a row is hidden before it comes.  So the stand behind a part
of a template depends on that part only.

* `Stand.next`, `Stand.after` — one character further, and all characters of a text.
* `Stand.Step` — what one character can do.
* **`scan_eq_start`** — a scan is the way from the start of a template to its end.
* `ranges` — the places of the filters of a template.
* **`Reads.after`** — the text in front of a stand is what its filters and its segment were written as.
-/

namespace JsonFilter.Template

open Text (byteLength byteLength_append byteLength_concat)

/-! ### Stands -/

/-- Which next character has no meaning of its own. -/
inductive Veil where
  | nothing
  /-- Whatever comes, behind a backslash. -/
  | anything
  /-- A brace, behind two of its kind. -/
  | brace (c : Char)
deriving DecidableEq

/-- Whether a character is hidden, if it comes next. -/
def Veil.covers : Veil → Option Char → Bool
  | .nothing, _ => false
  | .anything, _ => true
  | .brace c, next => next == some c

/-- What a scan knows at a place. -/
structure Stand where
  /-- The filters found so far. -/
  slots : List Slot
  /-- The bytes in front of the place. -/
  place : Nat
  previous : Option Char
  veil : Veil
  segment : Segment

namespace Stand

/-- In front of a template. -/
def start : Stand := ⟨[], 0, none, .nothing, .literal []⟩

/-- Behind a character that changes nothing. -/
def push (s : Stand) (c : Char) : Stand :=
  ⟨s.slots, s.place + c.utf8Size, some c, .nothing, s.segment.push c⟩

/-- One character further. -/
def next (s : Stand) (c : Char) : Except BraceFault Stand :=
  if s.veil.covers (some c) then .ok (s.push c)
  else
    match s.segment with
    | .literal text =>
      if c = '\x7b' && s.previous == some '\x7b' then
        .ok ⟨s.slots, s.place + 1, some c, .brace '\x7b',
          .filter (text.drop 1).reverse (s.place + 1) none []⟩
      else if c = '\x7d' && s.previous == some '\x7d' then .error (.unmatchedClosing (s.place - 1))
      else .ok (s.push c)
    | .filter before start quote text =>
      if c = '\\' then .ok { s.push c with veil := .anything }
      else if isQuote c then
        .ok { s.push c with segment := .filter before start (nextQuote quote c) (c :: text) }
      else if quote.isNone && c = '\x7b' && s.previous == some '\x7b' then
        .error (.nestedOpening (s.place - 1) (start - 2))
      else if quote.isNone && c = '\x7d' && s.previous == some '\x7d' then
        .ok ⟨s.slots ++ [⟨before, (text.drop 1).reverse, ⟨start, s.place - 1⟩⟩], s.place + 1, some c,
          .brace '\x7d', .literal []⟩
      else .ok (s.push c)

/-- Behind all characters of a text. -/
def after (s : Stand) (cs : List Char) : Except BraceFault Stand := cs.foldlM next s

/-- The parts of a template that ends here. -/
def finish (s : Stand) : Except BraceFault Parts :=
  match s.segment with
  | .literal text => .ok ⟨s.slots, text.reverse⟩
  | .filter _ start _ _ => .error (.unterminatedOpening (start - 2))

/-- The parts of a template that goes on with a text to its end. -/
def scan (s : Stand) (cs : List Char) : Except BraceFault Parts := s.after cs >>= finish

/-! ### The scan by stands -/

section

variable {s s' s'' : Stand} {c : Char} {cs ds : List Char}

theorem after_cons (s : Stand) (c : Char) (cs : List Char) :
    s.after (c :: cs) = s.next c >>= (after · cs) := List.foldlM_cons

theorem after_append (s : Stand) (cs ds : List Char) : s.after (cs ++ ds) = s.after cs >>= (after · ds) :=
  List.foldlM_append

/-- The way to a place leads over the place in front of it. -/
theorem after_concat (h : s.after (cs ++ [c]) = .ok s'') :
    ∃ s', s.after cs = .ok s' ∧ s'.next c = .ok s'' := by
  rw [after_append] at h
  cases hcs : s.after cs with
  | error fault =>
    rw [hcs] at h
    cases h
  | ok s' =>
    rw [hcs] at h
    have hc : s'.after [c] = .ok s'' := h
    rw [after_cons] at hc
    cases hnext : s'.next c with
    | error fault =>
      rw [hnext] at hc
      cases hc
    | ok t =>
      rw [hnext] at hc
      cases hc
      exact ⟨s', rfl, hnext⟩

theorem after_concat_of (h : s.after cs = .ok s') (hc : s'.next c = .ok s'') :
    s.after (cs ++ [c]) = .ok s'' := by
  rw [after_append, h]
  show s'.after [c] = .ok s''
  rw [after_cons, hc]
  rfl

theorem scan_cons (s : Stand) (c : Char) (cs : List Char) : s.scan (c :: cs) = s.next c >>= (scan · cs) := by
  unfold scan
  rw [after_cons]
  cases s.next c <;> rfl

theorem scan_append (h : s.after cs = .ok s') (ds : List Char) : s.scan (cs ++ ds) = s'.scan ds := by
  unfold scan
  rw [after_append, h]
  rfl

theorem scan_eq_finish (h : s.after cs = .ok s') : s.scan cs = s'.finish := by
  unfold scan
  rw [h]
  rfl

/-- **A stand goes on as the scan does.** -/
theorem scan_eq_scanFrom (s : Stand) (cs : List Char) :
    s.scan cs = (scanFrom cs s.place s.previous (s.veil.covers cs.head?) s.segment).map
      fun parts => { parts with slots := s.slots ++ parts.slots } := by
  induction cs generalizing s with
  | nil =>
    obtain ⟨slots, place, previous, veil, segment⟩ := s
    cases segment with
    | literal text =>
      show Except.ok (Parts.mk slots text.reverse) = Except.ok ⟨slots ++ [], text.reverse⟩
      rw [List.append_nil]
    | filter before start quote text => rfl
  | cons c cs ih =>
    obtain ⟨slots, place, previous, veil, segment⟩ := s
    rw [scan_cons, List.head?_cons]
    unfold next
    dsimp only
    by_cases hveil : veil.covers (some c) = true
    · rw [if_pos hveil, hveil]
      refine (ih _).trans ?_
      cases segment <;> rfl
    · rw [if_neg hveil, Bool.eq_false_iff.2 hveil]
      cases segment with
      | literal text =>
        dsimp only
        rw [scanFrom]
        split
        · exact ih _
        · split
          · rfl
          · exact ih _
      | filter before start quote text =>
        dsimp only
        rw [scanFrom]
        split
        · next hslash =>
          subst hslash
          exact ih _
        · split
          · next hquote =>
            have hsize : c.utf8Size = 1 := by
              simp only [isQuote, Bool.or_eq_true, decide_eq_true_eq] at hquote
              rcases hquote with rfl | rfl <;> rfl
            have hnext := ih ⟨slots, place + c.utf8Size, some c, .nothing,
              .filter before start (nextQuote quote c) (c :: text)⟩
            rw [hsize] at hnext
            refine Eq.trans ?_ hnext
            unfold push
            rw [hsize]
            rfl
          · split
            · rfl
            · split
              · refine (ih _).trans ?_
                cases hrest : scanFrom cs (place + 1) (some c) (cs.head? == some '\x7d') (.literal []) with
                | error fault =>
                  dsimp only [Veil.covers]
                  rw [hrest]
                  rfl
                | ok parts =>
                  dsimp only [Veil.covers]
                  rw [hrest]
                  exact congrArg (fun slots' => Except.ok (Parts.mk slots' parts.rest))
                    (List.append_assoc slots [_] parts.slots)
              · exact ih _

end
end Stand

/-- **A scan is the way from the start to the end.** -/
theorem scan_eq_start (template : String) : scan template = Stand.start.scan template.toList := by
  rw [Stand.scan_eq_scanFrom]
  show scan template = (scan template).map fun parts => parts
  cases scan template <;> rfl

/-! ### The places of the filters -/

/-- The places of the filters, in bytes. -/
def ranges (template : String) : Except BraceFault (List Span) :=
  (scan template).map fun parts => parts.slots.map Slot.span

namespace Stand

/-- The places of the filters of a template that goes on with a text to its end. -/
def ranges (s : Stand) (cs : List Char) : Except BraceFault (List Span) :=
  (s.scan cs).map fun parts => parts.slots.map Slot.span

theorem ranges_cons (s : Stand) (c : Char) (cs : List Char) : s.ranges (c :: cs) = s.next c >>= (ranges · cs) := by
  unfold ranges
  rw [scan_cons]
  cases s.next c <;> rfl

end Stand

theorem ranges_eq_start (template : String) : ranges template = Stand.start.ranges template.toList :=
  congrArg (Except.map _) (scan_eq_start template)

/-! ### Steps -/

/-- What a character can do: it belongs to the literal text or to the filter, or it is the second brace that opens
or closes a filter. -/
inductive Stand.Step (s : Stand) (c : Char) : Stand → Prop
  | literal {text : List Char} {veil : Veil} : s.segment = .literal text →
    Step s c ⟨s.slots, s.place + c.utf8Size, some c, veil, .literal (c :: text)⟩
  | filter {before text : List Char} {start : Nat} {quote quote' : Option Char} {veil : Veil} :
    s.segment = .filter before start quote text →
      Step s c ⟨s.slots, s.place + c.utf8Size, some c, veil, .filter before start quote' (c :: text)⟩
  | opens {text : List Char} : s.veil.covers (some c) = false → s.segment = .literal text → c = '\x7b' →
    s.previous = some c → Step s c ⟨s.slots, s.place + 1, some c, .brace '\x7b', .filter (text.drop 1).reverse (s.place + 1) none []⟩
  | closes {before text : List Char} {start : Nat} {quote : Option Char} :
    s.veil.covers (some c) = false → s.segment = .filter before start quote text → c = '\x7d' →
      s.previous = some c → Step s c ⟨s.slots ++ [⟨before, (text.drop 1).reverse, ⟨start, s.place - 1⟩⟩], s.place + 1, some c,
        .brace '\x7d', .literal []⟩

namespace Stand

variable {s s' : Stand} {c : Char}

theorem step_push (s : Stand) (c : Char) : s.Step c (s.push c) := by
  obtain ⟨slots, place, previous, veil, segment⟩ := s
  cases segment with
  | literal text => exact .literal rfl
  | filter before start quote text => exact .filter rfl

theorem step_of_next (h : s.next c = .ok s') : s.Step c s' := by
  unfold next at h
  split at h
  · cases h
    exact step_push s c
  · next hcovers =>
    have hread : s.veil.covers (some c) = false := Bool.eq_false_iff.2 hcovers
    split at h
    · next text hsegment =>
      split at h
      · next hopens =>
        cases h
        rw [Bool.and_eq_true, decide_eq_true_eq, beq_iff_eq] at hopens
        obtain ⟨rfl, hprevious⟩ := hopens
        exact .opens hread hsegment rfl hprevious
      · split at h
        · cases h
        · cases h
          exact step_push s c
    · next before start quote text hsegment =>
      split at h
      · cases h
        have hpush : s.segment.push c = .filter before start quote (c :: text) := by
          rw [hsegment]
          rfl
        unfold push
        rw [hpush]
        exact .filter hsegment
      · split at h
        · cases h
          exact .filter hsegment
        · split at h
          · cases h
          · split at h
            · next hcloses =>
              cases h
              simp only [Bool.and_eq_true, decide_eq_true_eq, beq_iff_eq] at hcloses
              obtain ⟨⟨-, rfl⟩, hprevious⟩ := hcloses
              exact .closes hread hsegment rfl hprevious
            · cases h
              exact step_push s c

/-- What can be wrong at a character: the second of two braces closes nothing, or opens inside of a filter. -/
theorem fault_of_next {fault : BraceFault} (h : s.next c = .error fault) :
    s.veil.covers (some c) = false ∧ s.previous = some c ∧
      ((∃ text, s.segment = .literal text ∧ c = '\x7d' ∧ fault = .unmatchedClosing (s.place - 1)) ∨
        ∃ before start quote text, s.segment = .filter before start quote text ∧ c = '\x7b' ∧
          fault = .nestedOpening (s.place - 1) (start - 2)) := by
  unfold next at h
  split at h
  · cases h
  · next hveil =>
    refine ⟨Bool.eq_false_iff.2 hveil, ?_⟩
    split at h
    · next text hsegment =>
      split at h
      · cases h
      · split at h
        · next hcloses =>
          cases h
          rw [Bool.and_eq_true, decide_eq_true_eq, beq_iff_eq] at hcloses
          obtain ⟨rfl, hprevious⟩ := hcloses
          exact ⟨hprevious, .inl ⟨text, hsegment, rfl, rfl⟩⟩
        · cases h
    · next before start quote text hsegment =>
      split at h
      · cases h
      · split at h
        · cases h
        · split at h
          · next hopens =>
            cases h
            simp only [Bool.and_eq_true, decide_eq_true_eq, beq_iff_eq] at hopens
            obtain ⟨⟨-, rfl⟩, hprevious⟩ := hopens
            exact ⟨hprevious, .inr ⟨before, start, quote, text, hsegment, rfl, rfl⟩⟩
          · split at h <;> cases h

end Stand

/-! ### The text in front -/

/-- What filters are written as, each behind its literal text. -/
def writtenSlots (slots : List Slot) : List Char :=
  slots.flatMap fun slot => slot.before ++ (opening ++ (slot.filter ++ closing))

/-- The bytes of filters that are written from a place on. -/
def Placed : Nat → List Slot → Prop
  | _, [] => True
  | place, slot :: rest =>
    let start := place + byteLength slot.before + 2
    slot.span = ⟨start, start + byteLength slot.filter⟩ ∧ Placed (start + byteLength slot.filter + 2) rest

section

variable {slots : List Slot} {slot : Slot}

theorem writtenSlots_append (slots slots' : List Slot) :
    writtenSlots (slots ++ slots') = writtenSlots slots ++ writtenSlots slots' := List.flatMap_append

theorem writtenSlots_concat (slots : List Slot) (slot : Slot) :
    writtenSlots (slots ++ [slot]) =
      writtenSlots slots ++ (slot.before ++ (opening ++ (slot.filter ++ closing))) := by
  rw [writtenSlots_append]
  exact congrArg (writtenSlots slots ++ ·) (List.append_nil _)

theorem byteLength_opening : byteLength opening = 2 := rfl

theorem byteLength_closing : byteLength closing = 2 := rfl

theorem placed_concat {place : Nat} (h : Placed place slots) (start : Nat)
    (hstart : start = place + byteLength (writtenSlots slots ++ slot.before) + 2)
    (hspan : slot.span = ⟨start, start + byteLength slot.filter⟩) : Placed place (slots ++ [slot]) := by
  induction slots generalizing place with
  | nil =>
    subst hstart
    exact ⟨hspan, trivial⟩
  | cons first rest ih =>
    refine ⟨h.1, ih h.2 ?_⟩
    have hlength : byteLength (writtenSlots (first :: rest) ++ slot.before) =
        byteLength first.before + 2 + byteLength first.filter + 2 +
          byteLength (writtenSlots rest ++ slot.before) := by
      show byteLength ((first.before ++ (opening ++ (first.filter ++ closing))) ++ writtenSlots rest ++
        slot.before) = _
      simp only [byteLength_append, byteLength_opening, byteLength_closing]
      omega
    rw [hlength] at hstart
    omega

end

/-- What has been read of a segment, its last character first. -/
def Segment.text : Segment → List Char
  | .literal text => text
  | .filter _ _ _ text => text

/-- What the text in front of a place is made of: the filters, and the segment of the place. -/
def Segment.Follows (slots : List Slot) (front : List Char) : Segment → Prop
  | .literal text => front = writtenSlots slots ++ text.reverse
  | .filter before start _ text =>
    start = byteLength (writtenSlots slots ++ before) + 2 ∧
      front = writtenSlots slots ++ before ++ (opening ++ text.reverse) ∧
      ∃ parts, Stand.start.scan (writtenSlots slots ++ before) = .ok parts

/-- **What a stand tells about the text in front of it.** -/
structure Reads (front : List Char) (s : Stand) : Prop where
  reached : Stand.start.after front = .ok s
  place : s.place = byteLength front
  previous : s.previous = front.getLast?
  /-- At the start of a segment, the brace before it is hidden if it comes once more. -/
  fresh : s.segment.text = [] → ∀ c ∈ s.previous, s.veil = .brace c
  placed : Placed 0 s.slots
  follows : s.segment.Follows s.slots front

namespace Reads

variable {front : List Char} {s s' : Stand} {c : Char}

theorem start : Reads [] .start := ⟨rfl, rfl, rfl, nofun, trivial, rfl⟩

/-- The last character read of a segment stands at the end. -/
theorem getLast?_front {text : List Char} (h : Reads front s) (htext : s.segment.text = c :: text) :
    front.getLast? = some c := by
  have hfollows := h.follows
  cases hsegment : s.segment with
  | literal text' =>
    rw [hsegment] at hfollows htext
    obtain rfl : text' = c :: text := htext
    have hfront : front = writtenSlots s.slots ++ (c :: text).reverse := hfollows
    rw [hfront, List.reverse_cons, ← List.append_assoc, List.getLast?_concat]
  | filter before start quote text' =>
    rw [hsegment] at hfollows htext
    obtain rfl : text' = c :: text := htext
    rw [hfollows.2.1, List.reverse_cons, ← List.append_assoc, ← List.append_assoc, List.getLast?_concat]

/-- The first of two equal characters, if the second one is read, belongs to the same segment. -/
theorem paired (h : Reads front s) (hread : s.veil.covers (some c) = false) (hprevious : s.previous = some c) :
    ∃ text, s.segment.text = c :: text := by
  cases htext : s.segment.text with
  | nil =>
    rw [h.fresh htext c hprevious] at hread
    simp [Veil.covers] at hread
  | cons d text =>
    have hlast := h.getLast?_front htext
    rw [← h.previous, hprevious] at hlast
    exact ⟨text, by rw [Option.some.inj hlast]⟩

/-- The text in front of the last literal character is read without a fault. -/
theorem literal_text {text : List Char} (h : Reads front s) (hsegment : s.segment = .literal (c :: text)) :
    front = writtenSlots s.slots ++ text.reverse ++ [c] ∧
      ∃ parts, Stand.start.scan (writtenSlots s.slots ++ text.reverse) = .ok parts := by
  have hfollows := h.follows
  rw [hsegment] at hfollows
  have hfront : front = writtenSlots s.slots ++ text.reverse ++ [c] := by
    rw [List.append_assoc, ← List.reverse_cons]
    exact hfollows
  refine ⟨hfront, ?_⟩
  have hreached := h.reached
  rw [hfront] at hreached
  obtain ⟨s₀, hs₀, hnext⟩ := Stand.after_concat hreached
  rw [Stand.scan_eq_finish hs₀]
  -- the stand in front of the character is in literal text, too
  cases Stand.step_of_next hnext with
  | literal hliteral =>
    unfold Stand.finish
    rw [hliteral]
    exact ⟨_, rfl⟩
  | filter => cases hsegment
  | opens => cases hsegment
  | closes => cases hsegment

/-- **One character further.** -/
theorem next (h : Reads front s) (hnext : s.next c = .ok s') : Reads (front ++ [c]) s' := by
  have hreached := Stand.after_concat_of h.reached hnext
  have hlast : some c = (front ++ [c]).getLast? := List.getLast?_concat.symm
  have hfollows := h.follows
  cases Stand.step_of_next hnext with
  | literal hsegment =>
    rw [hsegment] at hfollows
    refine ⟨hreached, ?_, hlast, nofun, h.placed, ?_⟩
    · rw [byteLength_concat, h.place]
    · have hfront : front = _ := hfollows
      show front ++ [c] = _
      rw [hfront, List.reverse_cons, List.append_assoc]
  | filter hsegment =>
    rw [hsegment] at hfollows
    obtain ⟨hstart, hfront, hscan⟩ := hfollows
    refine ⟨hreached, ?_, hlast, nofun, h.placed, hstart, ?_, hscan⟩
    · rw [byteLength_concat, h.place]
    · rw [hfront, List.reverse_cons]
      simp only [List.append_assoc]
  | opens hread hsegment hc hprevious =>
    obtain ⟨text, htext⟩ := h.paired hread hprevious
    rw [hsegment] at htext
    obtain rfl := htext
    obtain ⟨hfront, hscan⟩ := h.literal_text hsegment
    subst hc
    refine ⟨hreached, ?_, hlast, fun _ c hc => ?_, h.placed, ?_, ?_, hscan⟩
    · rw [byteLength_concat, h.place]
      rfl
    · rw [← Option.some.inj hc]
    · show s.place + 1 = _
      rw [h.place, hfront, byteLength_concat]
      rfl
    · show front ++ ['\x7b'] = _
      rw [hfront]
      simp only [List.append_assoc, List.drop_one, List.tail_cons, List.reverse_nil]
      rfl
  | @closes before text start quote hread hsegment hc hprevious =>
    obtain ⟨text', htext⟩ := h.paired hread hprevious
    rw [hsegment] at htext hfollows
    obtain rfl : text = c :: text' := htext
    obtain ⟨hstart, hfront, -⟩ := hfollows
    subst hc
    refine ⟨hreached, ?_, hlast, fun _ c hc => ?_, placed_concat h.placed start ?_ ?_, ?_⟩
    · rw [byteLength_concat, h.place]
      rfl
    · rw [← Option.some.inj hc]
    · exact hstart.trans (by rw [Nat.zero_add])
    · have hplace : s.place = start + byteLength text'.reverse + 1 := by
        rw [h.place, hfront, List.reverse_cons, ← List.append_assoc, ← List.append_assoc, byteLength_concat,
          byteLength_append, byteLength_append _ opening, byteLength_opening, ← hstart]
        rfl
      show Span.mk start (s.place - 1) = ⟨start, start + byteLength text'.reverse⟩
      rw [hplace, Nat.add_sub_cancel]
    · show front ++ ['\x7d'] = writtenSlots (s.slots ++ [_]) ++ [].reverse
      rw [hfront, writtenSlots_concat, List.reverse_cons]
      simp only [List.append_assoc, List.drop_one, List.tail_cons, List.reverse_nil, List.append_nil]
      rfl

/-- **Any number of characters further.** -/
theorem after {front : List Char} {s : Stand} (h : Reads front s) {cs : List Char} {s' : Stand}
    (hafter : s.after cs = .ok s') : Reads (front ++ cs) s' := by
  induction cs generalizing front s with
  | nil =>
    cases hafter
    rwa [List.append_nil]
  | cons c cs ih =>
    rw [Stand.after_cons] at hafter
    cases hnext : s.next c with
    | error fault =>
      rw [hnext] at hafter
      cases hafter
    | ok t =>
      rw [hnext] at hafter
      have hrest := ih (h.next hnext) hafter
      rwa [List.append_assoc] at hrest

/-- Every stand that a scan comes to. -/
theorem of_after {front : List Char} {s : Stand} (h : Stand.start.after front = .ok s) : Reads front s :=
  Reads.start.after h

end Reads

end JsonFilter.Template
