import JsonFilter.Proofs.Template.ByteScan

/-!
# The places of filters

A renderer cuts a template at the places that the scan gives it.  A cut is possible between characters only, and
not beyond the end, so each place has to be checked; and what is cut out has to be all of the template.

* `Text.slice?` — the text between two places, if it can be cut out.
* `Delimits` — a place has double braces around it.
* `BraceFault.PointsAt` — a fault tells where the braces are that it is about.
* **`ranges_well_formed`** — every cut is possible, the parts are the template, and rendering puts the results in
  the places of the filters.
-/

namespace JsonFilter.Text

/-- Cuts a text at a place, if that lies between characters. -/
def cutBytes? : Nat → List Char → Option (List Char × List Char)
  | 0, cs => some ([], cs)
  | _ + 1, [] => none
  | bytes + 1, c :: cs =>
    if c.utf8Size ≤ bytes + 1 then
      (cutBytes? (bytes + 1 - c.utf8Size) cs).map fun (part, rest) => (c :: part, rest)
    else none

/-- The text between two places, if they are in order and lie between characters. -/
def slice? (start stop : Nat) (cs : List Char) : Option (List Char) :=
  if start ≤ stop then do
    let (_, rest) ← cutBytes? start cs
    let (part, _) ← cutBytes? (stop - start) rest
    return part
  else none

theorem cutBytes?_append (before behind : List Char) :
    cutBytes? (byteLength before) (before ++ behind) = some (before, behind) := by
  induction before with
  | nil => cases behind <;> rfl
  | cons c before ih =>
    have hpos := c.utf8Size_pos
    obtain ⟨bytes, hbytes⟩ : ∃ bytes, byteLength (c :: before) = bytes + 1 :=
      ⟨byteLength (c :: before) - 1, by rw [byteLength_cons]; omega⟩
    have hrest : bytes + 1 - c.utf8Size = byteLength before := by
      rw [← hbytes, byteLength_cons, Nat.add_sub_cancel_left]
    have hle : c.utf8Size ≤ bytes + 1 := by
      rw [← hbytes, byteLength_cons]
      exact Nat.le_add_right _ _
    rw [hbytes, List.cons_append, cutBytes?, if_pos hle, hrest, ih]
    rfl

/-- A part of a text is what lies between its two ends. -/
theorem slice?_append (before part behind : List Char) :
    slice? (byteLength before) (byteLength before + byteLength part) (before ++ (part ++ behind)) = some part := by
  unfold slice?
  rw [if_pos (Nat.le_add_right _ _), cutBytes?_append, Nat.add_sub_cancel_left]
  show (cutBytes? (byteLength part) (part ++ behind) >>= fun cut => some cut.1) = some part
  rw [cutBytes?_append]
  rfl

end JsonFilter.Text

namespace JsonFilter.Template

open Json (Value)
open Text (byteLength byteLength_append byteLength_concat slice? slice?_append)

/-! ### Cutting a template -/

/-- A filter with the literal text behind it. -/
structure Cut where
  filter : List Char
  literal : List Char
deriving DecidableEq

/-- The text of a cut in its template. -/
def Cut.written (cut : Cut) : List Char := opening ++ (cut.filter ++ (closing ++ cut.literal))

/-- The literal text in front of the first filter, if it can be cut out. -/
def firstLiteral? (template : List Char) : List Span → Option (List Char)
  | [] => some template
  | span :: _ => if 2 ≤ span.start then slice? 0 (span.start - 2) template else none

/-- Where the literal text behind a filter ends, if the places of the filters leave room for the braces. -/
def literalStop? (template : List Char) : List Span → Option Nat
  | [] => some (byteLength template)
  | next :: _ => if 2 ≤ next.start then some (next.start - 2) else none

/-- The filters with the literal texts behind them, if all of them can be cut out. -/
def cuts? (template : List Char) : List Span → Option (List Cut)
  | [] => some []
  | span :: rest => do
    let filter ← slice? span.start span.stop template
    let stop ← literalStop? template rest
    let literal ← slice? (span.stop + 2) stop template
    let cuts ← cuts? template rest
    return ⟨filter, literal⟩ :: cuts

/-- The literal text in front of filters and another text. -/
def leading : List Slot → List Char → List Char
  | [], rest => rest
  | slot :: _, _ => slot.before

/-- The cuts of a template with the given parts. -/
def cutsOf : List Slot → List Char → List Cut
  | [], _ => []
  | slot :: slots, rest => ⟨slot.filter, leading slots rest⟩ :: cutsOf slots rest

section

variable {slots : List Slot} {rest : List Char}

theorem written_cutsOf (slots : List Slot) (rest : List Char) :
    writtenSlots slots ++ rest = leading slots rest ++ (cutsOf slots rest).flatMap Cut.written := by
  induction slots with
  | nil => exact (List.append_nil rest).symm
  | cons slot slots ih =>
    show (slot.before ++ (opening ++ (slot.filter ++ closing))) ++ writtenSlots slots ++ rest =
      slot.before ++ ((opening ++ (slot.filter ++ (closing ++ leading slots rest))) ++
        (cutsOf slots rest).flatMap Cut.written)
    simp only [List.append_assoc, ih]

/-- Behind a filter the literal text ends where the next filter, or the template, lets it. -/
theorem literalStop?_eq (front rest : List Char) (h : Placed (byteLength front) slots) :
    literalStop? (front ++ (writtenSlots slots ++ rest)) (slots.map Slot.span) =
      some (byteLength front + byteLength (leading slots rest)) := by
  cases slots with
  | nil => exact congrArg some (byteLength_append _ _)
  | cons slot slots =>
    show (if 2 ≤ slot.span.start then some (slot.span.start - 2) else none) = some (byteLength front + byteLength slot.before)
    rw [h.1]
    exact if_pos (Nat.le_add_left _ _)

/-- **Filters that are placed as they are written can be cut out.** -/
theorem cuts?_eq (front : List Char) (h : Placed (byteLength front) slots) :
    cuts? (front ++ (writtenSlots slots ++ rest)) (slots.map Slot.span) = some (cutsOf slots rest) := by
  induction slots generalizing front with
  | nil => rfl
  | cons slot slots ih =>
    obtain ⟨hspan, hrest⟩ := h
    -- the template once more, with the filter and with the text behind it as its part
    have hinside : front ++ (writtenSlots (slot :: slots) ++ rest) =
        (front ++ slot.before ++ opening) ++ (slot.filter ++ (closing ++ (writtenSlots slots ++ rest))) := by
      show front ++ ((slot.before ++ (opening ++ (slot.filter ++ closing))) ++ writtenSlots slots ++ rest) = _
      simp only [List.append_assoc]
    have hbehind : front ++ (writtenSlots (slot :: slots) ++ rest) =
        (front ++ slot.before ++ opening ++ slot.filter ++ closing) ++ (writtenSlots slots ++ rest) := by
      rw [hinside]
      simp only [List.append_assoc]
    have hstart : slot.span.start = byteLength (front ++ slot.before ++ opening) := by
      rw [hspan, byteLength_append, byteLength_append, byteLength_opening]
    have hstop : slot.span.stop = byteLength (front ++ slot.before ++ opening) + byteLength slot.filter := by
      rw [← hstart, hspan]
    have hend : byteLength (front ++ slot.before ++ opening ++ slot.filter ++ closing) = slot.span.stop + 2 := by
      rw [byteLength_append, byteLength_append, byteLength_closing, hstop]
    have hplaced : Placed (byteLength (front ++ slot.before ++ opening ++ slot.filter ++ closing)) slots := by
      rw [hend, hspan]
      exact hrest
    have hfilter : slice? slot.span.start slot.span.stop (front ++ (writtenSlots (slot :: slots) ++ rest)) =
        some slot.filter := by
      rw [hinside, hstop, hstart]
      exact slice?_append _ _ _
    have hliteral : slice? (slot.span.stop + 2) (slot.span.stop + 2 + byteLength (leading slots rest))
        (front ++ (writtenSlots (slot :: slots) ++ rest)) = some (leading slots rest) := by
      rw [hbehind, written_cutsOf, ← hend]
      exact slice?_append _ _ _
    have hliteralStop := literalStop?_eq _ rest hplaced
    have hcuts := ih _ hplaced
    rw [← hbehind] at hliteralStop hcuts
    rw [hend] at hliteralStop
    rw [List.map_cons, cuts?, hfilter, hliteralStop, hcuts]
    show (slice? _ _ _ >>= fun literal => some (Cut.mk slot.filter literal :: cutsOf slots rest)) = _
    rw [hliteral]
    rfl

/-- The literal text in front of the first filter. -/
theorem firstLiteral?_eq (h : Placed 0 slots) :
    firstLiteral? (writtenSlots slots ++ rest) (slots.map Slot.span) = some (leading slots rest) := by
  cases slots with
  | nil => rfl
  | cons slot slots =>
    have hslice := slice?_append [] slot.before
      ((opening ++ (slot.filter ++ closing)) ++ (writtenSlots slots ++ rest))
    have htext : writtenSlots (slot :: slots) ++ rest =
        [] ++ (slot.before ++ ((opening ++ (slot.filter ++ closing)) ++ (writtenSlots slots ++ rest))) := by
      show ((slot.before ++ (opening ++ (slot.filter ++ closing))) ++ writtenSlots slots) ++ rest = _
      simp only [List.append_assoc, List.nil_append]
    show (if 2 ≤ slot.span.start then slice? 0 (slot.span.start - 2) _ else none) = some slot.before
    rw [h.1, htext, if_pos (Nat.le_add_left _ _)]
    exact hslice

/-! ### Places -/

/-- The span lies in the text, between double braces. -/
def Delimits (template : List Char) (span : Span) : Prop :=
  ∃ front filter behind, template = front ++ (opening ++ (filter ++ (closing ++ behind))) ∧
    span = ⟨byteLength front + 2, byteLength front + 2 + byteLength filter⟩

theorem delimits_of_placed (front : List Char) (h : Placed (byteLength front) slots) {slot : Slot}
    (hslot : slot ∈ slots) : Delimits (front ++ (writtenSlots slots ++ rest)) slot.span := by
  induction slots generalizing front with
  | nil => cases hslot
  | cons first slots ih =>
    have htext : front ++ (writtenSlots (first :: slots) ++ rest) =
        (front ++ first.before) ++ (opening ++ (first.filter ++ (closing ++ (writtenSlots slots ++ rest)))) := by
      show front ++ ((first.before ++ (opening ++ (first.filter ++ closing))) ++ writtenSlots slots ++ rest) = _
      simp only [List.append_assoc]
    rcases List.mem_cons.1 hslot with rfl | hslot
    · exact ⟨_, _, _, htext, by rw [h.1, byteLength_append]⟩
    · have hbehind : front ++ (writtenSlots (first :: slots) ++ rest) =
          (front ++ first.before ++ opening ++ first.filter ++ closing) ++ (writtenSlots slots ++ rest) := by
        rw [htext]
        simp only [List.append_assoc]
      rw [hbehind]
      refine ih _ ?_ hslot
      simp only [byteLength_append, byteLength_opening, byteLength_closing]
      exact h.2

/-- Between two filters there is room for the braces of both. -/
theorem apart_of_placed {place : Nat} (h : Placed place slots) :
    (∀ span ∈ slots.map Slot.span, place + 2 ≤ span.start) ∧
      (slots.map Slot.span).Pairwise fun span next => span.stop + 2 ≤ next.start - 2 := by
  induction slots generalizing place with
  | nil => exact ⟨nofun, .nil⟩
  | cons slot slots ih =>
    obtain ⟨hspan, hrest⟩ := h
    obtain ⟨hlater, hapart⟩ := ih hrest
    refine ⟨fun span hmem => ?_, .cons (fun next hnext => ?_) hapart⟩
    · rcases List.mem_cons.1 hmem with rfl | hmem
      · rw [hspan]
        dsimp only
        omega
      · have := hlater span hmem
        omega
    · have := hlater next hnext
      rw [hspan]
      dsimp only
      omega

end

/-- **What the scan takes apart is what is there.** -/
theorem written_of_scan {template : String} {parts : Parts} (h : scan template = .ok parts) :
    Placed 0 parts.slots ∧ template.toList = writtenSlots parts.slots ++ parts.rest := by
  rw [scan_eq_start] at h
  unfold Stand.scan at h
  cases hafter : Stand.start.after template.toList with
  | error fault =>
    rw [hafter] at h
    cases h
  | ok s =>
    have hreads := Reads.of_after hafter
    have hfollows := hreads.follows
    have hfinish : s.finish = .ok parts := by
      rw [hafter] at h
      exact h
    unfold Stand.finish at hfinish
    split at hfinish
    · next text hsegment =>
      cases hfinish
      rw [hsegment] at hfollows
      exact ⟨hreads.placed, hfollows⟩
    · cases hfinish

/-! ### Rendering the cuts -/

section

variable {m : Type → Type} [Monad m]

/-- Puts the text of each filter's result, and the literal text behind the filter, behind the text so far. -/
def renderCuts (evaluate : String → m Value) : List Cut → List Char → m (List Char)
  | [], text => return text
  | cut :: cuts, text => do
    let value ← evaluate (.ofList cut.filter)
    renderCuts evaluate cuts (text ++ value.toText.toList ++ cut.literal)

variable [LawfulMonad m]

/-- One cut after the other gives what the slots give. -/
theorem renderCuts_eq (evaluate : String → m Value) (slots : List Slot) (rest text : List Char) :
    renderCuts evaluate (cutsOf slots rest) (text ++ leading slots rest) =
      (fun results => text ++ results ++ rest) <$> renderSlots evaluate slots := by
  induction slots generalizing text with
  | nil =>
    unfold renderSlots
    rw [map_pure, List.append_nil]
    rfl
  | cons slot slots ih =>
    unfold cutsOf renderCuts renderSlots
    rw [map_bind]
    refine bind_congr fun value => ?_
    refine (ih _).trans ?_
    rw [map_bind, map_eq_pure_bind]
    refine bind_congr fun more => ?_
    rw [map_pure]
    show pure (text ++ slot.before ++ value.toText.toList ++ more ++ rest) = _
    simp only [List.append_assoc]

/-- **Rendering puts the results where the filters were.** -/
theorem renderText_eq_cuts (evaluate : String → m Value) {template : String} {parts : Parts}
    (hscan : scan template = .ok parts) (hwhole : isWhole template.toList parts = false) :
    renderText evaluate template = do
      let text ← ExceptT.lift (renderCuts evaluate (cutsOf parts.slots parts.rest) (leading parts.slots parts.rest))
      return .string (.ofList text) := by
  have htemplate := (written_of_scan hscan).2
  have hcuts := renderCuts_eq evaluate parts.slots parts.rest []
  rw [List.nil_append] at hcuts
  have hlift {α β : Type} (f : α → β) (x : m α) :
      (ExceptT.lift (f <$> x) : ExceptT RenderError m β) = f <$> ExceptT.lift x := by
    refine ExceptT.ext ?_
    rw [ExceptT.run_map, ExceptT.run_lift, ExceptT.run_lift, Functor.map_map, Functor.map_map]
    rfl
  rw [hcuts, hlift, bind_map_left]
  unfold renderText
  rw [hscan]
  dsimp only
  split
  · next hnone =>
    rw [hnone] at htemplate ⊢
    have hlist : template = .ofList parts.rest := by
      rw [← String.ofList_toList (s := template), htemplate]
      rfl
    have hnothing : (ExceptT.lift (renderSlots evaluate []) : ExceptT RenderError m (List Char)) = pure [] := by
      refine ExceptT.ext ?_
      rw [ExceptT.run_lift, ExceptT.run_pure]
      exact map_pure _ _
    rw [hnothing, pure_bind, hlist]
    rfl
  · rw [if_neg (Bool.eq_false_iff.1 hwhole)]
    rfl

end

/-! ### Faults -/

theorem scan_ofList (cs : List Char) : scan (.ofList cs) = Stand.start.scan cs := by
  rw [scan_eq_start, String.toList_ofList]

/-- The braces behind a text without faults open a filter, and it stays open behind them. -/
def StaysOpen (before inside : List Char) : Prop :=
  (∃ parts, scan (.ofList before) = .ok parts) ∧
    ∀ part, part <+: inside →
      scan (.ofList (before ++ (opening ++ part))) = .error (.unterminatedOpening (byteLength before))

/-- The places that a fault tells are those of the braces that it is about. -/
def BraceFault.PointsAt (template : List Char) : BraceFault → Prop
  | .nestedOpening place outer =>
    ∃ before inside behind, template = before ++ (opening ++ (inside ++ (opening ++ behind))) ∧
      outer = byteLength before ∧ place = byteLength (before ++ (opening ++ inside)) ∧ StaysOpen before inside
  | .unmatchedClosing place =>
    ∃ before behind, template = before ++ (closing ++ behind) ∧ place = byteLength before ∧
      ∃ parts, scan (.ofList before) = .ok parts
  | .unterminatedOpening place =>
    ∃ before behind, template = before ++ (opening ++ behind) ∧ place = byteLength before ∧ StaysOpen before behind

section

variable {front : List Char} {s : Stand}

/-- A filter that is open at the end has been open since it was opened. -/
theorem open_since (h : Reads front s) {cs : List Char} {t : Stand} (hafter : s.after cs = .ok t) {start : Nat}
    (hopened : t.segment.opened = some start) (hstart : start ≤ s.place) : s.segment.opened = some start := by
  induction cs using List.reverseRecOn generalizing t with
  | nil =>
    cases hafter
    exact hopened
  | append_singleton cs c ih =>
    obtain ⟨t', ht', hnext⟩ := Stand.after_concat hafter
    refine ih ht' ?_
    cases Stand.step_of_next hnext with
    | literal => cases hopened
    | filter hsegment =>
      rw [hsegment]
      exact hopened
    | opens =>
      -- a filter that opens here starts behind the place
      have hplace := (h.after ht').place
      rw [byteLength_append, ← h.place] at hplace
      have hlater : t'.place + 1 = start := Option.some.inj hopened
      omega
    | closes => cases hopened

/-- The filter that a stand is in has been open since its braces. -/
theorem Reads.staysOpen (h : Reads front s) {before text : List Char} {start : Nat} {quote : Option Char}
    (hsegment : s.segment = .filter before start quote text) :
    StaysOpen (writtenSlots s.slots ++ before) text.reverse := by
  have hfollows := h.follows
  rw [hsegment] at hfollows
  obtain ⟨hstart, hfront, hscan⟩ := hfollows
  refine ⟨by rwa [scan_ofList], fun part hpart => ?_⟩
  obtain ⟨rest, hrest⟩ := hpart
  have hreached := h.reached
  rw [hfront, ← hrest, ← List.append_assoc opening, ← List.append_assoc, Stand.after_append] at hreached
  cases hpartial : Stand.start.after (writtenSlots s.slots ++ before ++ (opening ++ part)) with
  | error fault =>
    rw [hpartial] at hreached
    cases hreached
  | ok t =>
    rw [hpartial] at hreached
    have hreads := Reads.of_after hpartial
    have hopened : t.segment.opened = some start := by
      refine open_since hreads hreached (by rw [hsegment]; rfl) ?_
      rw [hreads.place, byteLength_append, byteLength_append opening, byteLength_opening, hstart]
      omega
    rw [scan_ofList, Stand.scan_eq_finish hpartial]
    unfold Stand.finish
    split
    · next text' hliteral =>
      rw [hliteral] at hopened
      cases hopened
    · next before' start' quote' text' hfilter =>
      rw [hfilter] at hopened
      obtain rfl : start' = start := Option.some.inj hopened
      rw [hstart, Nat.add_sub_cancel]

/-- A fault is found at a character or at the end. -/
theorem Stand.after_eq_error {cs : List Char} {fault : BraceFault} (h : s.after cs = .error fault) :
    ∃ part c behind t, cs = part ++ c :: behind ∧ s.after part = .ok t ∧ t.next c = .error fault := by
  induction cs generalizing s with
  | nil => cases h
  | cons c cs ih =>
    rw [Stand.after_cons] at h
    cases hnext : s.next c with
    | error fault' =>
      rw [hnext] at h
      cases h
      exact ⟨[], c, cs, s, rfl, rfl, hnext⟩
    | ok t =>
      rw [hnext] at h
      obtain ⟨part, d, behind, u, rfl, hpart, hd⟩ := ih h
      refine ⟨c :: part, d, behind, u, rfl, ?_, hd⟩
      rw [Stand.after_cons, hnext]
      exact hpart

/-- **A fault points at the braces that it is about.** -/
theorem pointsAt_of_scan {template : String} {fault : BraceFault} (h : scan template = .error fault) :
    fault.PointsAt template.toList := by
  rw [scan_eq_start] at h
  unfold Stand.scan at h
  cases hafter : Stand.start.after template.toList with
  | ok s =>
    -- the template ends inside of a filter
    have hreads := Reads.of_after hafter
    have hfollows := hreads.follows
    have hfinish : s.finish = .error fault := by
      rw [hafter] at h
      exact h
    unfold Stand.finish at hfinish
    split at hfinish
    · cases hfinish
    · next before start quote text hsegment =>
      cases hfinish
      have hopen := hreads.staysOpen hsegment
      rw [hsegment] at hfollows
      obtain ⟨rfl, htemplate, -⟩ := hfollows
      exact ⟨_, _, htemplate, Nat.add_sub_cancel _ _, hopen⟩
  | error fault' =>
    rw [hafter] at h
    cases h
    obtain ⟨front, c, behind, s, htemplate, hreached, hnext⟩ := Stand.after_eq_error hafter
    have hreads := Reads.of_after hreached
    obtain ⟨hread, hprevious, hfault⟩ := Stand.fault_of_next hnext
    obtain ⟨text', htext⟩ := hreads.paired hread hprevious
    rcases hfault with ⟨text, hsegment, rfl, rfl⟩ | ⟨before, start, quote, text, hsegment, rfl, rfl⟩
    · -- two braces close in literal text
      rw [hsegment] at htext
      obtain rfl : text = '\x7d' :: text' := htext
      obtain ⟨hfront, hscan⟩ := hreads.literal_text hsegment
      refine ⟨_, behind, ?_, ?_, by rw [scan_ofList]; exact hscan⟩
      · rw [htemplate, hfront]
        simp only [List.append_assoc]
        rfl
      · rw [hreads.place, hfront, byteLength_concat]
        rfl
    · -- two braces open in a filter
      rw [hsegment] at htext
      obtain rfl : text = '\x7b' :: text' := htext
      have hopen := hreads.staysOpen hsegment
      have hfollows := hreads.follows
      rw [hsegment] at hfollows
      obtain ⟨rfl, hfront, -⟩ := hfollows
      rw [List.reverse_cons] at hfront hopen
      refine ⟨_, text'.reverse, behind, ?_, Nat.add_sub_cancel _ _, ?_,
        hopen.1, fun part hpart => hopen.2 part (hpart.trans (List.prefix_append _ _))⟩
      · rw [htemplate, hfront]
        simp only [List.append_assoc]
        rfl
      · rw [hreads.place, hfront, ← List.append_assoc opening, ← List.append_assoc, byteLength_concat]
        rfl

end
/-! ### Templates -/

variable {m : Type → Type} [Monad m] [LawfulMonad m]

/-- **Places are well formed.**  The loop over the bytes of a template comes to an end and finds the places of its
filters.  They stand in order, each between double braces of its own; the filters and the literal texts around
them can be cut out, and together with the braces they are the template.  A template that is more than one
filter renders to the literal texts with the texts of the results in between.  What is wrong with the braces is
told with their places. -/
theorem ranges_well_formed (evaluate : String → m Value) (template : String) :
    byteScan template.toUTF8.data.toList 0 none none [] = ranges template ∧
    (∀ parts, scan template = .ok parts → ∀ spans, ranges template = .ok spans →
      (∀ span ∈ spans, Delimits template.toList span) ∧
      spans.Pairwise (fun span next => span.stop + 2 ≤ next.start - 2) ∧
      ∃ first cuts, firstLiteral? template.toList spans = some first ∧ cuts? template.toList spans = some cuts ∧
        template.toList = first ++ cuts.flatMap Cut.written ∧
        (isWhole template.toList parts = true →
          ∃ cut, cuts = [cut] ∧ renderText evaluate template = ExceptT.lift (evaluate (.ofList cut.filter))) ∧
        (isWhole template.toList parts = false →
          renderText evaluate template = do
            let text ← ExceptT.lift (renderCuts evaluate cuts first)
            return .string (.ofList text))) ∧
    ∀ fault, ranges template = .error fault → fault.PointsAt template.toList := by
  refine ⟨byteScan_eq_ranges template, fun parts hscan spans hspans => ?_, fun fault hfault => ?_⟩
  · obtain ⟨hplaced, htemplate⟩ := written_of_scan hscan
    obtain rfl : parts.slots.map Slot.span = spans := by
      unfold ranges at hspans
      rw [hscan] at hspans
      exact Except.ok.inj hspans
    refine ⟨fun span hspan => ?_, (apart_of_placed hplaced).2, leading parts.slots parts.rest,
      cutsOf parts.slots parts.rest, ?_, ?_, ?_, fun hwhole => ?_, fun hwhole => ?_⟩
    · obtain ⟨slot, hslot, rfl⟩ := List.mem_map.1 hspan
      rw [htemplate]
      exact delimits_of_placed [] hplaced hslot
    · rw [htemplate]
      exact firstLiteral?_eq hplaced
    · rw [htemplate]
      exact cuts?_eq [] hplaced
    · rw [htemplate]
      exact written_cutsOf parts.slots parts.rest
    · obtain ⟨slot, hslots⟩ : ∃ slot, parts.slots = [slot] := by
        unfold isWhole at hwhole
        rw [Bool.and_eq_true, Bool.and_eq_true, beq_iff_eq] at hwhole
        exact List.length_eq_one_iff.1 hwhole.1.1
      refine ⟨⟨slot.filter, parts.rest⟩, by rw [hslots]; rfl, ?_⟩
      unfold renderText
      rw [hscan]
      dsimp only
      rw [hslots]
      exact if_pos hwhole
    · exact renderText_eq_cuts evaluate hscan hwhole
  · unfold ranges at hfault
    cases hscan : scan template with
    | ok parts =>
      rw [hscan] at hfault
      cases hfault
    | error fault' =>
      rw [hscan] at hfault
      cases hfault
      exact pointsAt_of_scan hscan

/-- A wide character in front of a filter, and one that a backslash hides. -/
theorem ranges_well_formed_wide :
    let template := "é\x7b\x7b'\\é\x7d\x7d'\x7d\x7d!"
    ranges template = .ok [⟨4, 11⟩] ∧ Delimits template.toList ⟨4, 11⟩ ∧
      renderText (m := Id) (fun _ => .null) template =
        ExceptT.lift (renderCuts (m := Id) (fun _ => .null) [⟨"'\\é\x7d\x7d'".toList, ['!']⟩] ['é']) >>=
          fun text => pure (.string (.ofList text)) := by
  intro template
  have hranges : ranges template = .ok [⟨4, 11⟩] := by decide +kernel
  have hscan : scan template = .ok ⟨[⟨['é'], "'\\é\x7d\x7d'".toList, ⟨4, 11⟩⟩], ['!']⟩ := by decide +kernel
  obtain ⟨hdelimits, -, first, cuts, hfirst, hcuts, -, -, hrender⟩ :=
    (ranges_well_formed (m := Id) (fun _ => .null) template).2.1 _ hscan _ hranges
  have hfirst' : firstLiteral? template.toList [⟨4, 11⟩] = some ['é'] := by decide +kernel
  have hcuts' : cuts? template.toList [⟨4, 11⟩] = some [⟨"'\\é\x7d\x7d'".toList, ['!']⟩] := by decide +kernel
  rw [hfirst'] at hfirst
  rw [hcuts'] at hcuts
  cases hfirst
  cases hcuts
  exact ⟨hranges, hdelimits _ List.mem_cons_self, hrender (by decide +kernel)⟩

end JsonFilter.Template
