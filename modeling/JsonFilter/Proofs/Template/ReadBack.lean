import JsonFilter.Proofs.Text.Bytes
import JsonFilter.Template.Render

/-!
# Reading written templates

A template is written from literal texts and filters, the filters between double braces.  `scan` should
give the filters back, also where a filter begins or ends with a brace of its own and three braces stand in
a row.

## Three braces in a row

In front of a filter the third brace goes to the filter.  Behind a filter it does not: the first two of the
three close, so that a filter with a brace at its end loses it to the literal text behind
(`closing_brace_lost`).

The look at the character before a brace also sees a brace that a backslash hides, so that such a brace and
one more of its kind count as two.  A filter without such pairs is `clear`.

* `Reading` — what a place inside of a filter is inside of.
* **`scan_written`** — the filters come back, but for a brace at the end.
-/

namespace JsonFilter.Template

open Text (byteLength byteLength_cons byteLength_append)

/-! ### Filters -/

/-- What a place inside of a filter is inside of: the quote that is open, and whether a backslash hides the
next character. -/
structure Reading where
  quote : Option Char
  hidden : Bool
deriving DecidableEq, Repr

namespace Reading

/-- The start of a filter. -/
def start : Reading := ⟨none, false⟩

/-- One character further. -/
def after (r : Reading) (c : Char) : Reading :=
  if r.hidden then { r with hidden := false }
  else if c = '\\' then { r with hidden := true }
  else if isQuote c then { r with quote := nextQuote r.quote c }
  else r

/-- Whether a brace at a place counts. -/
def counts (r : Reading) : Bool := r.quote.isNone && !r.hidden

end Reading

/-- Whether a character is a brace. -/
def isBrace (c : Char) : Bool := c = '\x7b' || c = '\x7d'

/-- Whether no brace that counts stands right behind an equal brace, in a text with the character
`previous` in front. -/
def clear (r : Reading) (previous : Option Char) : List Char → Bool
  | [] => true
  | c :: rest => !(isBrace c && previous == some c && r.counts) && clear (r.after c) (some c) rest

/-- A filter that ends outside of quotes, not with a backslash that hides what follows, and without double
braces. -/
structure Separate (filter : List Char) : Prop where
  closed : filter.foldl Reading.after .start = .start
  clear : clear .start none filter = true

/-- What comes back of a filter: not a closing brace at its end. -/
def givenBack (filter : List Char) : List Char :=
  if filter.getLast? = some '\x7d' then filter.dropLast else filter

/-- What a filter leaves to the literal text behind it. -/
def leftOver (filter : List Char) : List Char :=
  if filter.getLast? = some '\x7d' then ['\x7d'] else []

theorem givenBack_append_leftOver (filter : List Char) : givenBack filter ++ leftOver filter = filter := by
  unfold givenBack leftOver
  split
  · next hlast =>
    obtain ⟨front, rfl⟩ := List.getLast?_eq_some_iff.1 hlast
    rw [List.dropLast_concat]
  · exact List.append_nil filter

/-- A filter with the literal text in front of it. -/
structure Piece where
  literal : List Char
  filter : List Char

/-- The template with the given pieces and the literal text behind them. -/
def written : List Piece → List Char → List Char
  | [], last => last
  | piece :: pieces, last =>
    piece.literal ++ (opening ++ (piece.filter ++ (closing ++ written pieces last)))

/-! ### Inside of a filter -/

/-- The last character of a text, or the one in front of it. -/
theorem getLast?_cons_or (c : Char) (cs : List Char) (previous : Option Char) :
    (c :: cs).getLast?.or previous = cs.getLast?.or (some c) := by
  rw [List.getLast?_cons, Option.some_or, Option.or_some]

section

variable {rest : List Char} {place start : Nat} {previous : Option Char} {before text : List Char}

/-- One character of a clear filter. -/
theorem scanFrom_filter_cons {c : Char} {r : Reading}
    (h : (isBrace c && previous == some c && r.counts) = false) :
    scanFrom (c :: rest) place previous r.hidden (.filter before start r.quote text) =
      scanFrom rest (place + c.utf8Size) (some c) (r.after c).hidden
        (.filter before start (r.after c).quote (c :: text)) := by
  obtain ⟨quote, hidden⟩ := r
  cases hidden with
  | true => rfl
  | false =>
    by_cases hslash : c = '\\'
    · subst hslash
      rfl
    · by_cases hquote : isQuote c = true
      · have hsize : c.utf8Size = 1 := by
          simp only [isQuote, Bool.or_eq_true, decide_eq_true_eq] at hquote
          rcases hquote with rfl | rfl <;> rfl
        simp only [scanFrom, Reading.after, if_neg hslash, if_pos hquote, hsize]
        rfl
      · have hdouble (brace : Char) (hbrace : isBrace brace = true) :
            ¬((quote.isNone && c = brace && previous == some brace) = true) := by
          intro hboth
          simp only [Bool.and_eq_true, decide_eq_true_eq, beq_iff_eq] at hboth
          obtain ⟨⟨hnone, rfl⟩, hprevious⟩ := hboth
          simp [Reading.counts, hnone, hbrace, hprevious] at h
        simp only [scanFrom, Reading.after, if_neg hslash, if_neg hquote,
          if_neg (hdouble '\x7b' rfl), if_neg (hdouble '\x7d' rfl)]
        rfl

/-- A clear filter is read to its end. -/
theorem scanFrom_filter {filter : List Char} {r : Reading} (h : clear r previous filter = true) :
    scanFrom (filter ++ rest) place previous r.hidden (.filter before start r.quote text) =
      scanFrom rest (place + byteLength filter) (filter.getLast?.or previous)
        (filter.foldl Reading.after r).hidden
        (.filter before start (filter.foldl Reading.after r).quote (filter.reverse ++ text)) := by
  induction filter generalizing place previous r text with
  | nil => rfl
  | cons c filter ih =>
    simp only [clear, Bool.and_eq_true] at h
    obtain ⟨hc, hclear⟩ := h
    rw [List.cons_append, scanFrom_filter_cons (by simpa only [Bool.not_eq_true'] using hc), ih hclear, byteLength_cons,
      Nat.add_assoc, List.foldl_cons, List.reverse_cons, List.append_assoc, List.singleton_append]
    rw [getLast?_cons_or]

/-- A clear filter that ends outside of quotes is read to its end. -/
theorem scanFrom_closed {filter : List Char} (hclosed : filter.foldl Reading.after .start = .start)
    (hclear : clear .start previous filter = true) :
    scanFrom (filter ++ rest) place previous false (.filter before start none text) =
      scanFrom rest (place + byteLength filter) (filter.getLast?.or previous) false
        (.filter before start none (filter.reverse ++ text)) := by
  have hread : scanFrom (filter ++ rest) place previous Reading.start.hidden
      (.filter before start Reading.start.quote text) = _ := scanFrom_filter hclear
  rw [hclosed] at hread
  exact hread

/-- Behind opening braces a brace at the start of a filter is the third in a row. -/
theorem scanFrom_separate {filter : List Char} (h : Separate filter)
    (hrest : rest.head? ≠ some '\x7b') :
    scanFrom (filter ++ rest) start (some '\x7b') ((filter ++ rest).head? == some '\x7b')
        (.filter before start none []) =
      scanFrom rest (start + byteLength filter) (filter.getLast?.or (some '\x7b')) false
        (.filter before start none filter.reverse) := by
  cases filter with
  | nil =>
    rw [List.nil_append, beq_false_of_ne hrest]
    rfl
  | cons c filter =>
    have hclear : clear (Reading.after .start c) (some c) filter = true := by
      have := h.clear
      rw [clear, Bool.and_eq_true] at this
      exact this.2
    by_cases hc : c = '\x7b'
    · subst hc
      have hclosed : filter.foldl Reading.after .start = .start := h.closed
      show scanFrom (filter ++ rest) (start + 1) (some '\x7b') false (.filter before start none ['\x7b']) = _
      rw [scanFrom_closed hclosed hclear, getLast?_cons_or, byteLength_cons, List.reverse_cons,
        Nat.add_assoc]
      rfl
    · have hhead : some c ≠ some '\x7b' := fun heq => hc (Option.some.inj heq)
      have hwhole : clear .start (some '\x7b') (c :: filter) = true := by
        rw [clear, hclear, beq_false_of_ne hhead.symm, Bool.and_false, Bool.false_and]
        rfl
      rw [List.cons_append, List.head?_cons, beq_false_of_ne hhead, ← List.cons_append,
        scanFrom_closed h.closed hwhole, List.append_nil]

/-- A closing brace behind another one. -/
theorem scanFrom_close :
    scanFrom ('\x7d' :: rest) place (some '\x7d') false (.filter before start none text) = do
      let parts ← scanFrom rest (place + 1) (some '\x7d') (rest.head? == some '\x7d') (.literal [])
      return { parts with slots := ⟨before, (text.drop 1).reverse, ⟨start, place - 1⟩⟩ :: parts.slots } := by
  rw [scanFrom]
  simp [isQuote]

/-- The first two closing braces in a row end a filter. -/
theorem scanFrom_closing {filter : List Char} (hrest : rest.head? ≠ some '\x7d') :
    scanFrom (closing ++ rest) (start + byteLength filter) (filter.getLast?.or (some '\x7b')) false
        (.filter before start none filter.reverse) = do
      let parts ← scanFrom rest (start + byteLength filter + 2) (some '\x7d') false
        (.literal (leftOver filter))
      return { parts with slots := ⟨before, givenBack filter,
        ⟨start, start + byteLength (givenBack filter)⟩⟩ :: parts.slots } := by
  show scanFrom ('\x7d' :: '\x7d' :: rest) _ _ _ _ = _
  by_cases hlast : filter.getLast? = some '\x7d'
  · obtain ⟨front, rfl⟩ := List.getLast?_eq_some_iff.1 hlast
    have hsize : byteLength ['\x7d'] = 1 := rfl
    rw [givenBack, leftOver, if_pos hlast, if_pos hlast, List.dropLast_concat, hlast,
      List.reverse_concat, byteLength_append, hsize, Option.or_some, Option.getD_some, scanFrom_close,
      List.drop_one, List.tail_cons, List.reverse_reverse]
    rfl
  · have hprevious : filter.getLast?.or (some '\x7b') ≠ some '\x7d' := by
      cases hfilter : filter.getLast? with
      | none => decide
      | some c =>
        rw [hfilter] at hlast
        exact hlast
    have hfirst : scanFrom ('\x7d' :: '\x7d' :: rest) (start + byteLength filter)
        (filter.getLast?.or (some '\x7b')) Reading.start.hidden
        (.filter before start Reading.start.quote filter.reverse) = _ :=
      scanFrom_filter_cons (by rw [beq_false_of_ne hprevious, Bool.and_false, Bool.false_and])
    refine hfirst.trans ?_
    rw [givenBack, leftOver, if_neg hlast, if_neg hlast]
    refine scanFrom_close.trans ?_
    rw [beq_false_of_ne hrest, List.drop_one, List.tail_cons, List.reverse_reverse]
    rfl

/-- Opening braces in a row begin a filter. -/
theorem scanFrom_opening (hprevious : previous ≠ some '\x7b') :
    scanFrom (opening ++ rest) place previous false (.literal text) =
      scanFrom rest (place + 2) (some '\x7b') (rest.head? == some '\x7b')
        (.filter text.reverse (place + 2) none []) := by
  have hfirst : scanFrom ('\x7b' :: '\x7b' :: rest) place previous false (.literal text) =
      scanFrom ('\x7b' :: rest) (place + 1) (some '\x7b') false (.literal ('\x7b' :: text)) := by
    rw [scanFrom, beq_false_of_ne hprevious]
    rfl
  refine hfirst.trans ?_
  rw [scanFrom]
  rfl

/-- Literal text without braces is read to its end. -/
theorem scanFrom_literal {literal : List Char} (h : ∀ c ∈ literal, isBrace c = false) :
    scanFrom (literal ++ rest) place previous false (.literal text) =
      scanFrom rest (place + byteLength literal) (literal.getLast?.or previous) false
        (.literal (literal.reverse ++ text)) := by
  induction literal generalizing place previous text with
  | nil => rfl
  | cons c literal ih =>
    have hc := h c List.mem_cons_self
    simp only [isBrace, Bool.or_eq_false_iff] at hc
    have hstep : scanFrom (c :: (literal ++ rest)) place previous false (.literal text) =
        scanFrom (literal ++ rest) (place + c.utf8Size) (some c) false (.literal (c :: text)) := by
      simp only [scanFrom, hc, Bool.false_and, Bool.false_eq_true, if_false]
    rw [List.cons_append, hstep, ih fun d hd => h d (List.mem_cons_of_mem c hd), byteLength_cons,
      Nat.add_assoc, List.reverse_cons, List.append_assoc, List.singleton_append]
    rw [getLast?_cons_or]

end

/-! ### Templates -/

theorem head?_written {pieces : List Piece} {last : List Char}
    (hliterals : ∀ piece ∈ pieces, ∀ c ∈ piece.literal, isBrace c = false)
    (hlast : ∀ c ∈ last, isBrace c = false) : (written pieces last).head? ≠ some '\x7d' := by
  have hno {literal : List Char} (h : ∀ c ∈ literal, isBrace c = false) (rest : List Char)
      (hrest : rest.head? ≠ some '\x7d') : (literal ++ rest).head? ≠ some '\x7d' := by
    cases literal with
    | nil => exact hrest
    | cons c literal =>
      rintro ⟨⟩
      exact Bool.noConfusion (h '\x7d' List.mem_cons_self)
  cases pieces with
  | nil =>
    have := hno hlast [] (by simp)
    rwa [List.append_nil] at this
  | cons piece pieces => exact hno (hliterals piece List.mem_cons_self) _ (by simp [opening])

/-- Behind literal text no brace opens. -/
theorem getLast?_or_ne {literal : List Char} (h : ∀ c ∈ literal, isBrace c = false)
    {previous : Option Char} (hprevious : previous ≠ some '\x7b') :
    literal.getLast?.or previous ≠ some '\x7b' := by
  cases hlast : literal.getLast? with
  | none => exact hprevious
  | some c =>
    rintro ⟨⟩
    exact Bool.noConfusion (h '\x7b' (List.mem_of_getLast? hlast))

/-- The filter and the bytes of a slot are those of a part of a text, which starts at a given place. -/
def Slot.At (slot : Slot) (place : Nat) (text : List Char) : Prop :=
  ∃ before behind, text = before ++ slot.filter ++ behind ∧
    slot.span = ⟨place + byteLength before, place + byteLength before + byteLength slot.filter⟩

theorem Slot.At.behind {slot : Slot} {place : Nat} {text : List Char} (front : List Char)
    (h : slot.At (place + byteLength front) text) : slot.At place (front ++ text) := by
  obtain ⟨before, behind, rfl, hspan⟩ := h
  refine ⟨front ++ before, behind, by simp only [List.append_assoc], ?_⟩
  rw [hspan, byteLength_append, Nat.add_assoc place]

/-- The bytes of a slot are its filter. -/
theorem Slot.At.slice {slot : Slot} {text : List Char} (h : slot.At 0 text) :
    Text.sliceBytes slot.span.start slot.span.stop text = slot.filter := by
  obtain ⟨before, behind, rfl, hspan⟩ := h
  rw [hspan, Nat.zero_add]
  exact Text.sliceBytes_append before slot.filter behind

/-- **The run over a written template,** behind what a filter left over. -/
theorem scanFrom_written {pieces : List Piece} {last : List Char}
    (hliterals : ∀ piece ∈ pieces, ∀ c ∈ piece.literal, isBrace c = false)
    (hlast : ∀ c ∈ last, isBrace c = false) (hfilters : ∀ piece ∈ pieces, Separate piece.filter)
    (place : Nat) (previous : Option Char) (hprevious : previous ≠ some '\x7b') (text : List Char) :
    ∃ parts, scanFrom (written pieces last) place previous false (.literal text) = .ok parts ∧
      parts.slots.map Slot.filter = pieces.map (fun piece => givenBack piece.filter) ∧
      ∀ slot ∈ parts.slots, slot.At place (written pieces last) := by
  induction pieces generalizing place previous text with
  | nil =>
    refine ⟨⟨[], (last.reverse ++ text).reverse⟩, ?_, rfl, fun slot hslot => by cases hslot⟩
    rw [written, ← List.append_nil last, scanFrom_literal hlast, List.append_nil]
    rfl
  | cons piece pieces ih =>
    obtain ⟨literal, filter⟩ := piece
    have hliteral : ∀ c ∈ literal, isBrace c = false := hliterals _ List.mem_cons_self
    have hrest := fun p hp => hliterals p (List.mem_cons_of_mem _ hp)
    let start := place + byteLength literal + 2
    obtain ⟨parts, hparts, hgiven, hslots⟩ := ih hrest
      (fun p hp => hfilters p (List.mem_cons_of_mem _ hp)) (start + byteLength filter + 2)
      (some '\x7d') (by decide) (leftOver filter)
    refine ⟨{ parts with slots := ⟨(literal.reverse ++ text).reverse, givenBack filter,
      ⟨start, start + byteLength (givenBack filter)⟩⟩ :: parts.slots }, ?_, ?_, ?_⟩
    · rw [written, scanFrom_literal hliteral, scanFrom_opening (getLast?_or_ne hliteral hprevious),
        scanFrom_separate (hfilters _ List.mem_cons_self) (by simp [closing]),
        scanFrom_closing (head?_written hrest hlast), hparts]
      rfl
    · rw [List.map_cons, List.map_cons, hgiven]
    · intro slot hslot
      rcases List.mem_cons.1 hslot with rfl | hslot
      · refine ⟨literal ++ opening, leftOver filter ++ (closing ++ written pieces last), ?_, ?_⟩
        · have hsplit := congrArg (· ++ (closing ++ written pieces last)) (givenBack_append_leftOver filter)
          simp only [written, ← hsplit, List.append_assoc]
        · rw [byteLength_append, ← Nat.add_assoc]
          rfl
      · have hfront := hslots slot hslot
        have hplace : start + byteLength filter + 2 =
            place + byteLength (literal ++ (opening ++ (filter ++ closing))) := by
          simp only [byteLength_append, start]
          have : byteLength opening = 2 := rfl
          have : byteLength closing = 2 := rfl
          omega
        rw [hplace] at hfront
        have := hfront.behind
        simpa only [written, List.append_assoc] using this

/-- **The filters of a written template.**  Between literal texts without braces, filters are found where
they were written and come back in order, also where they begin with a brace; a closing brace at the end of
a filter is left to the literal text. -/
theorem scan_written {pieces : List Piece} {last : List Char}
    (hliterals : ∀ piece ∈ pieces, ∀ c ∈ piece.literal, isBrace c = false)
    (hlast : ∀ c ∈ last, isBrace c = false) (hfilters : ∀ piece ∈ pieces, Separate piece.filter) :
    ∃ parts, scan (.ofList (written pieces last)) = .ok parts ∧
      parts.slots.map Slot.filter = pieces.map (fun piece => givenBack piece.filter) ∧
      ∀ slot ∈ parts.slots,
        Text.sliceBytes slot.span.start slot.span.stop (written pieces last) = slot.filter := by
  obtain ⟨parts, hparts, hgiven, hslots⟩ :=
    scanFrom_written hliterals hlast hfilters 0 none (by decide) []
  refine ⟨parts, ?_, hgiven, fun slot hslot => (hslots slot hslot).slice⟩
  rw [scan, String.toList_ofList]
  exact hparts

/-- An object that begins and ends with braces of its own, a brace between quotes, and an escaped quote. -/
theorem scan_written_objects :
    let pieces : List Piece :=
      [⟨"a ".toList, "\x7bk: '\x7d'\x7d ".toList⟩, ⟨[], "\"\\\"\x7b\x7b\", \x7bk\x7d".toList⟩]
    ∃ parts, scan (.ofList (written pieces " b".toList)) = .ok parts ∧
      parts.slots.map Slot.filter =
        ["\x7bk: '\x7d'\x7d ".toList, "\"\\\"\x7b\x7b\", \x7bk".toList] ∧
      ∀ slot ∈ parts.slots, Text.sliceBytes slot.span.start slot.span.stop
        (written pieces " b".toList) = slot.filter := by
  intro pieces
  have hplain {text : List Char} (h : (text.all fun c => !isBrace c) = true) :
      ∀ c ∈ text, isBrace c = false := by
    intro c hc
    have hnot : (!isBrace c) = true := List.all_eq_true.1 h c hc
    rwa [Bool.not_eq_true'] at hnot
  have hliterals : ∀ piece ∈ pieces, ∀ c ∈ piece.literal, isBrace c = false := by
    simp only [pieces, List.forall_mem_cons]
    exact ⟨hplain (by decide +kernel), hplain rfl, List.forall_mem_nil _⟩
  have hseparate : ∀ piece ∈ pieces, Separate piece.filter := by
    simp only [pieces, List.forall_mem_cons]
    exact ⟨⟨by decide +kernel, by decide +kernel⟩, ⟨by decide +kernel, by decide +kernel⟩,
      List.forall_mem_nil _⟩
  exact scan_written hliterals (hplain (by decide +kernel)) hseparate

/-- A filter that ends with a brace comes back without it when the closing braces follow at once.  And of
two braces in a row the second one counts although the first one is escaped. -/
theorem closing_brace_lost :
    let filter := "\x7ba: 1\x7d".toList
    Separate filter ∧
      (scan (.ofList (written [⟨[], filter⟩] []))).map (fun parts => parts.slots.map Slot.filter) =
        .ok ["\x7ba: 1".toList] ∧
      scan (.ofList (written [⟨[], "\\\x7b\x7b".toList⟩] [])) = .error (.nestedOpening 3 0) := by
  intro filter
  exact ⟨⟨by decide +kernel, by decide +kernel⟩, by decide +kernel, by decide +kernel⟩

end JsonFilter.Template
