import JsonFilter.Proofs.Filter.Layout
import JsonFilter.Proofs.Filter.Lexemes
import Mathlib.Data.List.DropRight

/-!
# What tokens and errors cover

A scan cuts its text into pieces, a lexeme each, and reports something for some of them.  Nothing is left out
and nothing is read twice: the pieces one behind the other are the text.  So the tokens and the errors stand in
the order of the text, between characters, and what is not covered by a token is blanks and comments.

* `Pieces`, `reportsOf` — the pieces of a text, and what they add to a scan.
* `scan_eq_reportsOf` — a scan goes through the pieces.
* `Covered`, `Located` — what is said of the tokens and of the errors.
* **`tokenize_covers`** — every text is tokenized or refused, in this way.
-/

namespace JsonFilter.Filter

open Text (byteLength byteLength_cons byteLength_append sliceBytes)

/-! ### Pieces -/

/-- The lexemes of a text one behind the other, each with the characters it covers. -/
inductive Pieces : List Char → List (Lexeme × List Char) → Prop
  | done : Pieces [] []
  | next {c : Char} {cs behind : List Char} {lexeme : Lexeme} {pieces : List (Lexeme × List Char)} :
    lexemeAt c (cs ++ behind) = (lexeme, cs.length + 1) → lexeme.Covers (c :: cs) behind → Pieces behind pieces →
      Pieces (c :: (cs ++ behind)) ((lexeme, c :: cs) :: pieces)

/-- Every text is cut into pieces. -/
theorem exists_pieces (text : List Char) : ∃ pieces, Pieces text pieces := by
  induction hlength : text.length using Nat.strongRecOn generalizing text with
  | _ length ih =>
    cases text with
    | nil => exact ⟨[], .done⟩
    | cons c rest =>
      obtain ⟨cs, behind, rfl, htaken, hcovers⟩ := lexemeAt_covers c rest
      have hshorter : behind.length < length := by
        rw [← hlength, List.length_cons, List.length_append]
        omega
      obtain ⟨pieces, hpieces⟩ := ih _ hshorter behind rfl
      exact ⟨_, .next (Prod.ext rfl htaken) hcovers hpieces⟩

/-- No piece is empty. -/
theorem Pieces.length_le {text : List Char} {pieces : List (Lexeme × List Char)} (h : Pieces text pieces) :
    pieces.length ≤ text.length := by
  induction h with
  | done => exact Nat.le_refl 0
  | next _ _ _ ih =>
    rw [List.length_cons, List.length_cons, List.length_append]
    omega

/-- What pieces add to a scan, the first one at byte `offset`. -/
def reportsOf : List (Lexeme × List Char) → Nat → Nesting → List (Finding ⊕ Token)
  | [], _, _ => []
  | (lexeme, text) :: pieces, offset, nesting =>
    let start ahead := offset + byteLength (text.take ahead)
    let reported := lexeme.reports nesting offset (offset + byteLength text) start
    reported.1 ++ reportsOf pieces (offset + byteLength text) reported.2

/-- The bytes in front of a lexeme matter only if it is a fault, and only those in front of the fault. -/
theorem Lexeme.Covers.reports_eq {lexeme : Lexeme} {text behind : List Char} (h : lexeme.Covers text behind)
    (nesting : Nesting) (offset stop : Nat) :
    (lexeme.reports nesting offset stop fun ahead => offset + byteLength ((text ++ behind).take ahead)) =
      lexeme.reports nesting offset stop fun ahead => offset + byteLength (text.take ahead) := by
  cases h with
  | blank => rfl
  | comment => rfl
  | token => rfl
  | fault hahead =>
    dsimp only [reports]
    rw [List.take_append_of_le_length (Nat.le_of_lt hahead)]

/-- **A scan goes through the pieces.** -/
theorem scan_eq_reportsOf {text : List Char} {pieces : List (Lexeme × List Char)} (h : Pieces text pieces)
    (offset : Nat) (nesting : Nesting) : scan text 0 offset nesting = reportsOf pieces offset nesting := by
  induction h generalizing offset nesting with
  | done => rfl
  | @next c cs behind lexeme pieces hread hcovers _ ih =>
    have hpiece : (c :: (cs ++ behind)).take (cs.length + 1) = c :: cs := by
      rw [List.take_succ_cons, List.take_left]
    have hreports := hcovers.reports_eq nesting offset (offset + byteLength (c :: cs))
    rw [List.cons_append] at hreports
    rw [scan_cons, hread]
    dsimp only [reportsOf]
    rw [hpiece, hreports, Nat.add_sub_cancel, scan_skip, ih, byteLength_cons, Nat.add_assoc]

/-! ### Spans -/

/-- A span that covers a part of a text from one character to another.  The text begins at byte `offset`. -/
def Covering (offset : Nat) (text : List Char) (span : Span) : Prop :=
  ∃ before part behind, text = before ++ (part ++ behind) ∧ part ≠ [] ∧
    span = ⟨offset + byteLength before, offset + byteLength before + byteLength part⟩

/-- A span begins and ends in front of the beginning of another one. -/
def Precedes (s t : Span) : Prop := s.start < t.start ∧ s.stop ≤ t.start

/-- The span of a report. -/
def reportSpan : Finding ⊕ Token → Span := Sum.elim Finding.span Token.span

theorem byteLength_pos {text : List Char} (h : text ≠ []) : 0 < byteLength text := by
  cases text with
  | nil => exact absurd rfl h
  | cons c text =>
    rw [byteLength_cons]
    exact Nat.add_pos_left c.utf8Size_pos _

section

variable {text : List Char} {span : Span} {offset : Nat}

theorem Covering.bounds (h : Covering offset text span) :
    offset ≤ span.start ∧ span.start < span.stop ∧ span.stop ≤ offset + byteLength text := by
  obtain ⟨before, part, behind, rfl, hpart, rfl⟩ := h
  have hpos := byteLength_pos hpart
  rw [byteLength_append, byteLength_append]
  dsimp only
  omega

theorem Covering.append_right (h : Covering offset text span) (behind : List Char) :
    Covering offset (text ++ behind) span := by
  obtain ⟨before, part, after, rfl, hpart, rfl⟩ := h
  exact ⟨before, part, after ++ behind, by simp only [List.append_assoc], hpart, rfl⟩

theorem Covering.append_left (before : List Char) (h : Covering (offset + byteLength before) text span) :
    Covering offset (before ++ text) span := by
  obtain ⟨between, part, behind, rfl, hpart, rfl⟩ := h
  refine ⟨before ++ between, part, behind, (List.append_assoc _ _ _).symm, hpart, ?_⟩
  rw [byteLength_append, Nat.add_assoc]

/-- What a lexeme reports covers a part of what it takes. -/
theorem Lexeme.Covers.covering {lexeme : Lexeme} {c : Char} {cs behind : List Char} {nesting : Nesting}
    (h : lexeme.Covers (c :: cs) behind) :
    ∀ found ∈ (lexeme.reports nesting offset (offset + byteLength (c :: cs))
      fun ahead => offset + byteLength ((c :: cs).take ahead)).1,
      Covering offset (c :: cs) (reportSpan found) := by
  intro found hfound
  have hwhole : Covering offset (c :: cs) ⟨offset, offset + byteLength (c :: cs)⟩ :=
    ⟨[], c :: cs, [], (List.append_nil _).symm, List.cons_ne_nil c cs, rfl⟩
  cases h with
  | blank => cases hfound
  | comment => cases hfound
  | token =>
    unfold reports at hfound
    dsimp only at hfound
    split at hfound
    · rcases List.mem_cons.1 hfound with rfl | hfound
      · exact hwhole
      · cases List.mem_singleton.1 hfound
        exact hwhole
    · cases List.mem_singleton.1 hfound
      exact hwhole
  | @fault _ ahead _ _ hahead =>
    cases List.mem_singleton.1 hfound
    refine ⟨(c :: cs).take ahead, (c :: cs).drop ahead, [], ?_, ?_, ?_⟩
    · rw [List.append_nil, List.take_append_drop]
    · exact fun hnil => absurd (List.drop_eq_nil_iff.1 hnil) (Nat.not_le.2 hahead)
    · rw [Nat.add_assoc, ← byteLength_append, List.take_append_drop]
      rfl

/-- Two reports of a lexeme are a finding and a token. -/
theorem Lexeme.reports_pairwise (lexeme : Lexeme) (nesting : Nesting) (offset stop : Nat) (start : Nat → Nat) :
    (lexeme.reports nesting offset stop start).1.Pairwise fun found found' => found.isLeft ≠ found'.isLeft := by
  unfold reports
  cases lexeme with
  | blank => exact .nil
  | fault wrong ahead => exact List.pairwise_singleton _ _
  | token kind =>
    dsimp only
    split
    · exact List.pairwise_pair.2 nofun
    · exact List.pairwise_singleton _ _

/-- Every report covers a part of the text. -/
theorem covering_of_mem_reportsOf {pieces : List (Lexeme × List Char)} {nesting : Nesting}
    (h : Pieces text pieces) {found : Finding ⊕ Token} (hfound : found ∈ reportsOf pieces offset nesting) :
    Covering offset text (reportSpan found) := by
  induction h generalizing offset nesting with
  | done => cases hfound
  | next _ hcovers _ ih =>
    rcases List.mem_append.1 hfound with hhead | hrest
    · exact (hcovers.covering found hhead).append_right _
    · exact (ih hrest).append_left (_ :: _)

/-- Reports of one kind come in the order of the text. -/
theorem reportsOf_pairwise {pieces : List (Lexeme × List Char)} {nesting : Nesting} (h : Pieces text pieces) :
    (reportsOf pieces offset nesting).Pairwise fun found found' =>
      found.isLeft = found'.isLeft → Precedes (reportSpan found) (reportSpan found') := by
  induction h generalizing offset nesting with
  | done => exact .nil
  | next _ hcovers hpieces ih =>
    refine List.pairwise_append.2 ⟨?_, ih, fun found hhead found' hrest _ => ?_⟩
    · exact (Lexeme.reports_pairwise _ _ _ _ _).imp fun hne heq => absurd heq hne
    · have hfirst := (hcovers.covering found hhead).bounds
      have hsecond := (covering_of_mem_reportsOf hpieces hrest).bounds
      unfold Precedes
      omega

end

/-! ### Errors -/

/-- What is said of the errors of a text: each of them covers a part of it and names the line and the column
in front of this part, and they come in the order of the text. -/
structure Located (chars : List Char) (errors : List LexError) : Prop where
  some : errors ≠ []
  ordered : errors.Pairwise fun e e' => Precedes e.span e'.span
  placed : ∀ e ∈ errors, ∃ before part behind, chars = before ++ (part ++ behind) ∧ part ≠ [] ∧
    e.span = ⟨byteLength before, byteLength before + byteLength part⟩ ∧
    let line := 1 + before.count '\n'
    let column := 1 + (before.rtakeWhile (· != '\n')).length
    e.message = s!"{e.fault.description} (line {line}, column {column})"

/-- The error of a finding, in a text. -/
def Finding.error (chars : List Char) (finding : Finding) : LexError :=
  ⟨finding.fault, finding.span, .after (Text.takeBytes finding.span.start chars)⟩

/-- The errors of a filter are those of a scan with faults. -/
theorem tokenize_eq_error_iff {source : String} {errors : List LexError} :
    tokenize source = .error errors ↔
      (scan source.toList 0 0 .start).filterMap Sum.getLeft? ≠ [] ∧
        errors = ((scan source.toList 0 0 .start).filterMap Sum.getLeft?).map (Finding.error source.toList) := by
  unfold tokenize
  dsimp only
  rw [List.filterMap_congr (g := fun found => found.getLeft?.map (Finding.error source.toList))
    fun found _ => by cases found <;> rfl, ← List.map_filterMap]
  split
  · next hnone =>
    rw [List.isEmpty_iff, List.map_eq_nil_iff] at hnone
    exact ⟨nofun, fun hsome => absurd hnone hsome.1⟩
  · next hsome =>
    rw [List.isEmpty_iff, List.map_eq_nil_iff] at hsome
    rw [Except.error.injEq, eq_comm]
    exact (and_iff_right hsome).symm

theorem located_of_pieces {chars : List Char} {pieces : List (Lexeme × List Char)} (h : Pieces chars pieces)
    (hsome : (reportsOf pieces 0 .start).filterMap Sum.getLeft? ≠ []) :
    Located chars (((reportsOf pieces 0 .start).filterMap Sum.getLeft?).map (Finding.error chars)) where
  some := fun hnil => hsome (List.map_eq_nil_iff.1 hnil)
  ordered := by
    refine List.pairwise_map.2 (List.Pairwise.filterMap _ ?_ (reportsOf_pairwise h))
    intro found found' hordered finding hfinding finding' hfinding'
    rw [Sum.getLeft?_eq_some_iff] at hfinding hfinding'
    subst hfinding hfinding'
    exact hordered rfl
  placed := by
    intro e he
    obtain ⟨finding, hfinding, rfl⟩ := List.mem_map.1 he
    obtain ⟨found, hfound, heq⟩ := List.mem_filterMap.1 hfinding
    rw [Sum.getLeft?_eq_some_iff] at heq
    subst heq
    obtain ⟨before, part, behind, rfl, hpart, hspan⟩ := covering_of_mem_reportsOf h hfound
    rw [Nat.zero_add] at hspan
    have hspan' : finding.span = ⟨byteLength before, byteLength before + byteLength part⟩ := hspan
    refine ⟨before, part, behind, rfl, hpart, hspan, ?_⟩
    dsimp only [LexError.message, Finding.error]
    rw [hspan', Text.takeBytes_append, Text.LineColumn.after_eq]

/-! ### Tokens -/

/-- Tokens that cover a text but for the gaps between them.  The text begins at byte `offset`; its last gap may
end with a comment. -/
inductive Tiled : Nat → List Char → List Token → Prop
  | last {offset : Nat} {gap : List Char} : IsGap (gap ++ ['\n']) → Tiled offset gap []
  | token {offset : Nat} {gap cs behind : List Char} {c : Char} {kind : TokenKind} {tokens : List Token} :
    IsGap gap → lexemeAt c cs = (.token kind, cs.length + 1) →
      Tiled (offset + byteLength gap + byteLength (c :: cs)) behind tokens →
      Tiled offset (gap ++ (c :: cs ++ behind))
        (⟨kind, ⟨offset + byteLength gap, offset + byteLength gap + byteLength (c :: cs)⟩⟩ :: tokens)

section

variable {offset : Nat} {text : List Char} {tokens : List Token}

/-- A line end is no token, so that a gap in front of it goes on. -/
theorem IsGap.of_newline {gap : List Char} (h : IsGap ('\n' :: gap)) : IsGap gap := by
  cases h with
  | blank _ hgap => exact hgap

theorem Tiled.blank {c : Char} (hc : Text.isBlank c = true) (h : Tiled (offset + byteLength [c]) text tokens) :
    Tiled offset (c :: text) tokens := by
  cases h with
  | last hgap => exact .last (.blank hc hgap)
  | @token _ gap cs behind d kind tokens hgap hread hrest =>
    have hlength : offset + byteLength [c] + byteLength gap = offset + byteLength (c :: gap) := by
      rw [Nat.add_assoc, ← byteLength_append]
      rfl
    rw [hlength] at hrest ⊢
    exact .token (.blank hc hgap) hread hrest

theorem Tiled.comment {comment : List Char} (hcomment : '\n' ∉ comment) (hend : ∀ c ∈ text.head?, c = '\n')
    (h : Tiled (offset + byteLength ('#' :: comment)) text tokens) :
    Tiled offset ('#' :: (comment ++ text)) tokens := by
  cases h with
  | last hgap =>
    refine .last ?_
    cases text with
    | nil => 
      rw [List.append_nil]
      exact .comment hcomment .nil
    | cons c text =>
      obtain rfl := hend c rfl
      rw [List.cons_append, List.append_assoc]
      exact .comment hcomment hgap.of_newline
  | @token _ gap cs behind d kind tokens hgap hread hrest =>
    cases gap with
    | nil =>
      obtain rfl := hend d rfl
      cases hread
    | cons c gap =>
      obtain rfl := hend c rfl
      have hlength : offset + byteLength ('#' :: comment) + byteLength ('\n' :: gap) =
          offset + byteLength ('#' :: (comment ++ '\n' :: gap)) := by
        rw [Nat.add_assoc, ← byteLength_append]
        rfl
      have htext : '#' :: (comment ++ ('\n' :: gap ++ (d :: cs ++ behind))) =
          '#' :: (comment ++ '\n' :: gap) ++ (d :: cs ++ behind) := by simp
      rw [hlength] at hrest ⊢
      rw [htext]
      exact .token (.comment hcomment hgap.of_newline) hread hrest

/-- The tokens of a scan without faults cover the text. -/
theorem tiled_of_pieces {pieces : List (Lexeme × List Char)} {nesting : Nesting} (h : Pieces text pieces)
    (hclean : ∀ finding, .inl finding ∉ reportsOf pieces offset nesting) :
    Tiled offset text ((reportsOf pieces offset nesting).filterMap Sum.getRight?) := by
  induction h generalizing offset nesting with
  | done => exact .last (.blank rfl .nil)
  | @next c cs behind lexeme pieces hread hcovers hpieces ih =>
    have hrest {nesting' : Nesting} (hsub : ∀ finding,
        .inl finding ∈ reportsOf pieces (offset + byteLength (c :: cs)) nesting' →
          .inl finding ∈ reportsOf ((lexeme, c :: cs) :: pieces) offset nesting) :=
      ih fun finding hfinding => hclean finding (hsub finding hfinding)
    cases hcovers with
    | blank hblank => exact (hrest fun _ => id).blank hblank
    | comment hcomment hend => exact (hrest fun _ => id).comment hcomment hend
    | fault hahead => exact absurd List.mem_cons_self (hclean _)
    | @token kind _ _ _ halone =>
      have hnesting : (nesting.after kind).exceeded = false := by
        by_contra hexceeded
        rw [Bool.not_eq_false] at hexceeded
        refine hclean ⟨.nestingTooDeep, ⟨offset, offset + byteLength (c :: cs)⟩⟩ (List.mem_append_left _ ?_)
        simp only [Lexeme.reports, hexceeded, if_true, List.mem_cons, true_or]
      have hreports : reportsOf ((.token kind, c :: cs) :: pieces) offset nesting =
          .inr ⟨kind, ⟨offset, offset + byteLength (c :: cs)⟩⟩ ::
            reportsOf pieces (offset + byteLength (c :: cs)) (nesting.after kind) := by
        simp only [reportsOf, Lexeme.reports, hnesting, Bool.false_eq_true, if_false, List.singleton_append]
      rw [hreports] at hrest ⊢
      exact .token .nil halone (hrest fun _ => List.mem_cons_of_mem _)

end

/-- The end behind the tokens of a text. -/
def endOf (chars : List Char) : Token := ⟨.eof, .point (byteLength chars)⟩

/-- What is said of the tokens of a text in front of its end: each of them covers a part of the text, they and
the end come in order, the text between them is blanks and comments, and so is the text behind them, where the
last comment may be cut off; and each token, and the end, is what the text it covers is tokenized to. -/
structure Covered (chars : List Char) (tokens : List Token) : Prop where
  covering : ∀ t ∈ tokens, Covering 0 chars t.span
  ordered : (tokens ++ [endOf chars]).Pairwise fun s t => Precedes s.span t.span
  gaps : (Span.point 0 :: tokens.map Token.span).IsChain fun s t => IsGap (sliceBytes s.stop t.start chars)
  last : ∀ s ∈ (Span.point 0 :: tokens.map Token.span).getLast?,
    IsGap (sliceBytes s.stop (byteLength chars) chars ++ ['\n'])
  alone : ∀ t ∈ tokens ++ [endOf chars],
    ∃ behind, tokenize (.ofList (sliceBytes t.span.start t.span.stop chars)) =
      .ok (⟨t.kind, ⟨0, t.span.length⟩⟩ :: behind) ∧ ∀ u ∈ behind, u.kind = .eof

/-- A token is read alone from the text it covers. -/
theorem tokenize_alone {kind : TokenKind} {c : Char} {cs : List Char}
    (h : lexemeAt c cs = (.token kind, cs.length + 1)) :
    tokenize (.ofList (c :: cs)) =
      .ok [⟨kind, ⟨0, byteLength (c :: cs)⟩⟩, ⟨.eof, .point (byteLength (c :: cs))⟩] := by
  have hnesting : (Nesting.start.after kind).exceeded = false := by
    unfold Nesting.after
    split <;> rfl
  have hscan : scan (c :: cs) 0 0 .start = [⟨kind, ⟨0, byteLength (c :: cs)⟩⟩].map .inr := by
    have hrest := scan_skip cs [] c.utf8Size (Nesting.start.after kind)
    rw [List.append_nil] at hrest
    rw [scan_cons, h]
    simp only [Lexeme.reports, hnesting, Bool.false_eq_true, if_false, Nat.add_sub_cancel, hrest,
      List.take_of_length_le (Nat.le_of_eq (List.length_cons)), Nat.zero_add]
    rfl
  exact tokenize_of_scan hscan

section

variable {before text : List Char} {tokens : List Token}

/-- The gaps between tokens, and the one behind them, in a text that has more in front. -/
theorem Tiled.gaps (h : Tiled (byteLength before) text tokens) {previous : Span}
    (hprevious : previous.stop = byteLength before) :
    (previous :: tokens.map Token.span).IsChain
        (fun s t => IsGap (sliceBytes s.stop t.start (before ++ text))) ∧
      ∀ s ∈ (previous :: tokens.map Token.span).getLast?,
        IsGap (sliceBytes s.stop (byteLength (before ++ text)) (before ++ text) ++ ['\n']) := by
  generalize hoffset : byteLength before = offset at h hprevious
  induction h generalizing before previous with
  | @last offset gap hgap =>
    refine ⟨List.IsChain.singleton _, fun s hs => ?_⟩
    obtain rfl : previous = s := Option.some.inj hs
    have hslice := Text.sliceBytes_append before gap []
    rw [List.append_nil] at hslice
    rw [hprevious, ← hoffset, byteLength_append, hslice]
    exact hgap
  | @token offset gap cs behind c kind tokens hgap _ _ ih =>
    have hlength : byteLength (before ++ gap ++ c :: cs) = offset + byteLength gap + byteLength (c :: cs) := by
      rw [byteLength_append, byteLength_append, hoffset]
    have htext : before ++ (gap ++ (c :: cs ++ behind)) = before ++ gap ++ c :: cs ++ behind := by
      simp only [List.append_assoc]
    have hslice : sliceBytes previous.stop (offset + byteLength gap) (before ++ (gap ++ (c :: cs ++ behind))) =
        gap := by
      rw [hprevious, ← hoffset, ← List.append_assoc]
      exact Text.sliceBytes_append before gap _
    have hstop : (⟨offset + byteLength gap, offset + byteLength gap + byteLength (c :: cs)⟩ : Span).stop =
      offset + byteLength gap + byteLength (c :: cs) := rfl
    obtain ⟨hchain, hlast⟩ := ih hlength hstop
    rw [← htext] at hchain hlast
    refine ⟨.cons_cons ?_ hchain, fun s hs => hlast s ?_⟩
    · rw [hslice]
      exact hgap
    · rwa [List.map_cons, List.getLast?_cons_cons] at hs

/-- Each token is read alone. -/
theorem Tiled.alone (h : Tiled (byteLength before) text tokens) :
    ∀ t ∈ tokens, ∃ c cs, sliceBytes t.span.start t.span.stop (before ++ text) = c :: cs ∧
      lexemeAt c cs = (.token t.kind, cs.length + 1) ∧ t.span.length = byteLength (c :: cs) := by
  generalize hoffset : byteLength before = offset at h
  induction h generalizing before with
  | last => exact List.forall_mem_nil _
  | @token offset gap cs behind c kind tokens _ hread _ ih =>
    have hlength : byteLength (before ++ gap ++ c :: cs) = offset + byteLength gap + byteLength (c :: cs) := by
      rw [byteLength_append, byteLength_append, hoffset]
    have htext : before ++ (gap ++ (c :: cs ++ behind)) = before ++ gap ++ c :: cs ++ behind := by
      simp only [List.append_assoc]
    refine List.forall_mem_cons.2 ⟨⟨c, cs, ?_, hread, Nat.add_sub_cancel_left _ _⟩, ?_⟩
    · have hslice := Text.sliceBytes_append (before ++ gap) (c :: cs) behind
      rwa [← htext, byteLength_append, hoffset] at hslice
    · rw [htext]
      exact ih hlength

end

theorem covered_of_pieces {chars : List Char} {pieces : List (Lexeme × List Char)} (h : Pieces chars pieces)
    (hclean : ∀ finding, .inl finding ∉ reportsOf pieces 0 .start) :
    Covered chars ((reportsOf pieces 0 .start).filterMap Sum.getRight?) := by
  have hmem : ∀ t ∈ (reportsOf pieces 0 .start).filterMap Sum.getRight?, Covering 0 chars t.span := by
    intro t ht
    obtain ⟨found, hfound, heq⟩ := List.mem_filterMap.1 ht
    rw [Sum.getRight?_eq_some_iff] at heq
    subst heq
    exact covering_of_mem_reportsOf h hfound
  have htiled : Tiled (byteLength []) chars ((reportsOf pieces 0 .start).filterMap Sum.getRight?) :=
    tiled_of_pieces h hclean
  have hgaps := htiled.gaps (show (Span.point 0).stop = _ from rfl)
  refine ⟨hmem, ?_, hgaps.1, hgaps.2, ?_⟩
  · refine List.pairwise_append.2 ⟨?_, List.pairwise_singleton _ _, fun t ht u hu => ?_⟩
    · refine List.Pairwise.filterMap _ ?_ (reportsOf_pairwise h)
      intro found found' hordered t ht t' ht'
      rw [Sum.getRight?_eq_some_iff] at ht ht'
      subst ht ht'
      exact hordered rfl
    · have hbounds := (hmem t ht).bounds
      rw [List.mem_singleton.1 hu]
      unfold Precedes endOf Span.point
      dsimp only
      omega
  · intro t ht
    rcases List.mem_append.1 ht with hfound | hend
    · obtain ⟨c, cs, hslice, hread, hlength⟩ := htiled.alone t hfound
      rw [List.nil_append] at hslice
      rw [hslice, hlength, tokenize_alone hread]
      exact ⟨_, rfl, List.forall_mem_singleton.2 rfl⟩
    · have hslice : sliceBytes (byteLength chars) (byteLength chars) chars = [] := by
        have hpart := Text.sliceBytes_append chars [] []
        rwa [List.append_nil, List.append_nil] at hpart
      rw [List.mem_singleton.1 hend]
      unfold endOf Span.point Span.length
      dsimp only
      rw [hslice, Nat.sub_self]
      exact ⟨[], rfl, List.forall_mem_nil _⟩

theorem tiled_of_tokenize {source : String} {tokens : List Token} (h : tokenize source = .ok tokens) :
    ∃ found, tokens = found ++ [endOf source.toList] ∧ Tiled 0 source.toList found := by
  obtain ⟨pieces, hpieces⟩ := exists_pieces source.toList
  obtain ⟨hclean, rfl⟩ := tokenize_eq_ok_iff.1 h
  rw [scan_eq_reportsOf hpieces] at hclean ⊢
  exact ⟨_, rfl, tiled_of_pieces hpieces hclean⟩

/-- **Every text is tokenized or refused**, by reading its pieces one after the other: no more of them than it has
characters.  The tokens cover it but for blanks and comments; the errors tell their places. -/
theorem tokenize_covers (source : String) :
    (∃ pieces, Pieces source.toList pieces ∧ pieces.length ≤ source.toList.length ∧
      scan source.toList 0 0 .start = reportsOf pieces 0 .start) ∧
    match tokenize source with
    | .ok tokens => ∃ found, tokens = found ++ [endOf source.toList] ∧ Covered source.toList found
    | .error errors => Located source.toList errors := by
  obtain ⟨pieces, hpieces⟩ := exists_pieces source.toList
  have hscan := scan_eq_reportsOf hpieces 0 .start
  refine ⟨⟨pieces, hpieces, hpieces.length_le, hscan⟩, ?_⟩
  cases htokens : tokenize source with
  | ok tokens =>
    obtain ⟨hclean, rfl⟩ := tokenize_eq_ok_iff.1 htokens
    rw [hscan] at hclean ⊢
    exact ⟨_, rfl, covered_of_pieces hpieces hclean⟩
  | error errors =>
    obtain ⟨hsome, rfl⟩ := tokenize_eq_error_iff.1 htokens
    rw [hscan] at hsome ⊢
    exact located_of_pieces hpieces hsome

end JsonFilter.Filter
