import JsonFilter.Proofs.Filter.Scanning
import JsonFilter.Proofs.Filter.Spelling
import JsonFilter.Proofs.Text.Bytes
import Mathlib.Data.List.Infix

/-!
# Tokens and their layout

Tokens are written one behind the other with gaps of blanks and comments between them.  Whatever their
spellings and whatever the gaps, the lexer gives the tokens back.

* `IsGap`, `LaidOut` — gaps, and the texts that tokens can be written as.
* `Nesting.Within` — the levels that the tokens open stay within the limit.
* **`tokenize_laidOut`** — the kinds of the tokens come back, and the end behind them.
-/

namespace JsonFilter.Filter

open Text (byteLength byteLength_cons byteLength_append)

/-! ### Layout -/

/-- Blanks and comments, each comment with the end of its line. -/
inductive IsGap : List Char → Prop
  | nil : IsGap []
  | blank {c : Char} {gap : List Char} : Text.isBlank c = true → IsGap gap → IsGap (c :: gap)
  | comment {text gap : List Char} : '\n' ∉ text → IsGap gap → IsGap ('#' :: (text ++ '\n' :: gap))

/-- The texts that tokens of given kinds can be written as: a gap between any two of them, and perhaps one
in front and one behind. -/
inductive LaidOut : List TokenKind → List Char → Prop
  | nil : LaidOut [] []
  | gap {kinds : List TokenKind} {gap text : List Char} :
    IsGap gap → LaidOut kinds text → LaidOut kinds (gap ++ text)
  | last {kind : TokenKind} {spelling : List Char} : kind.Spells spelling → LaidOut [kind] spelling
  | token {kind : TokenKind} {kinds : List TokenKind} {spelling gap text : List Char} :
    kind.Spells spelling → IsGap gap → gap ≠ [] → LaidOut kinds text →
      LaidOut (kind :: kinds) (spelling ++ (gap ++ text))

theorem IsGap.atGap {gap : List Char} (h : IsGap gap) (hne : gap ≠ []) (rest : List Char) :
    AtGap (gap ++ rest) := by
  cases h with
  | nil => exact absurd rfl hne
  | blank hblank =>
    rintro c ⟨⟩
    exact Bool.or_eq_true_iff.2 (.inl hblank)
  | comment =>
    rintro c ⟨⟩
    rfl

/-- The levels open behind each of the tokens stay within the limit. -/
def Nesting.Within (n : Nesting) (kinds : List TokenKind) : Prop :=
  ∀ before ∈ kinds.inits,
    (before.foldl Nesting.after n).depth + (before.foldl Nesting.after n).leading ≤ maxNesting

instance (n : Nesting) (kinds : List TokenKind) : Decidable (n.Within kinds) :=
  inferInstanceAs (Decidable (∀ before ∈ kinds.inits,
    (before.foldl Nesting.after n).depth + (before.foldl Nesting.after n).leading ≤ maxNesting))

theorem Nesting.Within.tail {n : Nesting} {kind : TokenKind} {kinds : List TokenKind}
    (h : n.Within (kind :: kinds)) : (n.after kind).Within kinds := fun before hbefore =>
  h (kind :: before) ((List.mem_inits _ _).2 (List.cons_prefix_cons.2 ⟨rfl, (List.mem_inits _ _).1 hbefore⟩))

theorem Nesting.Within.not_exceeded {n : Nesting} {kind : TokenKind} {kinds : List TokenKind}
    (h : n.Within (kind :: kinds)) : (n.after kind).exceeded = false := by
  have hlimit := h.tail [] ((List.mem_inits _ _).2 List.nil_prefix)
  simp only [Nesting.exceeded, Bool.and_eq_false_iff, decide_eq_false_iff_not]
  exact .inl (Nat.not_lt.2 hlimit)

/-! ### Scans -/

/-- A scan skips the characters of a lexeme that was read. -/
theorem scan_skip (skipped rest : List Char) (offset : Nat) (nesting : Nesting) :
    scan (skipped ++ rest) skipped.length offset nesting =
      scan rest 0 (offset + byteLength skipped) nesting := by
  induction skipped generalizing offset with
  | nil => rfl
  | cons c skipped ih =>
    show scan (skipped ++ rest) skipped.length (offset + c.utf8Size) nesting = _
    rw [ih, byteLength_cons, Nat.add_assoc]

/-- A scan goes on behind a gap. -/
theorem scan_gap {gap : List Char} (h : IsGap gap) (rest : List Char) (offset : Nat) (nesting : Nesting) :
    scan (gap ++ rest) 0 offset nesting = scan rest 0 (offset + byteLength gap) nesting := by
  induction h generalizing offset with
  | nil => rfl
  | @blank c gap hblank _ ih =>
    have hlexeme : lexemeAt c (gap ++ rest) = (.blank, 1) := if_pos hblank
    rw [List.cons_append, scan_cons, hlexeme]
    show scan (gap ++ rest) 0 (offset + c.utf8Size) nesting = _
    rw [ih, byteLength_cons, Nat.add_assoc]
  | @comment text gap htext _ ih =>
    have hline : (text ++ '\n' :: (gap ++ rest)).takeWhile (· != '\n') = text :=
      Text.takeWhile_append_of_head (fun c hc => bne_iff_ne.2 fun heq => htext (heq ▸ hc)) (by simp)
    have hlexeme : lexemeAt '#' (text ++ '\n' :: (gap ++ rest)) = (.blank, 1 + text.length) := by
      show (Lexeme.blank, 1 + ((text ++ '\n' :: (gap ++ rest)).takeWhile (· != '\n')).length) = _
      rw [hline]
    have hnewline : lexemeAt '\n' (gap ++ rest) = (.blank, 1) := rfl
    rw [List.cons_append, List.append_assoc, List.cons_append, scan_cons, hlexeme]
    show scan (text ++ '\n' :: (gap ++ rest)) (1 + text.length - 1) (offset + '#'.utf8Size) nesting = _
    rw [Nat.add_sub_cancel_left, scan_skip, scan_cons, hnewline]
    show scan (gap ++ rest) 0 (offset + '#'.utf8Size + byteLength text + '\n'.utf8Size) nesting = _
    rw [ih, byteLength_cons, byteLength_append, byteLength_cons]
    simp only [Nat.add_assoc]

/-- A scan finds a spelled token in front of a gap and goes on behind it. -/
theorem scan_spelled {kind : TokenKind} {spelling rest : List Char} (h : kind.Spells spelling)
    (hrest : AtGap rest) (offset : Nat) {nesting : Nesting} (hnesting : (nesting.after kind).exceeded = false) :
    ∃ span, scan (spelling ++ rest) 0 offset nesting =
      .inr ⟨kind, span⟩ :: scan rest 0 (offset + byteLength spelling) (nesting.after kind) := by
  obtain ⟨c, cs, rfl, hlexeme⟩ := lexemeAt_spelled h hrest
  refine ⟨⟨offset, offset + byteLength ((c :: (cs ++ rest)).take (cs.length + 1))⟩, ?_⟩
  rw [List.cons_append, scan_cons, hlexeme]
  simp only [Lexeme.reports, hnesting, Bool.false_eq_true, if_false, List.length_cons,
    Nat.add_sub_cancel, List.singleton_append]
  rw [scan_skip, byteLength_cons, Nat.add_assoc]

/-- **The scan of a layout** finds the tokens and nothing else. -/
theorem scan_laidOut {kinds : List TokenKind} {text : List Char} (h : LaidOut kinds text) (offset : Nat)
    {nesting : Nesting} (hnesting : nesting.Within kinds) :
    ∃ tokens : List Token, scan text 0 offset nesting = tokens.map .inr ∧ tokens.map Token.kind = kinds := by
  induction h generalizing offset nesting with
  | nil => exact ⟨[], rfl, rfl⟩
  | gap hgap _ ih =>
    rw [scan_gap hgap]
    exact ih _ hnesting
  | @last kind spelling hspells =>
    have hend : AtGap [] := fun c hc => by cases hc
    obtain ⟨span, hscan⟩ := scan_spelled hspells hend offset hnesting.not_exceeded
    rw [List.append_nil] at hscan
    exact ⟨[⟨kind, span⟩], hscan, rfl⟩
  | @token kind kinds spelling gap text hspells hgap hne _ ih =>
    obtain ⟨span, hscan⟩ := scan_spelled hspells (hgap.atGap hne text) offset hnesting.not_exceeded
    obtain ⟨tokens, htokens, hkinds⟩ := ih (offset + byteLength spelling + byteLength gap) hnesting.tail
    refine ⟨⟨kind, span⟩ :: tokens, ?_, by rw [List.map_cons, hkinds]⟩
    rw [hscan, scan_gap hgap, htokens, List.map_cons]

/-- **Lexing undoes writing.**  Tokens of any kinds that stay within the limit of nesting, in any of their
spellings and with any gaps between them, are read back, and the end of the filter behind them. -/
theorem tokenize_laidOut {kinds : List TokenKind} {source : String} (h : LaidOut kinds source.toList)
    (hnesting : Nesting.start.Within kinds) :
    (tokenize source).map (fun tokens => tokens.map Token.kind) = .ok (kinds ++ [.eof]) := by
  obtain ⟨tokens, hscan, hkinds⟩ := scan_laidOut h 0 hnesting
  have hread : tokenize source = .ok (tokens ++ [⟨.eof, .point (byteLength source.toList)⟩]) := by
    rw [tokenize_eq_ok_iff, hscan]
    refine ⟨fun finding hmem => ?_, ?_⟩
    · obtain ⟨token, -, heq⟩ := List.mem_map.1 hmem
      cases heq
    · rw [List.filterMap_map]
      congr 1
      exact (List.filterMap_some).symm
  rw [hread, Except.map, List.map_append, hkinds]
  rfl

/-- A comment with a quote in it behind a field, a number with a fraction and an exponent, and a string with
a code point, an escaped quote and a surrogate pair. -/
theorem tokenize_laidOut_escapes :
    let kinds : List TokenKind := [.keyword .ifWord, .field "a", .mark .lessEqual, .number "1.5e-3",
      .string "é\"😀"]
    let source := "if .a#b\"\n<= 1.5e-3\t\"\\u00E9\\\"\\uD83d\\ude00\""
    LaidOut kinds source.toList ∧
      (tokenize source).map (fun tokens => tokens.map Token.kind) = .ok (kinds ++ [.eof]) := by
  intro kinds source
  have hgap (c : Char) (h : Text.isBlank c = true) : IsGap [c] := .blank h .nil
  have hcomment : IsGap ('#' :: (['b', '"'] ++ ['\n'])) := .comment (by decide) .nil
  have hdigit (c : Char) (h : c.isDigit = true) : IsDigits [c] :=
    ⟨List.cons_ne_nil c [], List.forall_mem_singleton.2 h⟩
  have hif : TokenKind.Spells (.keyword .ifWord) ['i', 'f'] := .keyword .ifWord
  have hfield : TokenKind.Spells (.field "a") ['.', 'a'] :=
    .field (.intro rfl (List.forall_mem_nil _))
  have hmark : TokenKind.Spells (.mark .lessEqual) ['<', '='] := .mark .lessEqual
  have hnumber : TokenKind.Spells (.number "1.5e-3") ['1', '.', '5', 'e', '-', '3'] :=
    .number (.intro (hdigit '1' rfl) (.point (hdigit '5' rfl))
      (.mark (.inl rfl) (.inr (.inr rfl)) (hdigit '3' rfl)))
  have hunit : IsUnit 'é'.toNat ['0', '0', 'E', '9'] := ⟨rfl, rfl⟩
  have hhigh : IsUnit 0xD83D ['D', '8', '3', 'd'] := ⟨rfl, rfl⟩
  have hlow : IsUnit 0xDE00 ['d', 'e', '0', '0'] := ⟨rfl, rfl⟩
  have hbody : IsBody ['é', '"', '😀'] "\\u00E9\\\"\\uD83d\\ude00".toList :=
    .escaped (.unit hunit) (.escaped (.short (by decide))
      (.escaped (.pair hhigh hlow (by decide) (by decide) (by decide) (by decide) rfl) .nil))
  have hstring : TokenKind.Spells (.string "é\"😀") ('"' :: ("\\u00E9\\\"\\uD83d\\ude00".toList ++ ['"'])) :=
    .string (show IsBody "é\"😀".toList _ from hbody)
  have hsource : source.toList = ['i', 'f'] ++ ([' '] ++ (['.', 'a'] ++ ('#' :: (['b', '"'] ++ ['\n']) ++
      (['<', '='] ++ ([' '] ++ (['1', '.', '5', 'e', '-', '3'] ++ (['\t'] ++
        '"' :: ("\\u00E9\\\"\\uD83d\\ude00".toList ++ ['"'])))))))) := by decide +kernel
  have hlaidOut : LaidOut kinds source.toList := by
    rw [hsource]
    exact .token hif (hgap ' ' rfl) (by decide) (.token hfield hcomment (by decide)
      (.token hmark (hgap ' ' rfl) (by decide) (.token hnumber (hgap '\t' rfl) (by decide)
        (.last hstring))))
  exact ⟨hlaidOut, tokenize_laidOut hlaidOut (by decide)⟩

end JsonFilter.Filter
