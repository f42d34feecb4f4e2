import JsonFilter.Proofs.Filter.Locality
import JsonFilter.Proofs.Filter.NestingCap
import JsonFilter.Proofs.Filter.QuotedKeys

/-!
# Reserved words as keys, and the cap on nesting

The reserved word that is the key of an object can be written as a string.  To the grammar the two are the same.
The lexer counts the levels of nesting without regard to keys: an `if` opens a level that nothing closes, a `try`
opens one up to the next token, and an `end` closes the level of the object.  So near the cap a filter can be
refused with one of the two and accepted with the other.

* `undefined_eraseSpans` — where names are undefined does not depend on spans.
* `Nesting.Below` — fewer open levels stay fewer, whatever follows.
* `BareKey` — a reserved word that is a key, somewhere in a text.
* **`compile_quoted`** — what quoting it changes.
-/

namespace JsonFilter

open JsonFilter.Filter (Expr Scope Nesting Keyword Token TokenKind NameError tokenize maxNesting)
open Json (Value)

namespace Filter

/-! ### Names and spans -/

/-- A complaint without its place. -/
def NameError.unplaced (e : NameError) : NameError := { e with span := .point 0 }

namespace Scope

theorem variableErrors_unplaced (s : Scope) (name : String) (span : Span) :
    s.variableErrors name (.point 0) = (s.variableErrors name span).map NameError.unplaced := by
  unfold variableErrors
  split <;> rfl

theorem callErrors_unplaced (s : Scope) (name : String) (arity : Nat) (span : Span) :
    s.callErrors name arity (.point 0) = (s.callErrors name arity span).map NameError.unplaced := by
  unfold callErrors
  split <;> rfl

theorem length_eraseAll (args : List Expr) : (Expr.eraseAll args).length = args.length := by
  induction args with
  | nil => rfl
  | cons e args ih => exact congrArg (· + 1) ih

mutual

/-- **Which names are undefined does not depend on spans.** -/
theorem undefined_eraseSpans (s : Scope) (e : Expr) :
    s.undefined e.eraseSpans = (s.undefined e).map NameError.unplaced := by
  cases e with
  | identity | recurseAll | literal => rfl
  | field target _ | iterate target | neg target => exact undefined_eraseSpans s target
  | index left right | binary _ left right | alternative left right | pipe left right | comma left right =>
    simp only [Expr.eraseSpans, undefined, List.map_append, undefined_eraseSpans]
  | slice target start stop =>
    simp only [Expr.eraseSpans, undefined, List.map_append, undefined_eraseSpans, undefinedMaybe_erase]
  | array body => exact undefinedMaybe_erase s body
  | object entries => exact undefinedEntries_erase s entries
  | cond test yes no =>
    simp only [Expr.eraseSpans, undefined, List.map_append, undefined_eraseSpans, undefinedMaybe_erase]
  | attempt body handler =>
    simp only [Expr.eraseSpans, undefined, List.map_append, undefined_eraseSpans, undefinedMaybe_erase]
  | reduce source var init update =>
    simp only [Expr.eraseSpans, undefined, List.map_append, undefined_eraseSpans]
  | bind source var body => simp only [Expr.eraseSpans, undefined, List.map_append, undefined_eraseSpans]
  | define name body rest => simp only [Expr.eraseSpans, undefined, List.map_append, undefined_eraseSpans]
  | «variable» name span => exact s.variableErrors_unplaced name span
  | call name args span =>
    simp only [Expr.eraseSpans, undefined, List.map_append, undefinedAll_erase, length_eraseAll,
      s.callErrors_unplaced name args.length span]

theorem undefinedMaybe_erase (s : Scope) (o : Option Expr) :
    s.undefinedMaybe (Expr.eraseMaybe o) = (s.undefinedMaybe o).map NameError.unplaced := by
  cases o with
  | none => rfl
  | some e => exact undefined_eraseSpans s e

theorem undefinedAll_erase (s : Scope) (args : List Expr) :
    s.undefinedAll (Expr.eraseAll args) = (s.undefinedAll args).map NameError.unplaced := by
  cases args with
  | nil => rfl
  | cons e args =>
    simp only [Expr.eraseAll, undefinedAll, List.map_append, undefined_eraseSpans, undefinedAll_erase]

theorem undefinedEntries_erase (s : Scope) (entries : List (ObjectKey Expr × Option Expr)) :
    s.undefinedEntries (Expr.eraseEntries entries) = (s.undefinedEntries entries).map NameError.unplaced := by
  cases entries with
  | nil => rfl
  | cons entry entries =>
    obtain ⟨key, value⟩ := entry
    simp only [Expr.eraseEntries, undefinedEntries, List.map_append, undefinedKey_erase, undefinedMaybe_erase,
      undefinedEntries_erase]

theorem undefinedKey_erase (s : Scope) (key : ObjectKey Expr) :
    s.undefinedKey (Expr.eraseKey key) = (s.undefinedKey key).map NameError.unplaced := by
  cases key with
  | static name => rfl
  | «variable» name span => exact s.variableErrors_unplaced name span
  | computed e => exact undefined_eraseSpans s e

end

end Scope

/-! ### Levels -/

namespace Nesting

variable {n n' : Nesting} {k k' : TokenKind} {kinds front back : List TokenKind}

/-- No more levels are open, and no more leading operators. -/
def Below (n n' : Nesting) : Prop := n.depth ≤ n'.depth ∧ n.leading ≤ n'.leading

theorem Below.after (h : n.Below n') (k : TokenKind) : (n.after k).Below (n'.after k) := by
  obtain ⟨hdepth, hleading⟩ := h
  unfold Below
  cases k with
  | mark m => cases m <;> simp only [Nesting.after] <;> omega
  | keyword word => cases word <;> simp only [Nesting.after] <;> omega
  | _ => exact ⟨hdepth, Nat.le_refl 0⟩

theorem Below.foldl_after (h : n.Below n') (kinds : List TokenKind) :
    (kinds.foldl Nesting.after n).Below (kinds.foldl Nesting.after n') := by
  induction kinds generalizing n n' with
  | nil => exact h
  | cons k kinds ih => exact ih (h.after k)

theorem Below.within (h : n.Below n') (hwithin : n'.Within kinds) : n.Within kinds := by
  intro before hbefore
  have hbelow := h.foldl_after before
  exact Nat.le_trans (Nat.add_le_add hbelow.1 hbelow.2) (hwithin before hbefore)

/-- **A token that opens no more can stand in place of another one.** -/
theorem Within.exchange (h : n.Within (front ++ k :: back)) (hk : ∀ n : Nesting, (n.after k').Below (n.after k)) :
    n.Within (front ++ k' :: back) := by
  induction front generalizing n with
  | nil => exact .cons h.self ((hk n).within h.tail)
  | cons other front ih => exact .cons h.self (ih h.tail)

/-- A string opens nothing. -/
theorem after_string_below {word : Keyword} (h : word ≠ .endWord) (text : String) (n : Nesting) :
    (n.after (.string text)).Below (n.after (.keyword word)) := by
  unfold Below
  cases word <;> first | exact absurd rfl h | (simp only [after]; omega)

/-- Most reserved words open nothing, and an `end` closes a level. -/
theorem after_keyword_below {word : Keyword} (hif : word ≠ .ifWord) (htry : word ≠ .tryWord) (text : String)
    (n : Nesting) : (n.after (.keyword word)).Below (n.after (.string text)) := by
  unfold Below
  cases word <;> first | exact absurd rfl hif | exact absurd rfl htry | (simp only [after]; omega)

end Nesting

/-! ### Tokens of pieces -/

/-- The kind of the token that a lexeme is. -/
def Lexeme.kind? : Lexeme → Option TokenKind
  | .token kind => some kind
  | _ => none

/-- The kinds of the tokens among pieces. -/
def kindsOf (pieces : List (Lexeme × List Char)) : List TokenKind := pieces.filterMap fun piece => piece.1.kind?

/-- No piece is a fault. -/
def Faultless (pieces : List (Lexeme × List Char)) : Prop :=
  ∀ piece ∈ pieces, ∀ wrong ahead, piece.1 ≠ .fault wrong ahead

section

variable {pieces front back : List (Lexeme × List Char)} {source : String} {tokens : List Token} {n : Nesting}

theorem kindsOf_append (front back : List (Lexeme × List Char)) :
    kindsOf (front ++ back) = kindsOf front ++ kindsOf back := List.filterMap_append

theorem kinds_reportsOf (pieces : List (Lexeme × List Char)) (offset : Nat) (n : Nesting) :
    ((reportsOf pieces offset n).filterMap Sum.getRight?).map Token.kind = kindsOf pieces := by
  induction pieces generalizing offset n with
  | nil => rfl
  | cons piece pieces ih =>
    obtain ⟨lexeme, text⟩ := piece
    dsimp only [reportsOf]
    rw [List.filterMap_append, List.map_append, ih]
    cases lexeme with
    | blank => rfl
    | fault wrong ahead => rfl
    | token kind =>
      unfold Lexeme.reports
      dsimp only
      split <;> rfl

theorem faultless_of_clean {offset : Nat} (h : ∀ finding, .inl finding ∉ reportsOf pieces offset n) :
    Faultless pieces := by
  induction pieces generalizing offset n with
  | nil => exact List.forall_mem_nil _
  | cons piece pieces ih =>
    obtain ⟨lexeme, text⟩ := piece
    refine List.forall_mem_cons.2 ⟨?_, ih fun finding hmem => h finding (List.mem_append_right _ hmem)⟩
    rintro wrong ahead rfl
    exact h _ (List.mem_append_left _ List.mem_cons_self)

theorem clean_of_faultless {offset : Nat} (h : Faultless pieces) (hwithin : n.Within (kindsOf pieces)) :
    ∀ finding, .inl finding ∉ reportsOf pieces offset n := by
  induction pieces generalizing offset n with
  | nil => exact fun _ hmem => nomatch hmem
  | cons piece pieces ih =>
    obtain ⟨lexeme, text⟩ := piece
    obtain ⟨hpiece, hpieces⟩ := List.forall_mem_cons.1 h
    intro finding hmem
    dsimp only [reportsOf] at hmem
    cases lexeme with
    | blank => exact ih hpieces hwithin finding hmem
    | fault wrong ahead => exact hpiece wrong ahead rfl
    | token kind =>
      have hwithin : n.Within (kind :: kindsOf pieces) := hwithin
      unfold Lexeme.reports at hmem
      simp only [hwithin.not_exceeded, Bool.false_eq_true, if_false, List.cons_append, List.nil_append,
        List.mem_cons, reduceCtorEq, false_or] at hmem
      exact ih hpieces hwithin.tail finding hmem

/-- **A filter is tokenized** if its lexemes are no faults and open no more levels than allowed. -/
theorem tokenizes_iff (h : Pieces source.toList pieces) :
    (∃ tokens, tokenize source = .ok tokens) ↔ Faultless pieces ∧ Nesting.start.Within (kindsOf pieces) := by
  have hscan := scan_eq_reportsOf h 0 .start
  constructor
  · rintro ⟨tokens, htokens⟩
    obtain ⟨hclean, -⟩ := tokenize_eq_ok_iff.1 htokens
    have hwithin := within_of_scan (Nat.zero_le _) rfl hclean
    rw [hscan] at hclean hwithin
    rw [kinds_reportsOf] at hwithin
    exact ⟨faultless_of_clean hclean, hwithin⟩
  · rintro ⟨hfaultless, hwithin⟩
    refine ⟨_, tokenize_eq_ok_iff.2 ⟨?_, rfl⟩⟩
    rw [hscan]
    exact clean_of_faultless hfaultless hwithin

theorem kinds_of_tokenize (h : Pieces source.toList pieces) (htokens : tokenize source = .ok tokens) :
    tokens.map Token.kind = kindsOf pieces ++ [.eof] := by
  obtain ⟨-, rfl⟩ := tokenize_eq_ok_iff.1 htokens
  rw [scan_eq_reportsOf h, List.map_append, kinds_reportsOf]
  rfl

end

/-! ### Keys in a text -/

/-- The scene behind a piece.  Blanks and comments change nothing; a fault is no key and leads none. -/
def Scene.past (σ : Scene) (piece : Lexeme × List Char) : Scene :=
  match piece.1 with
  | .blank => σ
  | .token kind => σ.after kind
  | .fault _ _ => ⟨σ.frames, false⟩

section

variable {pieces front back : List (Lexeme × List Char)} {text : List Char}

theorem foldl_past (h : Faultless pieces) (σ : Scene) :
    pieces.foldl Scene.past σ = (kindsOf pieces).foldl Scene.after σ := by
  induction pieces generalizing σ with
  | nil => rfl
  | cons piece pieces ih =>
    obtain ⟨lexeme, text⟩ := piece
    obtain ⟨hpiece, hpieces⟩ := List.forall_mem_cons.1 h
    cases lexeme with
    | blank => exact ih hpieces σ
    | token kind => exact ih hpieces (σ.after kind)
    | fault wrong ahead => exact absurd rfl (hpiece wrong ahead)

/-- Only a brace and a comma lead a key. -/
theorem leads_of_keyed {σ : Scene} {kind : TokenKind} (h : (σ.after kind).keyed = true) :
    kind = .mark .leftBrace ∨ kind = .mark .comma := by
  cases kind with
  | mark m =>
    cases m with
    | leftBrace => exact .inl rfl
    | comma => exact .inr rfl
    | _ => cases h
  | keyword word => cases word <;> cases h
  | _ => cases h

/-- In front of a key there is a gap, and in front of the gap the brace or the comma that leads it. -/
theorem exists_leading_mark {σ : Scene} (hσ : σ.keyed = false) (h : (front.foldl Scene.past σ).keyed = true) :
    ∃ before kind mark gap, front = before ++ (.token kind, mark) :: gap ∧
      (kind = .mark .leftBrace ∨ kind = .mark .comma) ∧ ∀ piece ∈ gap, piece.1 = .blank := by
  induction front using List.reverseRecOn with
  | nil =>
    rw [List.foldl_nil, hσ] at h
    cases h
  | append_singleton front piece ih =>
    obtain ⟨lexeme, text⟩ := piece
    rw [List.foldl_append, List.foldl_cons, List.foldl_nil] at h
    cases lexeme with
    | blank =>
      obtain ⟨before, kind, mark, gap, rfl, hkind, hgap⟩ := ih h
      refine ⟨before, kind, mark, gap ++ [(.blank, text)], by simp, hkind, ?_⟩
      exact List.forall_mem_append.2 ⟨hgap, List.forall_mem_singleton.2 rfl⟩
    | token kind => exact ⟨front, kind, text, [], rfl, leads_of_keyed h, List.forall_mem_nil _⟩
    | fault wrong ahead => cases h

/-- The piece of such a mark is the mark. -/
theorem leadsKey_of_piece {kind : TokenKind} (hkind : kind = .mark .leftBrace ∨ kind = .mark .comma)
    {mark : List Char} (h : Pieces text ((.token kind, mark) :: back)) : ∃ c, mark = [c] ∧ leadsKey c = true := by
  cases h with
  | @next c cs behind _ _ hread _ _ =>
    have htake : (c :: (cs ++ behind)).take (cs.length + 1) = c :: cs := by
      rw [List.take_succ_cons, List.take_left]
    rcases hkind with rfl | rfl
    · have htext := text_of_lexemeAt_mark hread
      rw [htake] at htext
      exact ⟨'\x7b', htext, rfl⟩
    · have htext := text_of_lexemeAt_mark hread
      rw [htake] at htext
      exact ⟨',', htext, rfl⟩

/-- **A key can be exchanged** with another piece: all other pieces stay. -/
theorem Pieces.exchange_key {key key' : Lexeme × List Char} {text' : List Char}
    (h : Pieces text (front ++ key :: back)) (hkeyed : (front.foldl Scene.past .start).keyed = true)
    (hhead : ∃ c ∈ key.2.head?, c ≠ '\n') (hkey' : Pieces text' (key' :: back)) :
    Pieces (textOf (front ++ key' :: back)) (front ++ key' :: back) := by
  obtain ⟨before, kind, mark, gap, rfl, hkind, hgap⟩ := exists_leading_mark rfl hkeyed
  rw [List.append_assoc, List.cons_append] at h ⊢
  obtain ⟨c, rfl, hc⟩ := leadsKey_of_piece hkind h.behind
  have hbehind : Pieces (textOf (gap ++ key :: back)) (gap ++ key :: back) := by
    rw [← List.singleton_append, ← List.append_assoc] at h
    exact h.behind
  have hhead' : ∃ c ∈ (textOf (key :: back)).head?, c ≠ '\n' := by
    obtain ⟨c, hc, hne⟩ := hhead
    refine ⟨c, ?_, hne⟩
    rw [textOf, List.flatMap_cons, List.head?_append, Option.mem_def.1 hc]
    rfl
  have hgap' := hbehind.exchange_gap hgap hhead' hkey'
  have hexchanged := h.exchange hc hgap'
  rwa [hexchanged.textOf_eq]

theorem Pieces.single {c : Char} {text : List Char} {kind : TokenKind} (hread : lexemeAt c text = (.token kind, 1))
    (halone : lexemeAt c [] = (.token kind, 1)) (h : Pieces text pieces) :
    Pieces (c :: text) ((.token kind, [c]) :: pieces) :=
  @Pieces.next c [] text _ _ hread (.token halone) h

theorem Pieces.replicate {c : Char} {kind : TokenKind} (hread : ∀ text, lexemeAt c text = (.token kind, 1)) (n : Nat)
    (h : Pieces text pieces) :
    Pieces (List.replicate n c ++ text) (List.replicate n (.token kind, [c]) ++ pieces) := by
  induction n with
  | zero => exact h
  | succ n ih => exact .single (hread _) (hread []) ih

end

/-- **A key that is a reserved word**, somewhere in a text: the pieces in front of it and those behind. -/
structure BareKey (source : String) where
  front : List (Lexeme × List Char)
  word : Keyword
  back : List (Lexeme × List Char)
  pieces : Pieces source.toList (front ++ (.token (.keyword word), word.text.toList) :: back)
  keyed : (front.foldl Scene.past .start).keyed = true

namespace BareKey

variable {source : String} (key : BareKey source)

/-- The same key as a string. -/
def quotedPiece : Lexeme × List Char := (.token (.string key.word.text), '"' :: (key.word.text.toList ++ ['"']))

/-- **The text with the key as a string.** -/
def quoted : String := .ofList (textOf (key.front ++ key.quotedPiece :: key.back))

theorem isBody_text (word : Keyword) : IsBody word.text.toList word.text.toList := by
  have hplain {text : List Char} (h : text.all (fun c => c != '"' && c != '\\') = true) : IsBody text text := by
    induction text with
    | nil => exact .nil
    | cons c text ih =>
      simp only [List.all_cons, Bool.and_eq_true, bne_iff_ne] at h
      exact .plain h.1.1 h.1.2 (ih h.2)
  exact hplain (by cases word <;> rfl)

/-- Quoting a key leaves the other pieces as they are. -/
theorem quoted_pieces : Pieces key.quoted.toList (key.front ++ key.quotedPiece :: key.back) := by
  have hback : Pieces (textOf key.back) key.back := by
    have hpieces := key.pieces
    rw [← List.singleton_append, ← List.append_assoc] at hpieces
    exact hpieces.behind
  have hread : lexemeAt '"' (key.word.text.toList ++ ['"'] ++ textOf key.back) =
      (.token (.string key.word.text), (key.word.text.toList ++ ['"']).length + 1) := by
    rw [lexemeAt_string (isBody_text key.word), String.ofList_toList]
    rfl
  have halone : lexemeAt '"' (key.word.text.toList ++ ['"']) =
      (.token (.string key.word.text), (key.word.text.toList ++ ['"']).length + 1) := by
    have hstring := @lexemeAt_string [] _ _ (isBody_text key.word)
    rw [List.append_nil, String.ofList_toList] at hstring
    exact hstring
  have hhead : ∃ c ∈ key.word.text.toList.head?, c ≠ '\n' := by cases key.word <;> exact ⟨_, rfl, by decide⟩
  unfold quoted
  rw [String.toList_ofList]
  exact key.pieces.exchange_key key.keyed hhead (.next hread (.token halone) hback)

/-- The same pieces are faults, quoted or not. -/
theorem faultless_quoted_iff : Faultless (key.front ++ key.quotedPiece :: key.back) ↔
    Faultless (key.front ++ (.token (.keyword key.word), key.word.text.toList) :: key.back) := by
  have hsplit {kind : TokenKind} {text : List Char} :
      Faultless (key.front ++ (.token kind, text) :: key.back) ↔ Faultless key.front ∧ Faultless key.back := by
    unfold Faultless
    rw [List.forall_mem_append, List.forall_mem_cons]
    exact and_congr_right fun _ => and_iff_right nofun
  exact hsplit.trans hsplit.symm

theorem kindsOf_key (piece : Lexeme × List Char) {kind : TokenKind} (h : piece.1 = .token kind) :
    kindsOf (key.front ++ piece :: key.back) = kindsOf key.front ++ kind :: kindsOf key.back := by
  obtain ⟨lexeme, text⟩ := piece
  obtain rfl : lexeme = .token kind := h
  exact kindsOf_append _ _

/-- A string opens no more levels than any reserved word but `end`. -/
theorem tokenizes_quoted (hword : key.word ≠ .endWord) (h : ∃ tokens, tokenize source = .ok tokens) :
    ∃ tokens, tokenize key.quoted = .ok tokens := by
  rw [tokenizes_iff key.pieces, kindsOf_key _ _ rfl] at h
  rw [tokenizes_iff key.quoted_pieces, kindsOf_key _ _ rfl, faultless_quoted_iff]
  exact ⟨h.1, h.2.exchange (Nesting.after_string_below hword _)⟩

/-- Any reserved word but `if` and `try` opens no more levels than a string. -/
theorem tokenizes_bare (hif : key.word ≠ .ifWord) (htry : key.word ≠ .tryWord)
    (h : ∃ tokens, tokenize key.quoted = .ok tokens) : ∃ tokens, tokenize source = .ok tokens := by
  rw [tokenizes_iff key.quoted_pieces, kindsOf_key _ _ rfl, faultless_quoted_iff] at h
  rw [tokenizes_iff key.pieces, kindsOf_key _ _ rfl]
  exact ⟨h.1, h.2.exchange (Nesting.after_keyword_below hif htry _)⟩

/-- The tokens differ in the key only. -/
theorem keysQuoted {tokens tokens' : List Token} (h : tokenize source = .ok tokens)
    (h' : tokenize key.quoted = .ok tokens') :
    KeysQuoted .start (tokens.map Token.kind) (tokens'.map Token.kind) := by
  have hfaultless := ((tokenizes_iff key.pieces).1 ⟨tokens, h⟩).1
  have hkeyed := key.keyed
  rw [foldl_past (List.forall_mem_append.1 hfaultless).1] at hkeyed
  rw [kinds_of_tokenize key.pieces h, kinds_of_tokenize key.quoted_pieces h', kindsOf_key _ _ rfl,
    kindsOf_key _ _ rfl, List.append_assoc, List.append_assoc]
  exact .of_key hkeyed

end BareKey
end Filter

namespace CompiledFilter

open JsonFilter.Filter (BareKey KeysQuoted Pieces)

/-- The tree of tokens, if all of its names are defined. -/
def treeOf (tokens : List Token) : Option Expr :=
  let body := if tokens.length ≤ 1 then some .identity else (Filter.parse tokens).toOption
  body.filter fun body => (Scope.empty.undefined body).isEmpty

theorem check_eq_treeOf {source : String} {tokens : List Token} (h : tokenize source = .ok tokens) :
    (check source).toOption = treeOf tokens := by
  unfold check treeOf
  rw [h]
  dsimp only [Except.mapError, bind, Except.bind]
  split
  · rw [Option.filter_some]
    dsimp only [pure, Except.pure]
    cases Scope.empty.undefined .identity <;> rfl
  · cases Filter.parse tokens with
    | error e => rfl
    | ok body =>
      dsimp only [Except.toOption]
      rw [Option.filter_some]
      cases Scope.empty.undefined body <;> rfl

/-- **Tokens that differ in quoted keys compile to the same tree**, up to spans, or not at all. -/
theorem treeOf_keysQuoted {tokens tokens' : List Token}
    (h : KeysQuoted .start (tokens.map Token.kind) (tokens'.map Token.kind)) :
    (treeOf tokens').map Expr.eraseSpans = (treeOf tokens).map Expr.eraseSpans := by
  have hlength := h.length_eq
  rw [List.length_map, List.length_map] at hlength
  have hparse := Filter.parse_keysQuoted h
  -- Whether names are undefined can be told without spans.
  have herased (body : Option Expr) :
      (body.filter fun body => (Scope.empty.undefined body).isEmpty).map Expr.eraseSpans =
        (body.map Expr.eraseSpans).filter fun body => (Scope.empty.undefined body).isEmpty := by
    simp only [Option.filter_map, Function.comp_def, Scope.undefined_eraseSpans, List.isEmpty_map]
  unfold treeOf
  dsimp only
  rw [herased, herased, hlength]
  split
  · rfl
  · rw [hparse]

/-- The tree that a filter compiles to, up to spans. -/
def tree (environment : Value) (env : Bool) (source : String) : Option Expr :=
  (compile environment ⟨source, env⟩).toOption.map fun f => f.body.eraseSpans

theorem tree_eq_check (environment : Value) (env : Bool) (source : String) :
    tree environment env source = (check source).toOption.map Expr.eraseSpans := by
  unfold tree compile
  cases check source <;> rfl

/-- What is not tokenized does not compile. -/
theorem exists_tokens_of_tree {environment : Value} {env : Bool} {source : String} {e : Expr}
    (h : tree environment env source = some e) : ∃ tokens, tokenize source = .ok tokens := by
  rw [tree_eq_check] at h
  cases hcheck : check source with
  | error _ =>
    rw [hcheck] at h
    cases h
  | ok body =>
    obtain ⟨tokens, htokens, -⟩ := check_eq_ok hcheck
    exact ⟨tokens, htokens⟩

/-- **A key as a string.**  A reserved word that is a key somewhere in a text is as good as the string of the same
word, but for the levels that the lexer counts.  No reserved word but three makes a difference.  With an `if` or a
`try` a filter compiles to the same tree with the string, but perhaps only with the string; with an `end` perhaps only
with the reserved word.  The two trees are the same whenever the lexer accepts both texts, or neither. -/
theorem compile_quoted {source : String} (key : BareKey source) (environment : Value) (env : Bool) :
    (key.word ∉ [.ifWord, .tryWord, .endWord] → tree environment env key.quoted = tree environment env source) ∧
    (key.word ≠ .endWord → ∀ e, tree environment env source = some e → tree environment env key.quoted = some e) ∧
    (key.word = .endWord → ∀ e, tree environment env key.quoted = some e → tree environment env source = some e) ∧
    ((tokenize key.quoted).toBool = (tokenize source).toBool →
      tree environment env key.quoted = tree environment env source) := by
  have hsame (h : ∃ tokens, tokenize source = .ok tokens) (h' : ∃ tokens, tokenize key.quoted = .ok tokens) :
      tree environment env key.quoted = tree environment env source := by
    obtain ⟨tokens, h⟩ := h
    obtain ⟨tokens', h'⟩ := h'
    rw [tree_eq_check, tree_eq_check, check_eq_treeOf h, check_eq_treeOf h']
    exact treeOf_keysQuoted (key.keysQuoted h h')
  have hquoted (hword : key.word ≠ .endWord) (e : Expr) (h : tree environment env source = some e) :
      tree environment env key.quoted = some e := by
    have htokens := exists_tokens_of_tree h
    rwa [hsame htokens (key.tokenizes_quoted hword htokens)]
  have hbare (hif : key.word ≠ .ifWord) (htry : key.word ≠ .tryWord) (e : Expr)
      (h : tree environment env key.quoted = some e) : tree environment env source = some e := by
    have htokens := exists_tokens_of_tree h
    rwa [← hsame (key.tokenizes_bare hif htry htokens) htokens]
  refine ⟨fun hword => ?_, hquoted, fun hend => hbare (by rw [hend]; nofun) (by rw [hend]; nofun), fun hlexed => ?_⟩
  · simp only [List.mem_cons, List.not_mem_nil, or_false, not_or] at hword
    exact Option.ext fun e => ⟨hbare hword.1 hword.2.1 e, hquoted hword.2.2 e⟩
  · cases h : tokenize source with
    | ok tokens =>
      rw [h] at hlexed
      exact hsame ⟨tokens, h⟩ (exists_ok hlexed)
    | error errors =>
      rw [h] at hlexed
      have hnone {text : String} (h : (tokenize text).toBool = false) : tree environment env text = none := by
        refine Option.eq_none_iff_forall_ne_some.2 fun e he => ?_
        obtain ⟨tokens, htokens⟩ := exists_tokens_of_tree he
        rw [htokens] at h
        cases h
      rw [hnone hlexed, hnone (by rw [h]; rfl)]

/-- The second key of an object behind a comma in an array; a blank and a comment stand in front of it. -/
def keyInArray : BareKey "[.,\x7ba:.,#,\nas:.\x7d]" where
  front := [(.token (.mark .leftBracket), ['[']), (.token (.mark .dot), ['.']), (.token (.mark .comma), [',']),
    (.token (.mark .leftBrace), ['\x7b']), (.token (.identifier "a"), ['a']), (.token (.mark .colon), [':']),
    (.token (.mark .dot), ['.']), (.token (.mark .comma), [',']), (.blank, ['#', ',']), (.blank, ['\n'])]
  word := .asWord
  back := [(.token (.mark .colon), [':']), (.token (.mark .dot), ['.']), (.token (.mark .rightBrace), ['\x7d']),
    (.token (.mark .rightBracket), [']'])]
  pieces := by
    have htext : "[.,\x7ba:.,#,\nas:.\x7d]".toList = ['[', '.', ',', '\x7b', 'a', ':', '.', ',', '#', ',', '\n',
      'a', 's', ':', '.', '\x7d', ']'] := by decide +kernel
    rw [htext]
    refine .single rfl rfl (.single rfl rfl (.single rfl rfl (.single rfl rfl (.single rfl rfl (.single rfl rfl
      (.single rfl rfl (.single rfl rfl ?_)))))))
    refine @Pieces.next '#' [','] _ _ _ rfl (.comment (by decide) (by simp)) ?_
    refine @Pieces.next '\n' [] _ _ _ rfl (.blank rfl) ?_
    refine @Pieces.next 'a' ['s'] _ _ _ rfl (.token rfl) ?_
    exact .single rfl rfl (.single rfl rfl (.single rfl rfl (.single rfl rfl .done)))
  keyed := rfl

theorem compile_quoted_in_array : (compile (.object []) ⟨"[.,\x7ba:.,#,\nas:.\x7d]", false⟩).toBool = true ∧
    tree (.object []) false keyInArray.quoted = tree (.object []) false "[.,\x7ba:.,#,\nas:.\x7d]" :=
  ⟨by decide +kernel, (compile_quoted keyInArray (.object []) false).1 (by decide)⟩

/-- Arrays around an object whose key is a `try`. -/
def arraysAround (n : Nat) : String :=
  .ofList (List.replicate n '[' ++ '\x7b' :: 't' :: 'r' :: 'y' :: '\x7d' :: List.replicate n ']')

/-- The key in such arrays. -/
def keyInArrays (n : Nat) : BareKey (arraysAround n) where
  front := List.replicate n (.token (.mark .leftBracket), ['[']) ++ [(.token (.mark .leftBrace), ['\x7b'])]
  word := .tryWord
  back := (.token (.mark .rightBrace), ['\x7d']) :: List.replicate n (.token (.mark .rightBracket), [']'])
  pieces := by
    have hclosing := Pieces.replicate (c := ']') (fun _ => rfl) n .done
    have hword := @Pieces.next 't' ['r', 'y'] _ (.token (.keyword .tryWord)) _ rfl (.token rfl)
      (.single (c := '\x7d') rfl rfl hclosing)
    have hopening := Pieces.replicate (c := '[') (fun _ => rfl) n (.single (c := '\x7b') rfl rfl hword)
    have htext : Keyword.tryWord.text.toList = ['t', 'r', 'y'] := rfl
    unfold arraysAround
    rw [String.toList_ofList, htext, List.append_assoc]
    simpa using hopening
  keyed := by
    rw [List.foldl_append]
    rfl

/-- As many arrays as the cap leaves room for, so that nothing nests deeper than it allows.  With the string the
filter compiles; the reserved word counts as one more level. -/
theorem key_refused_at_cap : (keyInArrays 63).word = .tryWord ∧
    (compile (.object []) ⟨arraysAround 63, false⟩).toBool = false ∧
    (compile (.object []) ⟨(keyInArrays 63).quoted, false⟩).toBool = true :=
  ⟨rfl, by decide +kernel, by decide +kernel⟩

end CompiledFilter
end JsonFilter
