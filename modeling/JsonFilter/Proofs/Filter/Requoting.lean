import JsonFilter.Compile
import JsonFilter.Filter.QuoteStyle
import JsonFilter.Proofs.Filter.Scanning
import JsonFilter.Proofs.Filter.StringBodies
import JsonFilter.Proofs.Text.Bytes
import Mathlib.Data.List.Forall2

/-!
# Filters that keep their strings

`doubleQuoted` goes by the characters next to a single quote.  It knows nothing of strings and comments,
so that it converts a quote inside of a string just as well as one that should open a string.  This file
says when that makes a difference to a filter that compiles as it is.

## What the lexer sees

A text and its converted form differ in single quotes only (`Requoted`).  No token but a string contains
one, and none begins with one; comments may contain anything.  So all lexemes but strings are the same in
both texts, each reader for a reason of its own (`lexemeAt_requoted`).  The reader of a string stops behind
the closing quote and looks at nothing beyond (`stringLexeme_of_take_eq`).

* **`scan_requoted`** — the same tokens at the same places, if the strings are kept.
* **`compile_doubleQuoted`** — then the filter compiles to the same tree.
-/

namespace JsonFilter

namespace Filter

/-! ### Converted characters -/

/-- A character and what it may be converted to: a single quote may become a double one. -/
def Requoted (c d : Char) : Prop := d = c ∨ c = singleQuote ∧ d = '"'

namespace Requoted

variable {c d : Char}

theorem eq_of_ne (h : Requoted c d) (hc : c ≠ singleQuote) : d = c :=
  h.resolve_right fun hquote => hc hquote.1

/-- No character but a quote comes from another one. -/
theorem ne {e : Char} (h : Requoted c d) (he : '"' ≠ e) (hc : c ≠ e) : d ≠ e := by
  rcases h with rfl | ⟨-, rfl⟩
  · exact hc
  · exact he

/-- What does not tell the quotes apart does not see the conversion. -/
theorem apply_eq {α : Type} {f : Char → α} (hf : f singleQuote = f '"') (h : Requoted c d) :
    f d = f c := by
  rcases h with rfl | ⟨rfl, rfl⟩
  · rfl
  · exact hf.symm

theorem utf8Size_eq (h : Requoted c d) : d.utf8Size = c.utf8Size := h.apply_eq (by decide)

end Requoted

/-- **The rule converts single quotes only.** -/
theorem convertQuotes_requoted (before : Option Char) (cs : List Char) :
    List.Forall₂ Requoted cs (convertQuotes before cs) := by
  have hopens : ∀ {c : Char} {cs : List Char}, opensString (c :: cs) = true → c = singleQuote := by
    intro c cs h
    cases cs with
    | nil => exact of_decide_eq_true h
    | cons next rest => exact of_decide_eq_true (Bool.and_eq_true_iff.1 h).1
  fun_induction convertQuotes before cs with
  | case1 => exact .nil
  | case2 before c hc =>
    have hquote : c = singleQuote := of_decide_eq_true (Bool.and_eq_true_iff.1 hc).1
    exact .cons (.inr ⟨hquote, rfl⟩) .nil
  | case3 => exact .cons (.inl rfl) .nil
  | case4 before c next rest hc ih =>
    exact .cons (.inr ⟨hopens (Bool.and_eq_true_iff.1 hc).2, rfl⟩) ih
  | case5 before c next rest _ hc ih =>
    exact .cons (.inl rfl) (.cons (.inr ⟨hopens (Bool.and_eq_true_iff.1 hc).2, rfl⟩) ih)
  | case6 before c next rest _ _ hc ih =>
    have hquote : c = singleQuote :=
      of_decide_eq_true (Bool.and_eq_true_iff.1 (Bool.and_eq_true_iff.1 hc).1).1
    exact .cons (.inr ⟨hquote, rfl⟩) (.cons (.inl rfl) ih)
  | case7 before c next rest _ _ _ ih => exact .cons (.inl rfl) ih

/-! ### Readers that see no quotes -/

section Readers

variable {xs ys : List Char}

theorem byteLength_requoted (h : List.Forall₂ Requoted xs ys) :
    Text.byteLength ys = Text.byteLength xs := by
  induction h with
  | nil => rfl
  | cons hcd h ih => rw [Text.byteLength_cons, Text.byteLength_cons, ih, hcd.utf8Size_eq]

/-- A stretch that no quote belongs to is the same in both texts. -/
theorem takeWhile_requoted {p : Char → Bool} (hsingle : p singleQuote = false)
    (hdouble : p '"' = false) (h : List.Forall₂ Requoted xs ys) : ys.takeWhile p = xs.takeWhile p := by
  induction h with
  | nil => rfl
  | cons hcd h ih =>
    rw [List.takeWhile_cons, List.takeWhile_cons, hcd.apply_eq (hsingle.trans hdouble.symm), ih]
    rcases hcd with rfl | ⟨rfl, rfl⟩
    · rfl
    · rw [if_neg (by rw [hsingle]; nofun), if_neg (by rw [hsingle]; nofun)]

/-- A stretch that both quotes belong to is as long in both texts. -/
theorem length_takeWhile_requoted {p : Char → Bool} (hp : p singleQuote = p '"')
    (h : List.Forall₂ Requoted xs ys) : (ys.takeWhile p).length = (xs.takeWhile p).length := by
  induction h with
  | nil => rfl
  | @cons c d xs ys hcd h ih =>
    rw [List.takeWhile_cons, List.takeWhile_cons, hcd.apply_eq hp]
    cases p c with
    | false => rfl
    | true => exact congrArg (· + 1) ih

theorem leadingDigits_requoted (h : List.Forall₂ Requoted xs ys) :
    leadingDigits ys = leadingDigits xs := takeWhile_requoted (by decide) (by decide) h

theorem leadingName_requoted (h : List.Forall₂ Requoted xs ys) : leadingName ys = leadingName xs := by
  cases h with
  | nil => rfl
  | cons hcd h =>
    unfold leadingName
    dsimp only
    rw [hcd.apply_eq (f := isNameStart) (by decide), takeWhile_requoted (by decide) (by decide) h]
    rcases hcd with rfl | ⟨rfl, rfl⟩ <;> rfl

theorem fractionPart_requoted (h : List.Forall₂ Requoted xs ys) :
    fractionPart ys = fractionPart xs := by
  cases h with
  | nil => rfl
  | @cons c d xs ys hcd h =>
    by_cases hc : c = '.'
    · subst hc
      rw [hcd.eq_of_ne (by decide)]
      show (if (leadingDigits ys).isEmpty then [] else '.' :: leadingDigits ys) = _
      rw [leadingDigits_requoted h]
      rfl
    · have hd : d ≠ '.' := hcd.ne (by decide) hc
      simp [fractionPart, hc, hd]

theorem exponentMark_requoted (h : List.Forall₂ Requoted xs ys) :
    exponentMark ys = exponentMark xs := by
  cases h with
  | nil => rfl
  | @cons e d xs ys hed h =>
    rcases hed with rfl | ⟨rfl, rfl⟩
    · cases h with
      | nil => rfl
      | @cons sign d xs ys hsign h =>
        rcases hsign with rfl | ⟨rfl, rfl⟩ <;> rfl
    · rfl

theorem numberLexeme_requoted (h : List.Forall₂ Requoted xs ys) :
    numberLexeme ys = numberLexeme xs := by
  unfold numberLexeme
  dsimp only
  rw [leadingDigits_requoted h, fractionPart_requoted (List.forall₂_drop _ h)]
  generalize leadingDigits xs ++ fractionPart (xs.drop (leadingDigits xs).length) = mantissa
  rw [exponentMark_requoted (List.forall₂_drop _ h)]
  generalize exponentMark (xs.drop mantissa.length) = mark
  rw [leadingDigits_requoted (List.forall₂_drop _ h)]
  generalize (if mark.isEmpty then [] else leadingDigits (xs.drop (mantissa ++ mark).length)) = digits
  -- what follows the number tells a number from a malformed one
  have hrest := List.forall₂_drop (mantissa ++ mark ++ digits).length h
  revert hrest
  generalize ys.drop (mantissa ++ mark ++ digits).length = rest'
  generalize xs.drop (mantissa ++ mark ++ digits).length = rest
  intro hrest
  cases hrest with
  | nil => rfl
  | cons hcd hmore =>
    dsimp only
    rw [takeWhile_requoted (by decide) (by decide) (.cons hcd hmore),
      hcd.apply_eq (f := isNameStart) (by decide)]

theorem dotLexeme_requoted (h : List.Forall₂ Requoted xs ys) : dotLexeme ys = dotLexeme xs := by
  cases h with
  | nil => rfl
  | @cons c d xs ys hcd h =>
    have hname := leadingName_requoted (.cons hcd h)
    by_cases hc : c = '.'
    · subst hc
      rw [hcd.eq_of_ne (by decide)]
      rfl
    · have hd : d ≠ '.' := hcd.ne (by decide) hc
      simp [dotLexeme, hc, hd, hname]

theorem pairLexeme_requoted {second : Char} (hsingle : second ≠ singleQuote) (hdouble : second ≠ '"')
    (joined alone : Mark) (h : List.Forall₂ Requoted xs ys) :
    pairLexeme second joined alone ys = pairLexeme second joined alone xs := by
  cases h with
  | nil => rfl
  | cons hcd h =>
    rcases hcd with rfl | ⟨rfl, rfl⟩
    · rfl
    · simp [pairLexeme, hsingle.symm, hdouble.symm]

theorem head_requoted {second : Char} (hsingle : second ≠ singleQuote) (hdouble : second ≠ '"')
    (h : List.Forall₂ Requoted xs ys) : (ys.head? == some second) = (xs.head? == some second) := by
  cases h with
  | nil => rfl
  | cons hcd h =>
    rcases hcd with rfl | ⟨rfl, rfl⟩
    · rfl
    · simp [hsingle.symm, hdouble.symm]

/-- **A lexeme that is no string** is the same in both texts. -/
theorem lexemeAt_requoted {c : Char} (hstring : c = '"' → stringLexeme ys = stringLexeme xs)
    (h : List.Forall₂ Requoted xs ys) : lexemeAt c ys = lexemeAt c xs := by
  have hself : List.Forall₂ Requoted (c :: xs) (c :: ys) := .cons (.inl rfl) h
  have hcomment : (ys.takeWhile (· != '\n')).length = (xs.takeWhile (· != '\n')).length :=
    length_takeWhile_requoted (by decide) h
  unfold lexemeAt
  rw [hcomment, dotLexeme_requoted h, pairLexeme_requoted (by decide) (by decide) _ _ h,
    pairLexeme_requoted (by decide) (by decide) _ _ h, pairLexeme_requoted (by decide) (by decide) _ _ h,
    head_requoted (by decide) (by decide) h, numberLexeme_requoted hself, leadingName_requoted hself]
  unfold dollarLexeme
  rw [leadingName_requoted h]
  by_cases hc : c = '"'
  · rw [hstring hc]
  · rw [if_neg hc, if_neg hc]

end Readers

/-! ### The scan -/

/-- Whether a token is a string. -/
def TokenKind.isString : TokenKind → Bool
  | .string _ => true
  | _ => false

section Scan

variable {xs ys : List Char}

/-- A lexeme that is no fault is the same in both texts, if it is no string or a string that is kept. -/
theorem lexemeAt_of_kept {c : Char} (h : List.Forall₂ Requoted xs ys)
    (hnofault : ∀ wrong ahead, (lexemeAt c xs).1 ≠ .fault wrong ahead)
    (hkept : ∀ kind, (lexemeAt c xs).1 = .token kind → kind.isString = true →
      (c :: ys).take (lexemeAt c xs).2 = (c :: xs).take (lexemeAt c xs).2) :
    lexemeAt c ys = lexemeAt c xs := by
  refine lexemeAt_requoted (fun hquote => ?_) h
  subst hquote
  have hread : lexemeAt '"' xs = stringLexeme xs := rfl
  rw [hread] at hkept hnofault
  unfold stringLexeme at hkept hnofault
  cases hbody : stringBody xs 0 with
  | unclosed =>
    rw [hbody] at hnofault
    exact absurd rfl (hnofault _ _)
  | badEscape before rest =>
    rw [hbody] at hnofault
    exact absurd rfl (hnofault _ _)
  | closed value n =>
    rw [hbody] at hkept
    exact stringLexeme_of_take_eq hbody (List.cons.inj (hkept _ rfl rfl)).2

/-- **The conversion of quotes is not seen** by a scan without faults, if the strings are kept. -/
theorem scan_requoted (h : List.Forall₂ Requoted xs ys) {skip offset : Nat} {nesting : Nesting}
    (hclean : ∀ finding, .inl finding ∉ scan xs skip offset nesting)
    (hkeeps : ∀ token, .inr token ∈ scan xs skip offset nesting → token.kind.isString = true →
      Text.sliceBytes (token.span.start - offset) (token.span.stop - offset) ys =
        Text.sliceBytes (token.span.start - offset) (token.span.stop - offset) xs) :
    scan ys skip offset nesting = scan xs skip offset nesting := by
  induction h generalizing skip offset nesting with
  | nil => rfl
  | @cons c d xs ys hcd h ih =>
    have hwidth := hcd.utf8Size_eq
    -- a scan of the rest finds what the whole scan finds, and no token of it begins at the head
    have hrest : ∀ {next : Nat} {nesting' : Nesting},
        (∀ found ∈ scan xs next (offset + c.utf8Size) nesting',
          found ∈ scan (c :: xs) skip offset nesting) →
        scan ys next (offset + c.utf8Size) nesting' = scan xs next (offset + c.utf8Size) nesting' := by
      intro next nesting' hsub
      refine ih (fun finding hmem => hclean finding (hsub _ hmem)) fun token hmem hstring => ?_
      have hstart := le_start_of_mem_scan hmem
      have hkept := hkeeps token (hsub _ hmem) hstring
      have hahead : c.utf8Size ≤ token.span.start - offset := by omega
      rw [Text.sliceBytes_cons _ hahead, Text.sliceBytes_cons _ (hwidth ▸ hahead), hwidth,
        Nat.sub_sub, Nat.sub_sub] at hkept
      exact hkept
    cases skip with
    | succ skip =>
      show scan ys skip (offset + d.utf8Size) nesting = scan xs skip (offset + c.utf8Size) nesting
      rw [hwidth]
      exact hrest fun found hmem => hmem
    | zero =>
      have hmem : ∀ found ∈ ((lexemeAt c xs).1.reports nesting offset
          (offset + Text.byteLength ((c :: xs).take (lexemeAt c xs).2))
          fun ahead => offset + Text.byteLength ((c :: xs).take ahead)).1,
          found ∈ scan (c :: xs) 0 offset nesting := by
        intro found hfound
        rw [scan_cons]
        exact List.mem_append_left _ hfound
      have hnofault : ∀ wrong ahead, (lexemeAt c xs).1 ≠ .fault wrong ahead := by
        intro wrong ahead heq
        rw [heq] at hmem
        exact hclean _ (hmem _ (List.mem_singleton.2 rfl))
      have hc : c ≠ singleQuote := by
        rintro rfl
        exact hnofault _ _ rfl
      have hd : d = c := hcd.eq_of_ne hc
      subst hd
      have hlengths : ∀ n, Text.byteLength ((d :: ys).take n) = Text.byteLength ((d :: xs).take n) :=
        fun n => byteLength_requoted (List.forall₂_take n (.cons hcd h))
      have hlexeme : lexemeAt d ys = lexemeAt d xs := by
        refine lexemeAt_of_kept h hnofault fun kind htoken hstring => ?_
        rw [htoken] at hmem
        have hkept := hkeeps _ (hmem _ (Lexeme.mem_reports _ _ _ _ _)) hstring
        dsimp only at hkept
        rw [Nat.sub_self, Nat.add_sub_cancel_left, Text.sliceBytes_byteLength_take, ← hlengths,
          Text.sliceBytes_byteLength_take] at hkept
        exact hkept
      rw [scan_cons, scan_cons, hlexeme]
      simp only [hlengths]
      refine congrArg (_ ++ ·) (hrest fun found hfound => ?_)
      rw [scan_cons]
      exact List.mem_append_right _ hfound

end Scan

/-- **The strings are kept**: the rule converts no quote inside of the strings among the tokens of a
filter. -/
def KeepsStrings (filter : String) (tokens : List Token) : Prop :=
  ∀ token ∈ tokens, token.kind.isString = true →
    Text.sliceBytes token.span.start token.span.stop (doubleQuoted filter).toList =
      Text.sliceBytes token.span.start token.span.stop filter.toList

instance (filter : String) (tokens : List Token) : Decidable (KeepsStrings filter tokens) :=
  inferInstanceAs (Decidable (∀ token ∈ tokens, token.kind.isString = true →
    Text.sliceBytes token.span.start token.span.stop (doubleQuoted filter).toList =
      Text.sliceBytes token.span.start token.span.stop filter.toList))

variable {filter : String} {tokens : List Token}

/-- **The tokens stay the same**, each at its place. -/
theorem tokenize_doubleQuoted (h : tokenize filter = .ok tokens) (hkeeps : KeepsStrings filter tokens) :
    tokenize (doubleQuoted filter) = .ok tokens := by
  have hrequoted : List.Forall₂ Requoted filter.toList (doubleQuoted filter).toList := by
    unfold doubleQuoted
    rw [String.toList_ofList]
    exact convertQuotes_requoted none filter.toList
  obtain ⟨hclean, rfl⟩ := tokenize_eq_ok_iff.1 h
  have hscan : scan (doubleQuoted filter).toList 0 0 .start = scan filter.toList 0 0 .start := by
    refine scan_requoted hrequoted hclean fun token htoken hstring => hkeeps token ?_ hstring
    exact List.mem_append_left _ (List.mem_filterMap.2 ⟨_, htoken, rfl⟩)
  rw [tokenize_eq_ok_iff, hscan, byteLength_requoted hrequoted]
  exact ⟨hclean, rfl⟩

end Filter

namespace CompiledFilter

open JsonFilter.Filter (tokenize doubleQuoted KeepsStrings)

/-- A filter is checked by its tokens. -/
theorem check_of_tokenize_eq {source source' : String} {tokens : List Filter.Token} {body : Filter.Expr}
    (htokens : tokenize source = .ok tokens) (htokens' : tokenize source' = .ok tokens)
    (h : check source = .ok body) : check source' = .ok body := by
  unfold check at h ⊢
  rw [htokens] at h
  rw [htokens']
  dsimp only [Except.mapError, bind, Except.bind] at h ⊢
  split
  · rename_i hshort
    rw [if_pos hshort] at h
    exact h
  · rename_i hlong
    rw [if_neg hlong] at h
    cases hparse : Filter.parse tokens with
    | error e =>
      rw [hparse] at h
      cases h
    | ok e =>
      rw [hparse] at h
      dsimp only at h ⊢
      split at h
      · exact h
      · cases h

/-- **A filter that keeps its strings compiles to the same tree** with its quotes converted. -/
theorem compile_doubleQuoted {environment : Json.Value} {key : FilterKey} {f : CompiledFilter}
    (h : compile environment key = .ok f)
    (hkeeps : ∀ tokens, tokenize key.source = .ok tokens → KeepsStrings key.source tokens) :
    compile environment { key with source := doubleQuoted key.source } =
      .ok { f with source := doubleQuoted key.source } := by
  cases htokens : tokenize key.source with
  | error errors =>
    unfold compile check at h
    rw [htokens] at h
    cases h
  | ok tokens =>
    have hquoted := Filter.tokenize_doubleQuoted htokens (hkeeps tokens htokens)
    unfold compile at h ⊢
    cases hcheck : check key.source with
    | error e =>
      rw [hcheck] at h
      cases h
    | ok body =>
      rw [hcheck] at h
      cases h
      dsimp only
      rw [check_of_tokenize_eq htokens hquoted hcheck]
      rfl

end CompiledFilter
end JsonFilter
