import JsonFilter.Proofs.Filter.Coverage
import JsonFilter.Proofs.Json.Literals

/-!
# String literals and JSON strings

A filter that is a body between quotes is a string literal if the body is one of JSON, and the literal then
stands for what JSON reads.  The lexer takes some more bodies: those with a sign among the digits of a code
unit.  They stand for what JSON reads with a zero in place of the sign.

A filter may hold nothing but one string token and still be more than this token: what follows the closing
quote may be a comment, and this comment may end with the last quote.

* `readStringFrom_isBody` — JSON reads every body.
* **`stringLiteral_iff`** — the bodies of string literals.
* `stringLiteral_signed` — a body that JSON refuses.
-/

namespace JsonFilter

open JsonFilter.Filter (IsBody Escapes)

namespace Json

variable {rest : List Char}

/-! ### JSON strings -/

theorem takes_escapes {c : Char} {escape : List Char} (h : Escapes c escape) :
    Takes readEscape escape c rest := by
  cases h with
  | short hmem =>
    simp only [Filter.shortEscapes, List.mem_cons, List.not_mem_nil, or_false, Prod.mk.injEq] at hmem
    rcases hmem with ⟨rfl, rfl⟩ | ⟨rfl, rfl⟩ | ⟨rfl, rfl⟩ | ⟨rfl, rfl⟩ | ⟨rfl, rfl⟩ | ⟨rfl, rfl⟩ |
      ⟨rfl, rfl⟩ | ⟨rfl, rfl⟩ <;> exact fun place => ⟨_, rfl⟩
  | unit hunit => exact takes_unit hunit.1 hunit.2
  | pair hhigh hlow hhigh₁ hhigh₂ hlow₁ hlow₂ hcode =>
    exact takes_pair hhigh.1 hhigh.2 hlow.1 hlow.2 ⟨hhigh₁, hhigh₂⟩ ⟨hlow₁, hlow₂⟩ hcode

/-- JSON reads every body without raw control characters, up to the quote that ends it. -/
theorem readStringFrom_isBody {text body : List Char} (h : IsBody text body)
    (hcontrols : ∀ c ∈ body, 32 ≤ c.toNat) (rest : List Char) (place : Place) (decoded : List Char) :
    ∃ place', readStringFrom (body ++ '"' :: rest) 0 place decoded =
      .ok (.ofList (decoded.reverse ++ text), ⟨rest, place'⟩) := by
  induction h generalizing place decoded with
  | nil => exact ⟨place.advance '"', by rw [List.append_nil]; rfl⟩
  | @plain c text body hquote hslash _ ih =>
    obtain ⟨hc, hbody⟩ := List.forall_mem_cons.1 hcontrols
    obtain ⟨place', hread⟩ := ih hbody (place.advance c) (c :: decoded)
    refine ⟨place', ?_⟩
    rw [List.cons_append, readStringFrom, if_neg hquote, if_neg hslash, if_neg (Nat.not_lt.2 hc), hread,
      List.reverse_cons, List.append_assoc]
    rfl
  | @escaped c escape text body hescape _ ih =>
    have hbody : ∀ d ∈ body, 32 ≤ d.toNat := fun d hd =>
      hcontrols d (List.mem_cons_of_mem _ (List.mem_append_right _ hd))
    have htakes : Takes readEscape escape c (body ++ '"' :: rest) := takes_escapes hescape
    obtain ⟨between, hchar⟩ := readStringFrom_escape htakes place decoded
    obtain ⟨place', hread⟩ := ih hbody between (c :: decoded)
    refine ⟨place', ?_⟩
    rw [← List.cons_append, List.append_assoc, hchar, hread, List.reverse_cons, List.append_assoc]
    rfl

/-- A body without raw control characters, between quotes, is the JSON text of a string. -/
theorem ofText_isBody {value : String} {body : List Char} (h : IsBody value.toList body)
    (hcontrols : ∀ c ∈ body, 32 ≤ c.toNat) :
    Value.ofText (.ofList ('"' :: (body ++ ['"']))) = .ok (.string value) := by
  obtain ⟨place', hread⟩ := readStringFrom_isBody h hcontrols [] (Place.start.advance '"') []
  rw [List.reverse_nil, List.nil_append, String.ofList_toList] at hread
  have hvalue : readValue maxDepth ⟨'"' :: (body ++ ['"']), .start⟩ = .ok (.string value, ⟨[], place'⟩) := by
    refine Eq.trans ?_ (congrArg (Except.map fun p => (Value.string p.1, p.2)) hread)
    rw [readValue.eq_def]
    rfl
  rw [Value.ofText, Input.ofText, String.toList_ofList, hvalue]
  rfl

end Json

namespace Filter

open Text (byteLength byteLength_append)

/-! ### Literals -/

/-- A body between quotes. -/
def quotedBody (body : List Char) : List Char := '"' :: (body ++ ['"'])

/-- A body between quotes is a single string literal, from one quote to the other. -/
def IsLiteral (body : List Char) (value : String) : Prop :=
  tokenize (.ofList (quotedBody body)) =
    .ok [⟨.string value, ⟨0, byteLength (quotedBody body)⟩⟩, endOf (quotedBody body)]

/-- A body between quotes has one string as its only token. -/
def HasOneString (body : List Char) (value : String) : Prop :=
  (tokenize (.ofList (quotedBody body))).map (fun tokens => tokens.map Token.kind) = .ok [.string value, .eof]

theorem lexemeAt_quote_iff {cs : List Char} {value : String} :
    lexemeAt '"' cs = (.token (.string value), cs.length + 1) ↔
      ∃ literal, cs = literal ++ ['"'] ∧ IsBody value.toList (unsigned literal) := by
  have hread : lexemeAt '"' cs = stringLexeme cs := rfl
  constructor
  · intro h
    rw [hread] at h
    unfold stringLexeme at h
    cases hbody : stringBody cs 0 with
    | unclosed =>
      rw [hbody] at h
      cases h
    | badEscape before after =>
      rw [hbody] at h
      cases h
    | closed text n =>
      rw [hbody] at h
      obtain ⟨hkind, hlength⟩ := Prod.mk.inj h
      cases hkind
      obtain ⟨literal, rest, rfl, rfl, hliteral⟩ := stringBody_eq_closed_iff.1 hbody
      have hrest : rest = [] := by
        rw [List.length_append, List.length_cons] at hlength
        exact List.length_eq_zero_iff.1 (by omega)
      rw [String.toList_ofList, hrest]
      exact ⟨literal, rfl, hliteral⟩
  · rintro ⟨literal, rfl, hliteral⟩
    rw [hread, stringLexeme, stringBody_of_unsigned hliteral []]
    simp

/-- A filter that begins with a quote and has one token holds a string and a gap behind it. -/
theorem tiled_quote {cs : List Char} {token : Token} (h : Tiled 0 ('"' :: cs) [token]) :
    ∃ literal behind, cs = literal ++ behind ∧ lexemeAt '"' literal = (.token token.kind, literal.length + 1) ∧
      IsGap (behind ++ ['\n']) ∧ token.span = ⟨0, byteLength ('"' :: literal)⟩ := by
  generalize hsource : '"' :: cs = source at h
  generalize htokens : [token] = tokens at h
  cases h with
  | last => cases htokens
  | @token _ gap literal behind c kind tokens hgap hread hrest =>
    obtain ⟨rfl, rfl⟩ := List.cons.inj htokens
    have hnogap : gap = [] := by
      cases hgap with
      | nil => rfl
      | blank hblank =>
        obtain ⟨rfl, -⟩ := List.cons.inj hsource
        cases hblank
      | comment => cases hsource
    subst hnogap
    obtain ⟨rfl, rfl⟩ := List.cons.inj hsource
    cases hrest with
    | last hbehind => exact ⟨literal, behind, rfl, hread, hbehind, by simp [byteLength]⟩

/-- A body between quotes is a literal if it is a body, but for the signs. -/
theorem isLiteral_iff {body : List Char} {value : String} :
    IsLiteral body value ↔ IsBody value.toList (unsigned body) := by
  constructor
  · intro h
    obtain ⟨found, heq, htiled⟩ := tiled_of_tokenize h
    rw [String.toList_ofList] at heq htiled
    have hfound : [⟨.string value, ⟨0, byteLength (quotedBody body)⟩⟩] = found :=
      List.append_cancel_right (show [_] ++ _ = _ from heq)
    subst hfound
    obtain ⟨cs, behind, hcs, hread, -, hspan⟩ := tiled_quote htiled
    have hbehind : behind = [] := by
      by_contra hne
      have hpos := byteLength_pos hne
      have hlength : byteLength (quotedBody body) = byteLength ('"' :: cs) := congrArg Span.stop hspan
      rw [quotedBody, hcs, ← List.cons_append, byteLength_append] at hlength
      omega
    rw [hbehind, List.append_nil] at hcs
    obtain ⟨literal, rfl, hliteral⟩ := lexemeAt_quote_iff.1 hread
    rwa [List.append_cancel_right hcs]
  · intro h
    exact tokenize_alone (lexemeAt_quote_iff.2 ⟨body, rfl, h⟩)

/-- The gap behind the last token is read to the end of the text. -/
theorem scan_lastGap {gap : List Char} (h : IsGap (gap ++ ['\n'])) (offset : Nat) (nesting : Nesting) :
    scan gap 0 offset nesting = [] := by
  generalize htext : gap ++ ['\n'] = text at h
  induction h generalizing gap offset with
  | nil => cases (List.append_eq_nil_iff.1 htext).2
  | @blank c rest hblank _ ih =>
    cases gap with
    | nil => rfl
    | cons d gap =>
      obtain ⟨rfl, hrest⟩ := List.cons.inj htext
      have hone : IsGap [d] := .blank hblank .nil
      rw [← List.singleton_append, scan_gap hone]
      exact ih _ hrest
  | @comment line rest hline _ ih =>
    cases gap with
    | nil => cases htext
    | cons d gap =>
      obtain ⟨rfl, hgap⟩ := List.cons.inj htext
      rcases List.eq_nil_or_concat rest with rfl | ⟨rest, last, rfl⟩
      · -- the comment goes on to the end
        obtain rfl := List.append_cancel_right hgap
        have hwhole : gap.takeWhile (· != '\n') = gap :=
          List.takeWhile_eq_self_iff.2 fun c hc => bne_iff_ne.2 fun heq => hline (heq ▸ hc)
        have hread : lexemeAt '#' gap = (.blank, 1 + gap.length) := by
          show (Lexeme.blank, 1 + (gap.takeWhile (· != '\n')).length) = _
          rw [hwhole]
        have hskip := scan_skip gap [] (offset + '#'.utf8Size) nesting
        rw [List.append_nil] at hskip
        rw [scan_cons, hread]
        show scan gap (1 + gap.length - 1) (offset + '#'.utf8Size) nesting = []
        rw [Nat.add_sub_cancel_left, hskip]
        rfl
      · have hparts : gap ++ ['\n'] = (line ++ '\n' :: rest) ++ [last] :=
          (show gap ++ ['\n'] = line ++ '\n' :: rest.concat last from hgap).trans (by simp)
        obtain ⟨rfl, hlast⟩ := List.append_inj' hparts rfl
        obtain rfl := List.singleton_inj.1 hlast
        have hclosed : IsGap ('#' :: (line ++ ['\n'])) := .comment hline .nil
        rw [List.append_cons, ← List.cons_append, scan_gap hclosed]
        exact ih _ List.concat_eq_append.symm

/-- A literal is read alone if nothing but a gap comes behind it. -/
theorem tokenize_literal {literal behind : List Char} {value : String}
    (hliteral : IsBody value.toList (unsigned literal)) (hbehind : IsGap (behind ++ ['\n'])) :
    ∃ span, tokenize (.ofList ('"' :: (literal ++ '"' :: behind))) =
      .ok [⟨.string value, span⟩, endOf ('"' :: (literal ++ '"' :: behind))] := by
  have hlexeme : lexemeAt '"' (literal ++ '"' :: behind) = (.token (.string value), (literal ++ ['"']).length + 1) := by
    show stringLexeme (literal ++ '"' :: behind) = _
    rw [stringLexeme, stringBody_of_unsigned hliteral]
    dsimp only
    rw [String.ofList_toList, List.length_append]
    rfl
  have hnesting : (Nesting.start.after (.string value)).exceeded = false := rfl
  have hscan : scan ('"' :: (literal ++ '"' :: behind)) 0 0 .start = [⟨.string value, ⟨0, 0 +
      byteLength (('"' :: (literal ++ '"' :: behind)).take ((literal ++ ['"']).length + 1))⟩⟩].map .inr := by
    rw [scan_cons, hlexeme]
    simp only [Lexeme.reports, hnesting, Bool.false_eq_true, if_false, Nat.add_sub_cancel]
    rw [List.append_cons literal '"' behind, scan_skip, scan_lastGap hbehind, List.append_nil]
    rfl
  exact ⟨_, tokenize_of_scan hscan⟩

/-- A body between quotes has one string as its only token if this string ends with one of its quotes, and
blanks or a comment come after it. -/
theorem hasOneString_iff {body : List Char} {value : String} :
    HasOneString body value ↔ ∃ literal behind, body ++ ['"'] = literal ++ '"' :: behind ∧
      IsBody value.toList (unsigned literal) ∧ IsGap (behind ++ ['\n']) := by
  constructor
  · intro h
    unfold HasOneString at h
    cases htokens : tokenize (.ofList (quotedBody body)) with
    | error errors =>
      rw [htokens] at h
      cases h
    | ok tokens =>
      rw [htokens] at h
      obtain ⟨found, rfl, htiled⟩ := tiled_of_tokenize htokens
      rw [String.toList_ofList] at htiled
      have hkinds : found.map Token.kind ++ [.eof] = [.string value] ++ [.eof] := by
        have hall : (found ++ [endOf (String.ofList (quotedBody body)).toList]).map Token.kind =
          [.string value, .eof] := Except.ok.inj h
        rwa [List.map_append] at hall
      obtain ⟨token, rfl, hkind⟩ := List.map_eq_singleton_iff.1 (List.append_cancel_right hkinds)
      obtain ⟨cs, behind, hcs, hread, hbehind, -⟩ := tiled_quote htiled
      rw [hkind] at hread
      obtain ⟨literal, rfl, hliteral⟩ := lexemeAt_quote_iff.1 hread
      exact ⟨literal, behind, by rw [hcs, List.append_assoc]; rfl, hliteral, hbehind⟩
  · rintro ⟨literal, behind, hbody, hliteral, hbehind⟩
    obtain ⟨span, hread⟩ := tokenize_literal hliteral hbehind
    rw [HasOneString, quotedBody, hbody, hread]
    rfl

/-- **String literals are JSON strings,** but for the signs.  Let no character of a body be a raw control.

The body is the inside of a JSON string if it is a literal between quotes and has no sign among the digits of
its code units.  With signs, it is a literal if it would be one with zeros in their place.  A literal stands for
what JSON reads, with zeros in place of the signs again.  If nothing but the kinds of the tokens is looked at,
a comment behind a literal counts as well, and the last quote may belong to it. -/
theorem stringLiteral_iff {body : List Char} (hcontrols : ∀ c ∈ body, 32 ≤ c.toNat) (value : String) :
    (IsBody value.toList body ↔ IsLiteral body value ∧ unsigned body = body) ∧
    (IsLiteral body value ↔ IsBody value.toList (unsigned body)) ∧
    (IsLiteral body value →
      Json.Value.ofText (.ofList (quotedBody (unsigned body))) = .ok (.string value)) ∧
    (HasOneString body value ↔ ∃ literal behind, body ++ ['"'] = literal ++ '"' :: behind ∧
      IsBody value.toList (unsigned literal) ∧ IsGap (behind ++ ['\n'])) := by
  refine ⟨⟨fun h => ?_, fun h => ?_⟩, isLiteral_iff, fun h => ?_, hasOneString_iff⟩
  · have hsame := unsigned_of_isBody h
    rw [← hsame] at h
    exact ⟨isLiteral_iff.2 h, hsame⟩
  · have hbody := isLiteral_iff.1 h.1
    rwa [h.2] at hbody
  · exact Json.ofText_isBody (isLiteral_iff.1 h) (unsigned_controls hcontrols)

/-- A code point, and a surrogate pair with letters of both cases. -/
theorem stringLiteral_iff_pair :
    let body := "caf\\u00e9 \\uD83d\\ude00".toList
    (∀ c ∈ body, 32 ≤ c.toNat) ∧ IsBody "café 😀".toList body ∧ IsLiteral body "café 😀" ∧
      Json.Value.ofText (.ofList (quotedBody body)) = .ok (.string "café 😀") := by
  intro body
  have hall : (body.all fun c => 32 ≤ c.toNat) = true := by decide +kernel
  have hcontrols : ∀ c ∈ body, 32 ≤ c.toNat := fun c hc => of_decide_eq_true (List.all_eq_true.1 hall c hc)
  have hunit : IsUnit 'é'.toNat ['0', '0', 'e', '9'] := ⟨rfl, rfl⟩
  have hhigh : IsUnit 0xD83D ['D', '8', '3', 'd'] := ⟨rfl, rfl⟩
  have hlow : IsUnit 0xDE00 ['d', 'e', '0', '0'] := ⟨rfl, rfl⟩
  have hbody : IsBody ['c', 'a', 'f', 'é', ' ', '😀'] "caf\\u00e9 \\uD83d\\ude00".toList :=
    .plain (by decide) (by decide) (.plain (by decide) (by decide) (.plain (by decide) (by decide)
      (.escaped (.unit hunit) (.plain (by decide) (by decide)
        (.escaped (.pair hhigh hlow (by decide) (by decide) (by decide) (by decide) rfl) .nil)))))
  have hbody' : IsBody "café 😀".toList body := hbody
  obtain ⟨hexact, -, hjson, -⟩ := stringLiteral_iff hcontrols "café 😀"
  obtain ⟨hliteral, hsame⟩ := hexact.1 hbody'
  rw [hsame] at hjson
  exact ⟨hcontrols, hbody', hliteral, hjson hliteral⟩

/-- A sign and three digits make a literal, but JSON refuses the same text. -/
theorem stringLiteral_signed :
    let body := "\\u+041".toList
    (∀ c ∈ body, 32 ≤ c.toNat) ∧ IsLiteral body "A" ∧ ¬IsBody "A".toList body ∧
      Json.Value.ofText (.ofList (quotedBody body)) = .error ⟨.invalidEscape, ⟨1, 7⟩⟩ := by
  intro body
  have hunit : IsUnit 'A'.toNat ['0', '0', '4', '1'] := ⟨rfl, rfl⟩
  have hbody : IsBody ['A'] (unsigned body) := .escaped (.unit hunit) .nil
  have hall : (body.all fun c => 32 ≤ c.toNat) = true := by decide +kernel
  refine ⟨fun c hc => of_decide_eq_true (List.all_eq_true.1 hall c hc), isLiteral_iff.2 hbody, fun h => ?_, ?_⟩
  · exact absurd (unsigned_of_isBody h) (by decide)
  · rw [Json.Value.ofText, Json.Input.ofText, String.toList_ofList, Json.readValue.eq_def]
    rfl

end Filter
end JsonFilter
