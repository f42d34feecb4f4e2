import JsonFilter.Proofs.Filter.Locality
import JsonFilter.Proofs.Filter.StringLiterals

/-!
# Malformed strings

What the lexer does behind an escape that it cannot read: it goes on behind the next quote, so that the string is one
fault.  The quote that it finds is the end of the string, unless a quote is escaped between the two.  Then the rest of
the string is read as a filter, and its last quote begins another string.

* `Delimited` — the texts that can stand between quotes, with whatever escapes.
* `Delimited.readable_or` — the first escape that cannot be read, and what stands in front of it.
* `shallow_faultsIn_moved` — the faults of pieces but for the nesting, which move with the pieces.
* `ReportsOnce` — a part of a text has a fault in it, and nothing else is changed by it.
* **`malformed_string_reports_once`** — this is so for a malformed string up to the next quote.
-/

namespace JsonFilter.Filter

open Text (byteLength byteLength_cons byteLength_append)

/-! ### Bodies with bad escapes -/

/-- The inside of a string if nothing is asked of its escapes: a backslash takes the next character along. -/
inductive Delimited : List Char → Prop
  | nil : Delimited []
  | plain {c : Char} {body : List Char} : c ≠ '"' → c ≠ '\\' → Delimited body → Delimited (c :: body)
  | escaped (c : Char) {body : List Char} : Delimited body → Delimited ('\\' :: c :: body)

namespace Delimited

variable {body digits behind : List Char}

/-- Characters that stand for themselves can be taken off. -/
theorem behind_plain (h : Delimited body) (hquote : '"' ∉ digits) (hslash : '\\' ∉ digits)
    (hbody : body ++ ['"'] = digits ++ behind) :
    ∃ body', body = digits ++ body' ∧ behind = body' ++ ['"'] ∧ Delimited body' := by
  induction digits generalizing body with
  | nil => exact ⟨body, rfl, hbody.symm, h⟩
  | cons d digits ih =>
    obtain ⟨hd, hquotes⟩ := not_or.1 (mt List.mem_cons.2 hquote)
    obtain ⟨hd', hslashes⟩ := not_or.1 (mt List.mem_cons.2 hslash)
    cases h with
    | nil => exact absurd (List.cons.inj hbody).1 hd
    | escaped => exact absurd (List.cons.inj hbody).1 hd'
    | plain _ _ hrest =>
      obtain ⟨rfl, htail⟩ := List.cons.inj hbody
      obtain ⟨body', rfl, hbehind, hbody'⟩ := ih hrest hquotes hslashes htail
      exact ⟨body', rfl, hbehind, hbody'⟩

/-- A code unit can be taken off. -/
theorem behind_unit {unit : Nat} (h : Delimited body) (hunit : IsUnit unit (unsignedUnit digits))
    (hbody : body ++ ['"'] = digits ++ behind) :
    ∃ body', body = digits ++ body' ∧ behind = body' ++ ['"'] ∧ Delimited body' :=
  h.behind_plain (hunit.notMem rfl (by decide)) (hunit.notMem rfl (by decide)) hbody

/-- An escape that the lexer reads can be taken off. -/
theorem behind_escape {letter d : Char} {used : Nat} (h : Delimited body)
    (hread : escape? (letter :: (body ++ ['"'])) = some (d, used)) :
    ∃ escape body', letter :: body = escape ++ body' ∧ escape.length = used ∧ Delimited body' := by
  have hshort (hused : 1 = used) :
      ∃ escape body', letter :: body = escape ++ body' ∧ escape.length = used ∧ Delimited body' :=
    ⟨[letter], body, rfl, hused, h⟩
  generalize htext : letter :: (body ++ ['"']) = text at hread
  unfold escape? at hread
  split at hread
  case h_9 more =>
    obtain ⟨rfl, hmore⟩ := List.cons.inj htext
    obtain ⟨⟨e, width⟩, hunits, heq⟩ := Option.map_eq_some_iff.1 hread
    cases heq
    rcases unitEscape?_cases hunits with ⟨digits, behind, rfl, rfl, hunit⟩ |
      ⟨high, low, digits, digits', behind, rfl, rfl, hhigh, hlow, -, -, -⟩
    · obtain ⟨body', rfl, -, hbody'⟩ := h.behind_unit hunit hmore
      exact ⟨'u' :: digits, body', rfl, by rw [List.length_cons, hunit.length_eq], hbody'⟩
    · -- the second unit is an escape of its own
      obtain ⟨body', rfl, hbehind, hbody'⟩ := h.behind_unit hhigh hmore
      cases hbody' with
      | nil => cases hbehind
      | plain _ hslash => exact absurd (List.cons.inj hbehind).1.symm hslash
      | escaped c hlast =>
        obtain ⟨rfl, hunits'⟩ := List.cons.inj (List.cons.inj hbehind).2
        obtain ⟨last, rfl, -, hlast'⟩ := hlast.behind_unit hlow hunits'.symm
        exact ⟨'u' :: (digits ++ '\\' :: 'u' :: digits'), last, by simp,
          by simp [hhigh.length_eq, hlow.length_eq], hlast'⟩
  case h_10 => cases hread
  all_goals
    cases hread
    exact hshort rfl

/-- **The first bad escape.**  A body can be read, or there is an escape in it that cannot be read, and it can be read
up to there. -/
theorem readable_or (h : Delimited body) :
    (∃ text, IsBody text (unsigned body)) ∨
      ∃ good behind, body = good ++ '\\' :: behind ∧ (∃ text, IsBody text (unsigned good)) ∧
        escape? (behind ++ ['"']) = none := by
  induction hlength : body.length using Nat.strongRecOn generalizing body with
  | _ length ih =>
    cases h with
    | nil => exact .inl ⟨[], .nil⟩
    | @plain c body hquote hslash hrest =>
      have hunsigned := unsigned_cons hslash
      have hcons {text good : List Char} (hgood : IsBody text (unsigned good)) :
          IsBody (c :: text) (unsigned (c :: good)) := by
        rw [hunsigned]
        exact .plain hquote hslash hgood
      rcases ih body.length (by rw [← hlength]; exact Nat.lt_succ_self _) hrest rfl with
        ⟨text, htext⟩ | ⟨good, behind, rfl, ⟨text, htext⟩, hbad⟩
      · exact .inl ⟨_, hcons htext⟩
      · exact .inr ⟨c :: good, behind, rfl, ⟨_, hcons htext⟩, hbad⟩
    | @escaped letter body hrest =>
      cases hescape : escape? (letter :: (body ++ ['"'])) with
      | none => exact .inr ⟨[], letter :: body, rfl, ⟨[], .nil⟩, hescape⟩
      | some p =>
        obtain ⟨d, used⟩ := p
        obtain ⟨escape, body', hbody, rfl, hbody'⟩ := hrest.behind_escape hescape
        rw [← List.cons_append, hbody, List.append_assoc] at hescape
        obtain ⟨escape', behind, hsame, hlengths, written, hwritten, hunsigned⟩ := exists_escapes_of_escape? hescape
        obtain ⟨rfl, -⟩ := List.append_inj hsame hlengths
        have hcons {text good : List Char} (hgood : IsBody text (unsigned good)) :
            IsBody (d :: text) (unsigned ('\\' :: (escape ++ good))) := by
          rw [hunsigned]
          exact .escaped hwritten hgood
        have hshorter : body'.length < length := by
          rw [← hlength, hbody, List.length_cons, List.length_append]
          omega
        rw [hbody]
        rcases ih _ hshorter hbody' rfl with ⟨text, htext⟩ | ⟨good, behind, rfl, ⟨text, htext⟩, hbad⟩
        · exact .inl ⟨_, hcons htext⟩
        · exact .inr ⟨'\\' :: (escape ++ good), behind, by simp, ⟨_, hcons htext⟩, hbad⟩

end Delimited

/-- The lexer takes a malformed string up to the next quote. -/
theorem lexemeAt_malformed {text good covered : List Char} (hgood : IsBody text (unsigned good))
    (hbad : escape? (covered ++ ['"']) = none) (hcovered : '"' ∉ covered) (rest : List Char) :
    lexemeAt '"' (good ++ '\\' :: (covered ++ ['"']) ++ rest) =
      (.fault (.invalidEscape (.ofList (covered.take 5))) (good.length + 1),
        (good ++ '\\' :: (covered ++ ['"'])).length + 1) := by
  have hbody : stringBody (good ++ '\\' :: (covered ++ '"' :: rest)) 0 =
      .badEscape good.length (covered ++ '"' :: rest) := by
    rw [stringBody_read hgood, stringBody, if_neg (by decide), if_pos rfl, escape?_eq_none hbad hcovered]
    dsimp only [StringBody.behind]
    rw [Nat.zero_add]
  have hsource : good ++ '\\' :: (covered ++ ['"']) ++ rest = good ++ '\\' :: (covered ++ '"' :: rest) := by simp
  have hlength : (good ++ '\\' :: (covered ++ ['"'])).length + 1 = good.length + 2 + covered.length + 1 := by
    simp only [List.length_append, List.length_cons, List.length_nil]
    omega
  rw [hsource, hlength]
  exact stringLexeme_of_badEscape hbody hcovered

/-! ### Findings -/

/-- The errors of a text, without their lines and columns. -/
def findingsOf (text : List Char) : List Finding :=
  match tokenize (.ofList text) with
  | .ok _ => []
  | .error errors => errors.map fun e => ⟨e.fault, e.span⟩

/-- What pieces add to the findings of a scan. -/
def faultsIn (pieces : List (Lexeme × List Char)) (offset : Nat) (nesting : Nesting) : List Finding :=
  (reportsOf pieces offset nesting).filterMap Sum.getLeft?

/-- The findings that have nothing to do with the nesting. -/
def shallow (findings : List Finding) : List Finding := findings.filter fun f => f.fault ≠ .nestingTooDeep

/-- A finding some bytes further on. -/
def Finding.moved (d : Nat) (f : Finding) : Finding := ⟨f.fault, ⟨f.span.start + d, f.span.stop + d⟩⟩

section

variable {text : List Char} {pieces front back : List (Lexeme × List Char)} {offset : Nat} {n : Nesting}

theorem findingsOf_eq (h : Pieces text pieces) : findingsOf text = faultsIn pieces 0 .start := by
  have hscan : scan (String.ofList text).toList 0 0 .start = reportsOf pieces 0 .start := by
    rw [String.toList_ofList]
    exact scan_eq_reportsOf h 0 .start
  unfold findingsOf faultsIn
  cases htokens : tokenize (.ofList text) with
  | ok tokens =>
    have hclean := (tokenize_eq_ok_iff.1 htokens).1
    rw [hscan] at hclean
    refine (List.filterMap_eq_nil_iff.2 fun found hfound => ?_).symm
    cases found with
    | inl finding => exact absurd hfound (hclean finding)
    | inr token => rfl
  | error errors =>
    obtain ⟨-, rfl⟩ := tokenize_eq_error_iff.1 htokens
    rw [hscan]
    exact (List.map_map).trans (List.map_id _)

theorem faultsIn_cons (lexeme : Lexeme) (text : List Char) (pieces : List (Lexeme × List Char)) (offset : Nat)
    (n : Nesting) : ∃ n', faultsIn ((lexeme, text) :: pieces) offset n =
      (lexeme.reports n offset (offset + byteLength text)
        fun ahead => offset + byteLength (text.take ahead)).1.filterMap Sum.getLeft? ++
        faultsIn pieces (offset + byteLength text) n' :=
  ⟨_, List.filterMap_append⟩

/-- The faults of the first pieces, and those of the others. -/
theorem faultsIn_append (front : List (Lexeme × List Char)) (offset : Nat) (n : Nesting) :
    ∃ n', ∀ back, faultsIn (front ++ back) offset n =
      faultsIn front offset n ++ faultsIn back (offset + byteLength (textOf front)) n' := by
  induction front generalizing offset n with
  | nil => exact ⟨n, fun back => rfl⟩
  | cons piece front ih =>
    obtain ⟨lexeme, text⟩ := piece
    obtain ⟨n', hfront⟩ := ih (offset + byteLength text)
      (lexeme.reports n offset (offset + byteLength text) fun ahead => offset + byteLength (text.take ahead)).2
    refine ⟨n', fun back => ?_⟩
    have htext : byteLength (textOf ((lexeme, text) :: front)) = byteLength text + byteLength (textOf front) :=
      byteLength_append text (textOf front)
    rw [htext, ← Nat.add_assoc]
    unfold faultsIn at hfront ⊢
    dsimp only [List.cons_append, reportsOf]
    rw [List.filterMap_append, List.filterMap_append, List.append_assoc, hfront back]

/-- A token has no fault but that the nesting is too deep. -/
theorem shallow_reports_token (kind : TokenKind) (n : Nesting) (offset stop : Nat) (start : Nat → Nat) :
    shallow (((Lexeme.token kind).reports n offset stop start).1.filterMap Sum.getLeft?) = [] := by
  dsimp only [Lexeme.reports]
  split <;> rfl

theorem shallow_reports_moved (lexeme : Lexeme) (n n' : Nesting) (offset stop d : Nat) (start : Nat → Nat) :
    shallow ((lexeme.reports n (offset + d) (stop + d) fun ahead => start ahead + d).1.filterMap Sum.getLeft?) =
      (shallow ((lexeme.reports n' offset stop start).1.filterMap Sum.getLeft?)).map (Finding.moved d) := by
  cases lexeme with
  | blank => rfl
  | token kind => rw [shallow_reports_token, shallow_reports_token, List.map_nil]
  | fault wrong ahead =>
    by_cases hdeep : wrong = .nestingTooDeep
    · subst hdeep
      rfl
    · simp [Lexeme.reports, shallow, Finding.moved, hdeep]

/-- **The faults of pieces move with them**, whatever the levels in front. -/
theorem shallow_faultsIn_moved (pieces : List (Lexeme × List Char)) (offset d : Nat) (n n' : Nesting) :
    shallow (faultsIn pieces (offset + d) n) = (shallow (faultsIn pieces offset n')).map (Finding.moved d) := by
  induction pieces generalizing offset n n' with
  | nil => rfl
  | cons piece pieces ih =>
    obtain ⟨lexeme, text⟩ := piece
    obtain ⟨m, hleft⟩ := faultsIn_cons lexeme text pieces (offset + d) n
    obtain ⟨m', hright⟩ := faultsIn_cons lexeme text pieces offset n'
    have hhead := shallow_reports_moved lexeme n n' offset (offset + byteLength text) d
      fun ahead => offset + byteLength (text.take ahead)
    simp only [Nat.add_right_comm offset d] at hleft hhead ⊢
    rw [hleft, hright]
    unfold shallow at hhead ih ⊢
    rw [List.filter_append, List.filter_append, List.map_append, hhead, ih _ m m']

/-- What is found in the first pieces lies in front of the others. -/
theorem stop_le_of_mem_faultsIn (h : Pieces text (front ++ back)) :
    ∀ f ∈ faultsIn front offset n, f.span.stop ≤ offset + byteLength (textOf front) := by
  intro f hf
  obtain ⟨found, hfound, heq⟩ := List.mem_filterMap.1 hf
  rw [Sum.getLeft?_eq_some_iff] at heq
  subst heq
  induction front generalizing text offset n with
  | nil => cases hfound
  | cons piece front ih =>
    cases h with
    | @next c cs behind lexeme _ _ hcovers hbehind =>
      have htext : byteLength (textOf ((lexeme, c :: cs) :: front)) =
          byteLength (c :: cs) + byteLength (textOf front) := byteLength_append (c :: cs) (textOf front)
      rw [htext]
      rcases List.mem_append.1 hfound with hhead | hrest
      · have hbounds : f.span.stop ≤ offset + byteLength (c :: cs) := (hcovers.covering _ hhead).bounds.2.2
        omega
      · have hstop := ih hbehind (List.mem_filterMap.2 ⟨_, hrest, rfl⟩) hrest
        omega

/-- What is found in pieces lies behind the place where they begin. -/
theorem le_start_of_mem_faultsIn (h : Pieces text pieces) :
    ∀ f ∈ faultsIn pieces offset n, offset ≤ f.span.start := by
  intro f hf
  obtain ⟨found, hfound, heq⟩ := List.mem_filterMap.1 hf
  rw [Sum.getLeft?_eq_some_iff] at heq
  subst heq
  exact (covering_of_mem_reportsOf h hfound).bounds.1

end

/-! ### One fault -/

/-- A lexeme begins between two texts. -/
def AtToken (pre rest : List Char) : Prop :=
  ∃ front back, Pieces (pre ++ rest) (front ++ back) ∧ textOf front = pre

/-- A part of a text is found to be wrong once, for one of its escapes.  In front of it the findings are those there
are with the empty string in its place.  So they are behind it, but for the nesting, and further on by as many bytes as
the part is longer. -/
def ReportsOnce (pre part post : List Char) : Prop :=
  ∃ before bad behind behind', findingsOf (pre ++ (part ++ post)) = before ++ bad :: behind ∧
    findingsOf (pre ++ ('"' :: '"' :: post)) = before ++ behind' ∧
    (∃ sequence, bad.fault = .invalidEscape sequence) ∧
    byteLength pre ≤ bad.span.start ∧ bad.span.stop ≤ byteLength (pre ++ part) ∧
    (∀ f ∈ before, f.span.stop ≤ byteLength pre) ∧ (∀ f ∈ behind, byteLength (pre ++ part) ≤ f.span.start) ∧
    shallow behind = (shallow behind').map (.moved (byteLength part - byteLength ['"', '"']))

/-- A part that is a bad escape to the lexer is found to be wrong once. -/
theorem reportsOnce_of_lexemeAt {pre cs rest post : List Char} {sequence : String} {ahead : Nat}
    (hpre : AtToken pre ('"' :: rest))
    (hread : lexemeAt '"' (cs ++ post) = (.fault (.invalidEscape sequence) ahead, cs.length + 1))
    (hahead : ahead < ('"' :: cs).length) (hcs : cs ≠ []) : ReportsOnce pre ('"' :: cs) post := by
  obtain ⟨front, back, hpieces, rfl⟩ := hpre
  obtain ⟨behind, hbehind⟩ := exists_pieces post
  -- the two texts are cut in the same way, but for the part
  have hbad : Pieces ('"' :: (cs ++ post)) ((.fault (.invalidEscape sequence) ahead, '"' :: cs) :: behind) :=
    .next hread (.fault hahead) hbehind
  have hempty : Pieces ('"' :: (['"'] ++ post)) ((.token (.string ""), ['"', '"']) :: behind) :=
    .next rfl (.token rfl) hbehind
  have hwhole := hpieces.exchange_front rfl hbad
  have hwhole' := hpieces.exchange_front rfl hempty
  obtain ⟨m, hfront⟩ := faultsIn_append front 0 .start
  rw [Nat.zero_add] at hfront
  obtain ⟨m', htoken⟩ := faultsIn_cons (.token (.string "")) ['"', '"'] behind (byteLength (textOf front)) m
  have hlength : byteLength (textOf front) + byteLength ('"' :: cs) =
      byteLength (textOf front) + byteLength ['"', '"'] + (byteLength ('"' :: cs) - byteLength ['"', '"']) := by
    have hpos := byteLength_pos hcs
    have hquote : byteLength ('"' :: cs) = 1 + byteLength cs := byteLength_cons '"' cs
    have hquotes : byteLength ['"', '"'] = 2 := rfl
    omega
  have hpart : byteLength (textOf front ++ '"' :: cs) = byteLength (textOf front) + byteLength ('"' :: cs) :=
    byteLength_append _ _
  refine ⟨faultsIn front 0 .start,
    ⟨.invalidEscape sequence, ⟨byteLength (textOf front) + byteLength (('"' :: cs).take ahead),
      byteLength (textOf front) + byteLength ('"' :: cs)⟩⟩,
    faultsIn behind (byteLength (textOf front) + byteLength ('"' :: cs)) m, _,
    (findingsOf_eq hwhole).trans (hfront _), (findingsOf_eq hwhole').trans ((hfront _).trans (congrArg _ htoken)),
    ⟨sequence, rfl⟩, Nat.le_add_right _ _, Nat.le_of_eq hpart.symm, fun f hf => ?_, fun f hf => ?_, ?_⟩
  · have hstop := stop_le_of_mem_faultsIn hwhole f hf
    rwa [Nat.zero_add] at hstop
  · rw [hpart]
    exact le_start_of_mem_faultsIn hbehind f hf
  · have hnone := shallow_reports_token (.string "") m (byteLength (textOf front))
      (byteLength (textOf front) + byteLength ['"', '"'])
      fun ahead => byteLength (textOf front) + byteLength (['"', '"'].take ahead)
    have hmoved := shallow_faultsIn_moved behind (byteLength (textOf front) + byteLength ['"', '"'])
      (byteLength ('"' :: cs) - byteLength ['"', '"']) m m'
    rw [hlength, hmoved]
    unfold shallow at hnone ⊢
    rw [List.filter_append, hnone, List.nil_append]

/-- **A malformed string reports once, up to the next quote.**  Let a body with a bad escape begin at a token, between
quotes.

The string can be read up to a first bad escape.  From its opening quote to the next quote behind this escape, the last
one included, it is found to be wrong once, and what comes behind this quote is read as any filter.  So the whole string
is found to be wrong once if no quote stands between the escape and its end. -/
theorem malformed_string_reports_once {pre body post : List Char} (hbody : Delimited body)
    (hbad : ∀ value, ¬IsLiteral body value) (hpre : AtToken pre (quotedBody body ++ post)) :
    ∃ good behind, body = good ++ '\\' :: behind ∧ (∃ text, IsBody text (unsigned good)) ∧
      escape? (behind ++ ['"']) = none ∧
      (∀ covered rest, behind ++ ['"'] = covered ++ '"' :: rest → '"' ∉ covered →
        ReportsOnce pre ('"' :: (good ++ '\\' :: (covered ++ ['"']))) (rest ++ post)) ∧
      ('"' ∉ behind → ReportsOnce pre (quotedBody body) post) := by
  rcases hbody.readable_or with ⟨text, htext⟩ | ⟨good, behind, rfl, ⟨text, hgood⟩, hescape⟩
  · refine absurd (isLiteral_iff.2 ?_) (hbad (.ofList text))
    rwa [String.toList_ofList]
  have honce (covered rest : List Char) (hbehind : behind ++ ['"'] = covered ++ '"' :: rest)
      (hcovered : '"' ∉ covered) : ReportsOnce pre ('"' :: (good ++ '\\' :: (covered ++ ['"']))) (rest ++ post) := by
    rw [hbehind] at hescape
    have hread := lexemeAt_malformed hgood (escape?_eq_none hescape hcovered []) hcovered (rest ++ post)
    refine reportsOnce_of_lexemeAt hpre hread ?_ (by simp)
    simp only [List.length_cons, List.length_append]
    omega
  refine ⟨good, behind, rfl, ⟨text, hgood⟩, hescape, honce, fun hquote => ?_⟩
  have hwhole : quotedBody (good ++ '\\' :: behind) = '"' :: (good ++ '\\' :: (behind ++ ['"'])) := by
    rw [quotedBody, List.append_assoc]
    rfl
  rw [hwhole]
  exact honce behind [] rfl hquote

/-- Behind a bracket and in front of a stray character: the string has an escaped quote in front of its bad escape. -/
theorem malformed_string_reports_once_in_array :
    let body := "\\\"\\x".toList
    let post := " $]".toList
    Delimited body ∧ (∀ value, ¬IsLiteral body value) ∧ AtToken ['['] (quotedBody body ++ post) ∧
      ReportsOnce ['['] (quotedBody body) post := by
  intro body post
  have hbody : Delimited body := .escaped '"' (.escaped 'x' .nil)
  have hbad : ∀ value, ¬IsLiteral body value := by
    intro value h
    have hread := stringBody_of_unsigned (isLiteral_iff.1 h) []
    cases hread
  obtain ⟨pieces, hpieces⟩ := exists_pieces (quotedBody body ++ post)
  have hbracket : Pieces ('[' :: ([] ++ (quotedBody body ++ post))) ((.token (.mark .leftBracket), ['[']) :: pieces) :=
    .next rfl (.token rfl) hpieces
  have hpre : AtToken ['['] (quotedBody body ++ post) := ⟨[(.token (.mark .leftBracket), ['['])], pieces, hbracket, rfl⟩
  obtain ⟨good, behind, hsplit, -, hescape, -, honce⟩ := malformed_string_reports_once hbody hbad hpre
  -- the backslash of the bad escape is the second one
  have hbehind : '"' ∉ behind := by
    have hparts : ['\\', '"', '\\', 'x'] = good ++ '\\' :: behind := hsplit
    rcases good with _ | ⟨_, _ | ⟨_, _ | ⟨_, good⟩⟩⟩
    · cases hparts
      cases hescape
    · cases hparts
    · cases hparts
      decide
    · obtain ⟨-, hlast⟩ := List.cons.inj (List.cons.inj (List.cons.inj hparts).2).2
      have hmem : '\\' ∈ ['x'] := hlast ▸ List.mem_append_right good List.mem_cons_self
      exact absurd hmem (by decide)
  exact ⟨hbody, hbad, hpre, honce hbehind⟩

/-- With an escaped quote behind the bad escape, the last quote begins a string without an end. -/
theorem malformed_string_reports_twice :
    let body := "\\x\\\"y".toList
    Delimited body ∧ (∀ value, ¬IsLiteral body value) ∧ AtToken [] (quotedBody body ++ []) ∧
      ¬ReportsOnce [] (quotedBody body) [] ∧
      findingsOf (quotedBody body) = [⟨.invalidEscape "x\\", ⟨1, 5⟩⟩, ⟨.unterminatedString, ⟨6, 7⟩⟩] := by
  intro body
  have hbody : Delimited body :=
    .escaped 'x' (.escaped '"' (.plain (by decide) (by decide) .nil))
  have hbad : ∀ value, ¬IsLiteral body value := by
    intro value h
    have hread := stringBody_of_unsigned (isLiteral_iff.1 h) []
    cases hread
  have htwo : findingsOf (quotedBody body) = [⟨.invalidEscape "x\\", ⟨1, 5⟩⟩, ⟨.unterminatedString, ⟨6, 7⟩⟩] := by
    decide +kernel
  have hnone : findingsOf ['"', '"'] = [] := by decide +kernel
  obtain ⟨pieces, hpieces⟩ := exists_pieces (quotedBody body ++ [])
  refine ⟨hbody, hbad, ⟨[], pieces, hpieces, rfl⟩, ?_, htwo⟩
  rintro ⟨before, bad, behind, behind', hfound, hempty, -, -, -, -, -, hsame⟩
  rw [List.nil_append, hnone] at hempty
  obtain ⟨rfl, rfl⟩ := List.append_eq_nil_iff.1 hempty.symm
  rw [List.nil_append, List.append_nil, htwo, List.nil_append] at hfound
  obtain ⟨-, rfl⟩ := List.cons.inj hfound
  cases hsame

end JsonFilter.Filter
