import JsonFilter.Proofs.Filter.Coverage

/-!
# What the lexer looks at

A lexeme is decided by the characters it takes and by what follows them, up to the next brace, comma or quote: no name,
no number and no mark of two characters goes beyond.  A string or a comment may, but then it takes the brace along.  So
behind a brace, a comma or a quote that begins a lexeme a text can be exchanged, and what stands in front of it is read
as before.

* `exists_escape_of_escape?`, `stringBody_front` — what makes a string malformed stands in front of its next quote:
  the lexer looks behind a backslash, but not behind a quote.
* **`lexemeAt_front`** — a lexeme that ends in front of the mark does not depend on what stands behind.
* `spells_of_lexemeAt` — a token that is no string is taken from its own spelling.
* **`Pieces.exchange_front`** — so all pieces in front of the mark stay when the text behind it is exchanged.
-/

namespace JsonFilter.Filter

/-- The characters that a key may follow. -/
def leadsKey (c : Char) : Bool := c == '\x7b' || c == ','

/-- The characters that a lexeme may end in front of without looking at what is behind them. -/
def standsApart (c : Char) : Bool := leadsKey c || c == '"'

section

variable {m : Char} {u y y' : List Char}

theorem eq_of_leadsKey (h : leadsKey m = true) : m = '\x7b' ∨ m = ',' := by
  simpa [leadsKey] using h

theorem standsApart_of_leadsKey (h : leadsKey m = true) : standsApart m = true := by
  rw [standsApart, h, Bool.true_or]

theorem eq_of_standsApart (h : standsApart m = true) : m = '\x7b' ∨ m = ',' ∨ m = '"' := by
  simpa [standsApart, leadsKey, or_assoc] using h

/-- No reader but those of strings and comments takes such a character behind another one. -/
theorem class_of_standsApart {p : Char → Bool} (h : standsApart m = true) (hbrace : p '\x7b' = false)
    (hcomma : p ',' = false) (hquote : p '"' = false) : p m = false := by
  rcases eq_of_standsApart h with rfl | rfl | rfl
  · exact hbrace
  · exact hcomma
  · exact hquote

theorem ne_of_standsApart (h : standsApart m = true) {c : Char} (hc : standsApart c = false) : m ≠ c := by
  rintro rfl
  rw [h] at hc
  cases hc

/-! ### Runs -/

theorem takeWhile_front {p : Char → Bool} (hp : p m = false) (u y : List Char) :
    (u ++ m :: y).takeWhile p = u.takeWhile p := by
  rw [List.takeWhile_append]
  split
  · next hall =>
    have hu := (List.takeWhile_prefix p).eq_of_length hall
    rw [List.takeWhile_cons, hp, if_neg Bool.false_ne_true, List.append_nil, hu]
  · rfl

/-- A run that ends in front of a character that could belong to it ends before. -/
theorem takeWhile_of_length_le {p : Char → Bool} (hp : p m = true)
    (h : ((u ++ m :: y).takeWhile p).length ≤ u.length) (y' : List Char) :
    (u ++ m :: y').takeWhile p = (u ++ m :: y).takeWhile p := by
  rw [List.takeWhile_append] at h ⊢
  rw [List.takeWhile_append]
  split at h
  · rw [List.length_append, List.takeWhile_cons, if_pos hp, List.length_cons] at h
    omega
  · next hall => rw [if_neg hall, if_neg hall]

section

variable (hm : standsApart m = true)
include hm

theorem leadingDigits_front (u y : List Char) : leadingDigits (u ++ m :: y) = leadingDigits u :=
  takeWhile_front (class_of_standsApart hm (by decide) (by decide) (by decide)) u y

theorem leadingName_front (u y : List Char) : leadingName (u ++ m :: y) = leadingName u := by
  cases u with
  | nil =>
    have hstart : isNameStart m = false := class_of_standsApart hm (by decide) (by decide) (by decide)
    exact if_neg (by rw [hstart]; exact Bool.false_ne_true)
  | cons c u =>
    show (if isNameStart c then c :: (u ++ m :: y).takeWhile isNamePart else []) = _
    rw [takeWhile_front (class_of_standsApart hm (by decide) (by decide) (by decide))]
    rfl

/-! ### Numbers -/

theorem fractionPart_front (u y : List Char) : fractionPart (u ++ m :: y) = fractionPart u := by
  cases u with
  | nil =>
    have hpoint := ne_of_standsApart hm (show standsApart '.' = false from rfl)
    simp [fractionPart, hpoint]
  | cons c u =>
    by_cases hc : c = '.'
    · subst hc
      show (if (leadingDigits (u ++ m :: y)).isEmpty then [] else '.' :: leadingDigits (u ++ m :: y)) = _
      rw [leadingDigits_front hm]
      rfl
    · simp [fractionPart, hc]

theorem exponentMark_front (u y : List Char) : exponentMark (u ++ m :: y) = exponentMark u := by
  rcases eq_of_standsApart hm with rfl | rfl | rfl
  all_goals
    match u with
    | [] => rfl
    | [c] => rfl
    | _ :: _ :: _ => rfl

theorem numberLexeme_front (u y : List Char) : numberLexeme (u ++ m :: y) = numberLexeme u := by
  have hsource := leadingDigits_append_dropWhile u
  unfold numberLexeme
  dsimp only
  rw [leadingDigits_front hm]
  generalize leadingDigits u = whole at hsource ⊢
  generalize u.dropWhile Char.isDigit = behind at hsource
  subst hsource
  -- the parts of the number one behind the other, in both texts
  obtain ⟨rest, hrest, -⟩ := fractionPart_cases behind
  rw [List.append_assoc, List.drop_left, List.drop_left, fractionPart_front hm]
  generalize fractionPart behind = fraction at hrest ⊢
  subst hrest
  obtain ⟨more, hmore⟩ : ∃ more, rest = exponentMark rest ++ more := by
    rcases exponentMark_cases rest with hmark | ⟨letter, sign, more, rfl, -, -, hmark⟩
    · exact ⟨rest, by rw [hmark]; rfl⟩
    · exact ⟨more, by rw [hmark]; rfl⟩
  have hleft : whole ++ (fraction ++ rest ++ m :: y) = whole ++ fraction ++ (rest ++ m :: y) := by
    simp only [List.append_assoc]
  rw [hleft, ← List.append_assoc whole fraction rest, List.drop_left, List.drop_left, exponentMark_front hm]
  generalize exponentMark rest = mark at hmore ⊢
  subst hmore
  have hmarked : whole ++ fraction ++ (mark ++ more ++ m :: y) = whole ++ fraction ++ mark ++ (more ++ m :: y) := by
    simp only [List.append_assoc]
  have hmarked' : whole ++ fraction ++ (mark ++ more) = whole ++ fraction ++ mark ++ more :=
    (List.append_assoc _ _ _).symm
  rw [hmarked, hmarked', List.drop_left, List.drop_left, leadingDigits_front hm]
  obtain ⟨last, hlast⟩ : ∃ last, more = (if mark.isEmpty then [] else leadingDigits more) ++ last := by
    split
    · exact ⟨more, rfl⟩
    · exact ⟨_, leadingDigits_append_dropWhile more⟩
  generalize (if mark.isEmpty then [] else leadingDigits more) = digits at hlast ⊢
  subst hlast
  have hwritten : whole ++ fraction ++ mark ++ (digits ++ last ++ m :: y) =
      whole ++ fraction ++ mark ++ digits ++ (last ++ m :: y) := by simp only [List.append_assoc]
  rw [hwritten, ← List.append_assoc _ digits last, List.drop_left, List.drop_left]
  cases last with
  | nil =>
    have hstart : isNameStart m = false := class_of_standsApart hm (by decide) (by decide) (by decide)
    simp only [List.nil_append, hstart, Bool.false_eq_true, if_false]
  | cons c last =>
    have hname := takeWhile_front
      (class_of_standsApart (p := isNamePart) hm (by decide) (by decide) (by decide)) (c :: last) y
    rw [List.cons_append] at hname
    simp only [List.cons_append, hname]

/-! ### Marks -/

theorem head?_front {c : Char} (hc : standsApart c = false) (u y : List Char) :
    ((u ++ m :: y).head? == some c) = (u.head? == some c) := by
  cases u with
  | nil => simpa using ne_of_standsApart hm hc
  | cons d u => rfl

theorem pairLexeme_front {second : Char} (hsecond : standsApart second = false) (joined alone : Mark)
    (u y : List Char) :
    pairLexeme second joined alone (u ++ m :: y) = pairLexeme second joined alone u := by
  cases u with
  | nil => exact if_neg (ne_of_standsApart hm hsecond)
  | cons d u => rfl

theorem dotLexeme_front (u y : List Char) : dotLexeme (u ++ m :: y) = dotLexeme u := by
  by_cases hdot : u.head? = some '.'
  · obtain ⟨rest, rfl⟩ := List.head?_eq_some_iff.1 hdot
    rfl
  · have hdot' : (u ++ m :: y).head? ≠ some '.' := by
      have hsame := head?_front hm (show standsApart '.' = false from rfl) u y
      intro h
      rw [h] at hsame
      exact hdot (by simpa using hsame.symm)
    rw [dotLexeme_of_head hdot, dotLexeme_of_head hdot', leadingName_front hm]

theorem dollarLexeme_front (u y : List Char) : dollarLexeme (u ++ m :: y) = dollarLexeme u := by
  unfold dollarLexeme
  rw [leadingName_front hm]

end

end

/-! ### Strings -/

/-- Nothing but digits and a sign stands in a unit. -/
theorem IsUnit.notMem {unit : Nat} {digits : List Char} {c : Char} (h : IsUnit unit (unsignedUnit digits))
    (hc : Text.hexValue? c = none) (hsign : c ≠ '+') : c ∉ digits := by
  intro hdigit
  have hmem : c ∈ unsignedUnit digits := by
    unfold unsignedUnit
    split
    · exact List.mem_cons_of_mem _ ((List.mem_cons.1 hdigit).resolve_left hsign)
    · exact hdigit
  have hsome := h.isSome_hexValue? c hmem
  rw [hc] at hsome
  cases hsome

theorem IsUnit.quote_notMem {unit : Nat} {digits : List Char} (h : IsUnit unit (unsignedUnit digits)) :
    '"' ∉ digits := h.notMem rfl (by decide)

/-- An escape is read from its own characters, and a quote is none of them but the first. -/
theorem exists_escape_of_escape? {text : List Char} {c : Char} {used : Nat} (h : escape? text = some (c, used)) :
    ∃ escape behind, text = escape ++ behind ∧ escape.length = used ∧ '"' ∉ escape.tail ∧
      ∀ rest, escape? (escape ++ rest) = some (c, used) := by
  have hunits {digits : List Char} {unit : Nat} (h : IsUnit unit (unsignedUnit digits)) (rest : List Char) :
      codeUnit? (digits ++ rest) = some unit := codeUnit?_eq_some_iff.2 ⟨digits, rest, rfl, h⟩
  unfold escape? at h
  split at h
  case h_9 more =>
    obtain ⟨⟨d, width⟩, hread, heq⟩ := Option.map_eq_some_iff.1 h
    cases heq
    rcases unitEscape?_cases hread with ⟨digits, behind, rfl, rfl, hunit⟩ |
      ⟨high, low, digits, digits', behind, rfl, rfl, hhigh, hlow, hrange, hrange', hcode⟩
    · refine ⟨'u' :: digits, behind, rfl, by rw [List.length_cons, hunit.length_eq], hunit.quote_notMem, fun rest => ?_⟩
      show (unitEscape? (digits ++ rest)).map _ = _
      rw [unitEscape?_unit (hunits hunit rest)]
      rfl
    · refine ⟨'u' :: (digits ++ '\\' :: 'u' :: digits'), behind, by simp, ?_, ?_, fun rest => ?_⟩
      · simp [hhigh.length_eq, hlow.length_eq]
      · simp [hhigh.quote_notMem, hlow.quote_notMem]
      · have htext : digits ++ '\\' :: 'u' :: digits' ++ rest = digits ++ ('\\' :: 'u' :: (digits' ++ rest)) := by simp
        have hbehind : (digits ++ ('\\' :: 'u' :: (digits' ++ rest))).drop 4 = '\\' :: 'u' :: (digits' ++ rest) := by
          rw [← hhigh.length_eq, List.drop_left]
        show (unitEscape? (digits ++ '\\' :: 'u' :: digits' ++ rest)).map _ = _
        rw [htext, unitEscape?_pair (hunits hhigh _) hbehind (hunits hlow rest) hrange.1 hrange.2 hrange'.1 hrange'.2
          hcode]
        rfl
  case h_10 => cases h
  all_goals
    cases h
    exact ⟨[_], _, rfl, rfl, List.not_mem_nil, fun rest => rfl⟩

section

variable {s t v : List Char}

/-- An escape is one whatever stands behind it. -/
theorem escape?_of_length_le {c : Char} {used : Nat} (h : escape? (s ++ t) = some (c, used)) (hused : used ≤ s.length)
    (t' : List Char) : escape? (s ++ t') = some (c, used) := by
  obtain ⟨escape, behind, htext, rfl, -, hescape⟩ := exists_escape_of_escape? h
  obtain ⟨more, rfl⟩ : escape <+: s :=
    List.prefix_of_prefix_length_le (htext ▸ List.prefix_append escape behind) (List.prefix_append s t) hused
  rw [List.append_assoc]
  exact hescape _

/-- The lexer does not look behind the next quote for an escape. -/
theorem escape?_eq_none (h : escape? (s ++ '"' :: t) = none) (hs : '"' ∉ s) (t' : List Char) :
    escape? (s ++ '"' :: t') = none := by
  refine Option.eq_none_iff_forall_ne_some.2 ?_
  rintro ⟨c, used⟩ hsome
  by_cases hused : used ≤ s.length
  · rw [escape?_of_length_le hsome hused] at h
    cases h
  · obtain ⟨escape, behind, htext, hlength, hquote, -⟩ := exists_escape_of_escape? hsome
    have hfront : s ++ ['"'] <+: s ++ '"' :: t' := ⟨t', by simp⟩
    obtain ⟨more, rfl⟩ : s ++ ['"'] <+: escape := by
      refine List.prefix_of_prefix_length_le hfront ⟨behind, htext.symm⟩ ?_
      rw [List.length_append, List.length_singleton]
      omega
    cases s with
    | nil => cases h
    | cons d s => exact hquote (by simp)

/-- What makes a string malformed stands in front of the next quote. -/
theorem stringBody_front {skip before : Nat} (h : stringBody (s ++ '"' :: t) skip = .badEscape before (v ++ '"' :: t))
    (hv : '"' ∉ v) (t' : List Char) :
    stringBody (s ++ '"' :: t') skip = .badEscape before (v ++ '"' :: t') := by
  induction s generalizing skip before with
  | nil =>
    obtain ⟨read, hread, hlength⟩ := exists_append_of_badEscape h
    have hlengths := congrArg List.length hread
    simp only [List.nil_append, List.length_append, List.length_cons] at hlengths
    omega
  | cons c s ih =>
    cases skip with
    | succ skip => exact ih h
    | zero =>
      rw [List.cons_append, stringBody] at h ⊢
      split at h
      · cases h
      · next hquote =>
        rw [if_neg hquote]
        split at h
        · next hslash =>
          rw [if_pos hslash]
          cases hescape : escape? (s ++ '"' :: t) with
          | none =>
            rw [hescape] at h
            obtain ⟨rfl, hafter⟩ := StringBody.badEscape.inj h
            obtain rfl := List.append_cancel_right hafter
            rw [escape?_eq_none hescape hv]
          | some p =>
            obtain ⟨d, used⟩ := p
            rw [hescape] at h
            obtain ⟨before', hbody, rfl⟩ := StringBody.cons_eq_badEscape h
            obtain ⟨read, hread, hlength⟩ := exists_append_of_badEscape hbody
            have hlengths := congrArg List.length hread
            simp only [List.length_append, List.length_cons] at hlengths
            rw [escape?_of_length_le hescape (by omega)]
            dsimp only
            rw [ih hbody]
            rfl
        · next hslash =>
          rw [if_neg hslash]
          obtain ⟨before', hbody, rfl⟩ := StringBody.cons_eq_badEscape h
          rw [ih hbody]
          rfl

end

/-- A bad escape takes the text up to the next quote with it. -/
theorem stringLexeme_of_badEscape {source v t : List Char} {before : Nat}
    (h : stringBody source 0 = .badEscape before (v ++ '"' :: t)) (hv : '"' ∉ v) :
    stringLexeme source = (.fault (.invalidEscape (.ofList (v.take 5))) (before + 1), before + 2 + v.length + 1) := by
  have hcovered : (v ++ '"' :: t).takeWhile (· != '"') = v :=
    Text.takeWhile_append_of_head (fun c hc => bne_iff_ne.2 fun heq => hv (heq ▸ hc)) (by simp)
  have hquote : v.length < (v ++ '"' :: t).length := by simp
  unfold stringLexeme
  rw [h]
  dsimp only
  rw [hcovered, if_pos hquote]

theorem stringLexeme_front {m : Char} {u y : List Char} (h : (stringLexeme (u ++ m :: y)).2 ≤ u.length + 1)
    (y' : List Char) : stringLexeme (u ++ m :: y') = stringLexeme (u ++ m :: y) := by
  cases hbody : stringBody (u ++ m :: y) 0 with
  | closed value n =>
    have hn : n ≤ u.length := by
      unfold stringLexeme at h
      rw [hbody] at h
      exact Nat.le_of_succ_le_succ h
    refine stringLexeme_of_take_eq hbody ?_
    rw [List.take_append_of_le_length hn, List.take_append_of_le_length hn]
  | unclosed =>
    unfold stringLexeme at h
    rw [hbody] at h
    simp only [List.length_append, List.length_cons] at h
    omega
  | badEscape before after =>
    obtain ⟨read, hread, hlength⟩ := exists_append_of_badEscape hbody
    by_cases hquote : '"' ∈ after
    · obtain ⟨v, t, rfl, hv⟩ := List.eq_append_cons_of_mem hquote
      have hlexeme := stringLexeme_of_badEscape hbody hv
      rw [hlexeme] at h
      -- the quote that ends the fault stands in front of the mark
      have hfront : read ++ v ++ ['"'] <+: u ++ m :: y := ⟨t, by rw [hread]; simp⟩
      obtain ⟨more, rfl⟩ : read ++ v ++ ['"'] <+: u := by
        refine List.prefix_of_prefix_length_le hfront (List.prefix_append _ _) ?_
        simp only [List.length_append, List.length_singleton]
        omega
      have hsource (y : List Char) : read ++ v ++ ['"'] ++ more ++ m :: y = read ++ v ++ '"' :: (more ++ m :: y) := by
        simp
      have ht : t = more ++ m :: y := by simpa using hread.symm
      rw [hsource, ht] at hbody
      rw [hlexeme, hsource]
      exact stringLexeme_of_badEscape (stringBody_front hbody hv _) hv
    · have hcovered : after.takeWhile (· != '"') = after :=
        List.takeWhile_eq_self_iff.2 fun c hc => bne_iff_ne.2 fun heq => hquote (heq ▸ hc)
      have hlengths := congrArg List.length hread
      unfold stringLexeme at h
      rw [hbody] at h
      simp only [hcovered, List.length_append, List.length_cons] at h hlengths
      omega

/-- **A lexeme in front of a brace, a comma or a quote** does not depend on what stands behind it. -/
theorem lexemeAt_front {m c : Char} (hm : standsApart m = true) {u y : List Char}
    (h : (lexemeAt c (u ++ m :: y)).2 ≤ u.length + 1) (y' : List Char) :
    lexemeAt c (u ++ m :: y') = lexemeAt c (u ++ m :: y) := by
  by_cases hcomment : c = '#'
  · subst hcomment
    have hread : 1 + ((u ++ m :: y).takeWhile (· != '\n')).length ≤ u.length + 1 := h
    have hlength : ((u ++ m :: y).takeWhile (· != '\n')).length ≤ u.length := by omega
    have hmark : (m != '\n') = true := bne_iff_ne.2 (ne_of_standsApart hm rfl)
    have hline := takeWhile_of_length_le (p := (· != '\n')) hmark hlength y'
    show (Lexeme.blank, 1 + ((u ++ m :: y').takeWhile (· != '\n')).length) = _
    rw [hline]
    rfl
  by_cases hquote : c = '"'
  · subst hquote
    exact stringLexeme_front h y'
  have halone (y : List Char) : lexemeAt c (u ++ m :: y) = lexemeAt c u := by
    have hself : numberLexeme (c :: (u ++ m :: y)) = numberLexeme (c :: u) := numberLexeme_front hm (c :: u) y
    have hname : leadingName (c :: (u ++ m :: y)) = leadingName (c :: u) := leadingName_front hm (c :: u) y
    unfold lexemeAt
    rw [if_neg hcomment, if_neg hcomment, if_neg hquote, if_neg hquote, dotLexeme_front hm, dollarLexeme_front hm,
      pairLexeme_front hm rfl, pairLexeme_front hm rfl, pairLexeme_front hm rfl, head?_front hm rfl, hself, hname]
  rw [halone, halone]

/-! ### Tokens are spelled in one way -/

section

variable {c : Char} {rest : List Char} {kind : TokenKind} {n : Nat}

theorem spells_mark {m : Mark} {text : List Char} (h : m.text.toList = text) : (TokenKind.mark m).Spells text :=
  h ▸ .mark m

theorem spells_of_pairLexeme {second : Char} {joined alone : Mark} (hjoined : joined.text.toList = [c, second])
    (halone : alone.text.toList = [c]) (h : pairLexeme second joined alone rest = (.token kind, n)) :
    kind.Spells ((c :: rest).take n) := by
  cases rest with
  | nil =>
    cases h
    exact spells_mark halone
  | cons d rest =>
    unfold pairLexeme at h
    dsimp only at h
    split at h
    · next hsecond =>
      subst hsecond
      cases h
      exact spells_mark hjoined
    · cases h
      exact spells_mark halone

theorem spells_of_dotLexeme (h : dotLexeme rest = (.token kind, n)) : kind.Spells (('.' :: rest).take n) := by
  unfold dotLexeme at h
  split at h
  · cases h
    exact .mark .doubleDot
  · dsimp only at h
    rcases leadingName_cases rest with hnone | ⟨name, behind, rfl, hname, hread⟩
    · rw [hnone] at h
      cases h
      exact .mark .dot
    · rw [hread, hname.isEmpty, if_neg Bool.false_ne_true] at h
      cases h
      rw [List.take_succ_cons, List.take_left]
      exact spells_field hname

theorem spells_of_dollarLexeme (h : dollarLexeme rest = (.token kind, n)) : kind.Spells (('$' :: rest).take n) := by
  unfold dollarLexeme at h
  dsimp only at h
  rcases leadingName_cases rest with hnone | ⟨name, behind, rfl, hname, hread⟩
  · rw [hnone] at h
    cases h
  · rw [hread, hname.isEmpty, if_neg Bool.false_ne_true] at h
    cases h
    rw [List.take_succ_cons, List.take_left]
    exact spells_variable hname

/-- **A token is taken from its own spelling**, unless it is a string, which has more than one. -/
theorem spells_of_lexemeAt (h : lexemeAt c rest = (.token kind, n)) (hstring : ∀ value, kind ≠ .string value) :
    kind.Spells ((c :: rest).take n) := by
  revert h
  refine lexemeAt_cases (motive := fun c read => read = (.token kind, n) → kind.Spells ((c :: rest).take n))
    c rest ?blank ?comment spells_of_dotLexeme spells_of_dollarLexeme ?quote ?pair ?equal ?number ?word ?single ?stray
  case pair => exact fun c second joined alone hjoined halone h => spells_of_pairLexeme hjoined halone h
  case equal =>
    intro c mark hmark hhead h
    obtain ⟨more, rfl⟩ := List.head?_eq_some_iff.1 hhead
    cases h
    exact spells_mark hmark
  case single =>
    intro c mark hmark h
    cases h
    exact spells_mark hmark
  case quote =>
    intro h
    unfold stringLexeme at h
    split at h <;> cases h
    exact absurd rfl (hstring _)
  case number =>
    intro c hdigit h
    obtain ⟨text, behind, hsource, -, ⟨hnumber, hread⟩ | ⟨wrong, hread⟩⟩ := numberLexeme_reads hdigit rest
    · cases h.symm.trans hread
      have htext : IsNumber (String.ofList text).toList := by rwa [String.toList_ofList]
      have hspells := TokenKind.Spells.number htext
      rw [hsource, List.take_left]
      rwa [String.toList_ofList] at hspells
    · cases h.symm.trans hread
  case word =>
    intro c hstart h
    rcases leadingName_cases (c :: rest) with hnone | ⟨name, behind, hsource, hname, hread⟩
    · rw [leadingName, if_pos hstart] at hnone
      cases hnone
    · rw [hread] at h
      cases h
      rw [hsource, List.take_left]
      exact spells_ofWord hname
  case blank => exact fun _ _ h => by cases h
  case comment => exact fun h => by cases h
  case stray => exact fun _ h => by cases h

/-- **A mark is taken from its own characters.** -/
theorem text_of_lexemeAt_mark {m : Mark} (h : lexemeAt c rest = (.token (.mark m), n)) :
    (c :: rest).take n = m.text.toList := by
  generalize htext : (c :: rest).take n = text
  have hspells : (TokenKind.mark m).Spells text := htext ▸ spells_of_lexemeAt h nofun
  cases hspells
  rfl

end

/-! ### Pieces -/

/-- The characters of pieces one behind the other. -/
def textOf (pieces : List (Lexeme × List Char)) : List Char := pieces.flatMap Prod.snd

section

variable {text gap y y' cs : List Char} {c : Char} {n : Nat} {mark : Mark} {lexeme : Lexeme}
  {pieces front back back' : List (Lexeme × List Char)}

theorem textOf_append (front back : List (Lexeme × List Char)) : textOf (front ++ back) = textOf front ++ textOf back :=
  List.flatMap_append

theorem Pieces.textOf_eq (h : Pieces text pieces) : textOf pieces = text := by
  induction h with
  | done => rfl
  | next _ _ _ ih =>
    rw [textOf, List.flatMap_cons, ← textOf, ih]
    rfl

/-- Behind its first pieces a text is cut as before. -/
theorem Pieces.behind (h : Pieces text (front ++ back)) : Pieces (textOf back) back := by
  induction front generalizing text with
  | nil =>
    rw [List.nil_append] at h
    rwa [h.textOf_eq]
  | cons piece front ih =>
    cases h with
    | next _ _ hbehind => exact ih hbehind

/-- Of what stands behind a lexeme only the first character matters to what the lexeme covers. -/
theorem Lexeme.Covers.of_head? (h : lexeme.Covers cs y) (hhead : y'.head? = y.head?) : lexeme.Covers cs y' := by
  cases h with
  | blank hblank => exact .blank hblank
  | comment htext hend => exact .comment htext (hhead ▸ hend)
  | token hread => exact .token hread
  | fault hahead => exact .fault hahead

/-- The mark in front of a key is the lexeme there, whatever follows. -/
theorem lexemeAt_leadsKey (hc : leadsKey c = true) (y : List Char) :
    ∃ mark, lexemeAt c y = (.token (.mark mark), 1) ∧ lexemeAt c [] = (.token (.mark mark), 1) := by
  rcases eq_of_leadsKey hc with rfl | rfl
  · exact ⟨.leftBrace, rfl, rfl⟩
  · exact ⟨.comma, rfl, rfl⟩

/-- **What stands behind a brace, a comma or a quote can be exchanged**: what stands in front of it is cut as
before. -/
theorem Pieces.exchange_front (hc : standsApart c = true) (h : Pieces (textOf front ++ c :: y) (front ++ back))
    (hback : Pieces (c :: y') back') : Pieces (textOf front ++ c :: y') (front ++ back') := by
  induction front with
  | nil => exact hback
  | cons piece front ih =>
    generalize htext : textOf (piece :: front) ++ c :: y = text at h
    cases h with
    | @next d cs behind lexeme _ hread hcovers hbehind =>
      have hparts : d :: cs ++ (textOf front ++ c :: y) = d :: cs ++ behind := by
        rw [← List.append_assoc]
        exact htext
      obtain rfl := List.append_cancel_left hparts
      have hhead : (textOf front ++ c :: y').head? = (textOf front ++ c :: y).head? := by
        cases textOf front <;> rfl
      have hread' : lexemeAt d (cs ++ (textOf front ++ c :: y')) = (lexeme, cs.length + 1) := by
        rw [← List.append_assoc] at hread ⊢
        rw [← hread]
        refine lexemeAt_front hc ?_ y'
        rw [hread, List.length_append]
        dsimp only
        omega
      have hnext := Pieces.next hread' (hcovers.of_head? hhead) (ih hbehind)
      rwa [textOf, List.flatMap_cons, ← textOf, List.append_assoc]

/-- A brace or a comma in front of a key is cut as before, too. -/
theorem Pieces.exchange (hc : leadsKey c = true) (h : Pieces text (front ++ (lexeme, [c]) :: back))
    (hback : Pieces y' back') : Pieces (textOf front ++ c :: y') (front ++ (lexeme, [c]) :: back') := by
  have htext : textOf front ++ c :: textOf back = text := by
    rw [← h.textOf_eq, textOf_append]
    rfl
  refine (htext ▸ h).exchange_front (standsApart_of_leadsKey hc) ?_
  have hmark := h.behind
  generalize textOf ((lexeme, [c]) :: back) = text' at hmark
  cases hmark with
  | @next _ _ behind _ _ hread _ _ =>
    obtain ⟨mark, hmark, halone⟩ := lexemeAt_leadsKey hc behind
    obtain ⟨mark', hmark', halone'⟩ := lexemeAt_leadsKey hc y'
    obtain rfl : mark = mark' := by
      rw [halone] at halone'
      cases halone'
      rfl
    obtain rfl : lexeme = .token (.mark mark) := congrArg Prod.fst (hread.symm.trans hmark)
    have hnext : Pieces (c :: ([] ++ y')) ((.token (.mark mark), [c]) :: back') :=
      .next hmark' (.token halone) hback
    exact hnext

/-- Behind a gap a text can be exchanged, too, as long as no comment goes on. -/
theorem Pieces.exchange_gap {gap : List (Lexeme × List Char)} (hgap : ∀ piece ∈ gap, piece.1 = .blank)
    (h : Pieces text (gap ++ back)) (hhead : ∃ c ∈ (textOf back).head?, c ≠ '\n') (hback : Pieces y' back') :
    Pieces (textOf gap ++ y') (gap ++ back') := by
  induction gap generalizing text with
  | nil => exact hback
  | cons piece gap ih =>
    cases h with
    | @next c cs behind lexeme' _ hread hcovers hbehind =>
      change Pieces behind (gap ++ back) at hbehind
      obtain ⟨hblank, hothers⟩ := List.forall_mem_cons.1 hgap
      obtain rfl : lexeme' = .blank := hblank
      obtain rfl : textOf gap ++ textOf back = behind := by rw [← hbehind.textOf_eq, textOf_append]
      have hrest := ih hothers hbehind
      have hnext : lexemeAt c (cs ++ (textOf gap ++ y')) = (.blank, cs.length + 1) ∧
          Lexeme.blank.Covers (c :: cs) (textOf gap ++ y') := by
        cases hcovers with
        | blank hblank => exact ⟨if_pos hblank, .blank hblank⟩
        | comment htext hend =>
          -- the line end that ends the comment is in the gap
          obtain ⟨more, hmore⟩ : ∃ more, textOf gap = '\n' :: more := by
            cases hends : textOf gap with
            | nil =>
              obtain ⟨c, hc, hne⟩ := hhead
              rw [hends] at hend
              exact absurd (hend c hc) hne
            | cons d more =>
              rw [hends] at hend
              exact ⟨more, by rw [hend d rfl]⟩
          rw [hmore]
          have hline : (cs ++ '\n' :: (more ++ y')).takeWhile (· != '\n') = cs :=
            Text.takeWhile_append_of_head (fun c hc => bne_iff_ne.2 fun heq => htext (heq ▸ hc)) (by simp)
          refine ⟨?_, .comment htext (by simp)⟩
          show (Lexeme.blank, 1 + ((cs ++ '\n' :: (more ++ y')).takeWhile (· != '\n')).length) = _
          rw [hline, Nat.add_comm]
      have hpieces := Pieces.next hnext.1 hnext.2 hrest
      rwa [textOf, List.flatMap_cons, ← textOf, List.append_assoc]

end

end JsonFilter.Filter
