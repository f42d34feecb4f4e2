import JsonFilter.Proofs.Filter.StringBodies
import Mathlib.Data.List.TakeWhile

/-!
# Lexemes

What the lexer takes at a place of a text, whatever stands there.  A token is taken as it would be taken if
nothing stood behind it; the longest match alone does not say so, since a character more or less may make
another lexeme of it.  For tokens that have one spelling this is what `lexemeAt_spelled` says about their
spellings, for strings it is what `stringBody_eq_closed_iff` says.

* `Lexeme.Covers` — a lexeme and the characters it takes.
* `lexemeAt_cases` — the ways to begin a lexeme, one premise for each.
* **`lexemeAt_covers`** — at every place the lexer takes at least one character, and a lexeme covers them.
-/

namespace JsonFilter.Filter

/-- A lexeme covers the characters that it takes in front of `behind`: a blank; a comment up to the end of its
line; the characters that are a token by themselves; the characters of a fault, which begins at one of them. -/
inductive Lexeme.Covers : Lexeme → List Char → List Char → Prop
  | blank {c : Char} {behind : List Char} : Text.isBlank c = true → Covers .blank [c] behind
  | comment {text behind : List Char} : '\n' ∉ text → (∀ c ∈ behind.head?, c = '\n') →
    Covers .blank ('#' :: text) behind
  | token {kind : TokenKind} {c : Char} {cs behind : List Char} :
    lexemeAt c cs = (.token kind, cs.length + 1) → Covers (.token kind) (c :: cs) behind
  | fault {wrong : LexFault} {ahead : Nat} {text behind : List Char} : ahead < text.length →
    Covers (.fault wrong ahead) text behind

/-- A reading at a character takes it and the first ones behind it. -/
def Taken (c : Char) (rest : List Char) (read : Lexeme × Nat) : Prop :=
  ∃ cs behind, rest = cs ++ behind ∧ read.2 = cs.length + 1 ∧ read.1.Covers (c :: cs) behind

theorem Taken.of_spells {kind : TokenKind} {c : Char} {cs : List Char} (h : kind.Spells (c :: cs))
    (behind : List Char) : Taken c (cs ++ behind) (.token kind, cs.length + 1) := by
  have hend : AtGap [] := fun d hd => by cases hd
  obtain ⟨d, ds, heq, hread⟩ := lexemeAt_spelled h hend
  cases heq
  rw [List.append_nil] at hread
  exact ⟨cs, behind, rfl, rfl, .token hread⟩

theorem Taken.fault (c : Char) {rest : List Char} (wrong : LexFault) {ahead n : Nat} (hahead : ahead < n)
    (hn : n ≤ rest.length + 1) : Taken c rest (.fault wrong ahead, n) := by
  have hlength : n = (rest.take (n - 1)).length + 1 := by
    rw [List.length_take]
    omega
  refine ⟨rest.take (n - 1), rest.drop (n - 1), (List.take_append_drop _ _).symm, hlength, .fault ?_⟩
  rw [List.length_cons, ← hlength]
  exact hahead

/-! ### Names -/

theorem leadingName_cases (text : List Char) :
    leadingName text = [] ∨ ∃ name behind, text = name ++ behind ∧ IsName name ∧ leadingName text = name := by
  cases text with
  | nil => exact .inl rfl
  | cons c rest =>
    by_cases hstart : isNameStart c = true
    · refine .inr ⟨c :: rest.takeWhile isNamePart, rest.dropWhile isNamePart, ?_,
        .intro hstart fun d hd => List.mem_takeWhile_imp hd, if_pos hstart⟩
      rw [List.cons_append, List.takeWhile_append_dropWhile]
    · exact .inl (if_neg hstart)

theorem spells_ofWord {name : List Char} (h : IsName name) :
    (TokenKind.ofWord (.ofList name)).Spells name := by
  unfold TokenKind.ofWord
  split
  · next word hword =>
    have hfound : (word.text == String.ofList name) = true :=
      List.find?_some (p := fun keyword : Keyword => keyword.text == String.ofList name) hword
    have htext : word.text = String.ofList name := eq_of_beq hfound
    have hspells := TokenKind.Spells.keyword word
    rw [htext, String.toList_ofList] at hspells
    exact hspells
  · next hword =>
    have hname : IsName (String.ofList name).toList := by rwa [String.toList_ofList]
    have hspells := TokenKind.Spells.identifier hname hword
    rwa [String.toList_ofList] at hspells

theorem taken_word {c : Char} (hc : isNameStart c = true) (rest : List Char) :
    Taken c rest (.token (.ofWord (.ofList (leadingName (c :: rest)))), (leadingName (c :: rest)).length) := by
  rcases leadingName_cases (c :: rest) with hnone | ⟨name, behind, hsource, hname, hread⟩
  · rw [leadingName, if_pos hc] at hnone
    cases hnone
  · rw [hread]
    obtain @⟨d, parts, hd, hparts⟩ := hname
    obtain ⟨rfl, rfl⟩ := List.cons.inj hsource
    exact .of_spells (spells_ofWord (.intro hd hparts)) behind

/-! ### Numbers -/

theorem leadingDigits_append_dropWhile (text : List Char) :
    text = leadingDigits text ++ text.dropWhile Char.isDigit := List.takeWhile_append_dropWhile.symm

theorem isDigit_of_mem_leadingDigits {text : List Char} {c : Char} (h : c ∈ leadingDigits text) :
    c.isDigit = true := List.mem_takeWhile_imp h

theorem fractionPart_cases (text : List Char) :
    ∃ behind, text = fractionPart text ++ behind ∧ IsFraction (fractionPart text) := by
  unfold fractionPart
  split
  · next rest =>
    dsimp only
    split
    · exact ⟨_, rfl, .missing⟩
    · next hdigits =>
      refine ⟨rest.dropWhile Char.isDigit, ?_, .point ⟨by simpa using hdigits, fun c => isDigit_of_mem_leadingDigits⟩⟩
      rw [List.cons_append, ← leadingDigits_append_dropWhile]
  · exact ⟨text, rfl, .missing⟩

theorem exponentMark_cases (text : List Char) :
    exponentMark text = [] ∨ ∃ letter sign behind, text = letter :: (sign ++ behind) ∧
      (letter = 'e' ∨ letter = 'E') ∧ (sign = [] ∨ sign = ['+'] ∨ sign = ['-']) ∧
      exponentMark text = letter :: sign := by
  unfold exponentMark
  split
  · next letter rest =>
    split
    · next hletter =>
      have hletter : letter = 'e' ∨ letter = 'E' := by simpa using hletter
      split
      · next sign more =>
        split
        · next hsign =>
          have hsign : sign = '+' ∨ sign = '-' := by simpa using hsign
          exact .inr ⟨letter, [sign], more, rfl, hletter, .inr (hsign.imp (by rintro rfl; rfl) (by rintro rfl; rfl)), rfl⟩
        · exact .inr ⟨letter, [], sign :: more, rfl, hletter, .inl rfl, rfl⟩
      · exact .inr ⟨letter, [], [], rfl, hletter, .inl rfl, rfl⟩
    · exact .inl rfl
  · exact .inl rfl

/-- A reading takes a first part of the text, as a number or as a malformed one. -/
def ReadsNumber (source : List Char) (read : Lexeme × Nat) : Prop :=
  ∃ text behind, source = text ++ behind ∧ text ≠ [] ∧
    (IsNumber text ∧ read = (.token (.number (.ofList text)), text.length) ∨
      ∃ wrong, read = (.fault wrong 0, text.length))

/-- The reading of a number that is written, in front of `rest`. -/
def numberEnd (written rest : List Char) : Lexeme × Nat :=
  match rest with
  | c :: more =>
    if isNameStart c then
      let whole := written ++ (c :: more).takeWhile isNamePart
      (.fault (.malformedNumber (.ofList whole)) 0, whole.length)
    else (.token (.number (.ofList written)), written.length)
  | [] => (.token (.number (.ofList written)), written.length)

theorem IsNumber.readsNumber {written : List Char} (h : IsNumber written) (rest : List Char) :
    ReadsNumber (written ++ rest) (numberEnd written rest) := by
  obtain ⟨c, cs, hwritten, -⟩ := h.cons
  have hne : written ≠ [] := by
    rw [hwritten]
    exact List.cons_ne_nil c cs
  cases rest with
  | nil => exact ⟨written, [], rfl, hne, .inl ⟨h, rfl⟩⟩
  | cons d more =>
    unfold numberEnd
    dsimp only
    split
    · refine ⟨written ++ (d :: more).takeWhile isNamePart, (d :: more).dropWhile isNamePart, ?_,
        List.append_ne_nil_of_left_ne_nil hne _, .inr ⟨_, rfl⟩⟩
      rw [List.append_assoc, List.takeWhile_append_dropWhile]
    · exact ⟨written, d :: more, rfl, hne, .inl ⟨h, rfl⟩⟩

/-- At a digit stands a number or a malformed one. -/
theorem numberLexeme_reads {c : Char} (hc : c.isDigit = true) (cs : List Char) :
    ReadsNumber (c :: cs) (numberLexeme (c :: cs)) := by
  have hwhole : IsDigits (leadingDigits (c :: cs)) := by
    refine ⟨?_, fun d => isDigit_of_mem_leadingDigits⟩
    rw [leadingDigits, List.takeWhile_cons, if_pos hc]
    exact List.cons_ne_nil _ _
  have hsource := leadingDigits_append_dropWhile (c :: cs)
  generalize c :: cs = source at hwhole hsource ⊢
  -- the parts of the number one behind the other
  unfold numberLexeme
  generalize leadingDigits source = whole at hwhole hsource ⊢
  generalize source.dropWhile Char.isDigit = behind at hsource
  subst hsource
  obtain ⟨rest, hbehind, hfraction⟩ := fractionPart_cases behind
  dsimp only
  rw [List.drop_left]
  generalize fractionPart behind = fraction at hfraction hbehind ⊢
  subst hbehind
  rw [← List.append_assoc, List.drop_left]
  rcases exponentMark_cases rest with hmark | ⟨letter, sign, more, rfl, hletter, hsign, hmark⟩
  · have hnumber : IsNumber (whole ++ (fraction ++ [])) := .intro hwhole hfraction .missing
    rw [hmark]
    simp only [List.isEmpty_nil, Bool.not_true, Bool.false_and, Bool.false_eq_true, if_false, if_true,
      List.append_nil, List.drop_left] at hnumber ⊢
    exact hnumber.readsNumber rest
  · rw [hmark]
    have hmarked : whole ++ fraction ++ letter :: (sign ++ more) =
        whole ++ fraction ++ letter :: sign ++ more := by simp only [List.append_assoc, List.cons_append]
    have hdigits := leadingDigits_append_dropWhile more
    rw [hmarked]
    simp only [List.drop_left, List.isEmpty_cons, Bool.not_false, Bool.true_and, Bool.false_eq_true, if_false]
    split
    · refine ⟨whole ++ fraction ++ letter :: sign, more, rfl, ?_, .inr ⟨_, rfl⟩⟩
      exact List.append_ne_nil_of_right_ne_nil _ (List.cons_ne_nil _ _)
    · next hsome =>
      have hdigits' : IsDigits (leadingDigits more) :=
        ⟨by simpa using hsome, fun d => isDigit_of_mem_leadingDigits⟩
      have hnumber : IsNumber (whole ++ (fraction ++ letter :: (sign ++ leadingDigits more))) :=
        .intro hwhole hfraction (.mark hletter hsign hdigits')
      generalize leadingDigits more = digits at hdigits hnumber ⊢
      generalize more.dropWhile Char.isDigit = end' at hdigits
      subst hdigits
      have hwritten : whole ++ (fraction ++ letter :: (sign ++ digits)) =
          whole ++ fraction ++ letter :: sign ++ digits := by simp only [List.append_assoc, List.cons_append]
      rw [hwritten] at hnumber
      rw [← List.append_assoc, List.drop_left]
      exact hnumber.readsNumber end'

theorem taken_numberLexeme {c : Char} (hc : c.isDigit = true) (rest : List Char) :
    Taken c rest (numberLexeme (c :: rest)) := by
  obtain ⟨text, behind, hsource, hne, ⟨hnumber, hread⟩ | ⟨wrong, hread⟩⟩ := numberLexeme_reads hc rest
  · rw [hread]
    cases text with
    | nil => exact absurd rfl hne
    | cons d text =>
      obtain ⟨rfl, rfl⟩ := List.cons.inj hsource
      have htext : IsNumber (String.ofList (c :: text)).toList := by rwa [String.toList_ofList]
      have hspells := TokenKind.Spells.number htext
      rw [String.toList_ofList] at hspells
      exact .of_spells hspells behind
  · have hlength := congrArg List.length hsource
    rw [List.length_append, List.length_cons] at hlength
    rw [hread]
    exact .fault c wrong (List.length_pos_of_ne_nil hne) (by omega)

/-! ### Strings -/

/-- A string ends within the text. -/
theorem stringBody_closed_le {source value : List Char} {n : Nat} (h : stringBody source 0 = .closed value n) :
    n ≤ source.length := by
  obtain ⟨body, rest, rfl, rfl, -⟩ := stringBody_eq_closed_iff.1 h
  rw [List.length_append, List.length_cons]
  omega

theorem StringBody.cons_eq_badEscape {c : Char} {width before : Nat} {after : List Char} {body : StringBody}
    (h : body.cons c width = .badEscape before after) :
    ∃ before', body = .badEscape before' after ∧ before = before' + width := by
  cases body with
  | closed value n => cases h
  | unclosed => cases h
  | badEscape before' after' =>
    cases h
    exact ⟨before', rfl, rfl⟩

/-- The text behind a bad backslash ends the text. -/
theorem exists_append_of_badEscape {source after : List Char} {skip before : Nat}
    (h : stringBody source skip = .badEscape before after) :
    ∃ read, source = read ++ after ∧ read.length = skip + before + 1 := by
  induction source generalizing skip before with
  | nil => cases skip <;> cases h
  | cons c rest ih =>
    cases skip with
    | succ skip =>
      obtain ⟨read, rfl, hread⟩ := @ih skip before h
      exact ⟨c :: read, rfl, by rw [List.length_cons]; omega⟩
    | zero =>
      unfold stringBody at h
      split at h
      · cases h
      · split at h
        · cases hescape : escape? rest with
          | none =>
            rw [hescape] at h
            cases h
            exact ⟨[c], rfl, rfl⟩
          | some p =>
            rw [hescape] at h
            obtain ⟨before', hbody, rfl⟩ := StringBody.cons_eq_badEscape h
            obtain ⟨read, rfl, hread⟩ := ih hbody
            exact ⟨c :: read, rfl, by rw [List.length_cons]; omega⟩
        · obtain ⟨before', hbody, rfl⟩ := StringBody.cons_eq_badEscape h
          obtain ⟨read, rfl, hread⟩ := ih hbody
          exact ⟨c :: read, rfl, by rw [List.length_cons]; omega⟩

theorem taken_stringLexeme (rest : List Char) : Taken '"' rest (stringLexeme rest) := by
  cases hbody : stringBody rest 0 with
  | closed value n =>
    have hread : stringLexeme rest = (.token (.string (.ofList value)), n + 1) := by
      unfold stringLexeme
      rw [hbody]
    have hn := stringBody_closed_le hbody
    have halone : stringLexeme (rest.take n) = stringLexeme rest :=
      stringLexeme_of_take_eq hbody (by rw [List.take_take, Nat.min_self])
    have hlength : (rest.take n).length = n := List.length_take_of_le hn
    rw [hread]
    refine ⟨rest.take n, rest.drop n, (List.take_append_drop n rest).symm, by rw [hlength], .token ?_⟩
    show stringLexeme (rest.take n) = _
    rw [halone, hread, hlength]
  | unclosed =>
    unfold stringLexeme
    rw [hbody]
    exact .fault '"' _ (Nat.succ_pos _) (Nat.le_refl _)
  | badEscape before after =>
    obtain ⟨read, hsource, hread⟩ := exists_append_of_badEscape hbody
    have hlength := congrArg List.length hsource
    rw [List.length_append] at hlength
    have hcovered : (after.takeWhile (· != '"')).length ≤ after.length :=
      (List.takeWhile_prefix _).length_le
    unfold stringLexeme
    rw [hbody]
    dsimp only
    refine .fault '"' _ (by omega) ?_
    split <;> omega

/-! ### Marks -/

theorem text_of_singleMark? {c : Char} {mark : Mark} (h : singleMark? c = some mark) :
    mark.text.toList = [c] := by
  unfold singleMark? at h
  split at h <;> cases h <;> rfl

theorem taken_mark {mark : Mark} {c : Char} {cs : List Char} (h : mark.text.toList = c :: cs)
    (behind : List Char) : Taken c (cs ++ behind) (markLexeme mark (cs.length + 1)) := by
  have hspells := TokenKind.Spells.mark mark
  rw [h] at hspells
  exact .of_spells hspells behind

theorem taken_pairLexeme {c second : Char} {joined alone : Mark} (hjoined : joined.text.toList = [c, second])
    (halone : alone.text.toList = [c]) (rest : List Char) : Taken c rest (pairLexeme second joined alone rest) := by
  cases rest with
  | nil => exact taken_mark halone []
  | cons d rest =>
    unfold pairLexeme
    dsimp only
    split
    · next hsecond =>
      rw [hsecond]
      exact taken_mark hjoined rest
    · exact taken_mark halone (d :: rest)

/-- A mark that ends with an equals sign. -/
theorem taken_equalMark {c : Char} {rest : List Char} {mark : Mark} (hmark : mark.text.toList = [c, '='])
    (hhead : rest.head? = some '=') : Taken c rest (markLexeme mark 2) := by
  obtain ⟨more, rfl⟩ := List.head?_eq_some_iff.1 hhead
  exact taken_mark hmark more

theorem taken_strayLexeme (c : Char) (rest : List Char) : Taken c rest (strayLexeme c) :=
  .fault c _ Nat.one_pos (Nat.succ_le_succ (Nat.zero_le _))

theorem IsName.isEmpty {name : List Char} (h : IsName name) : name.isEmpty = false := by
  cases h
  rfl

theorem spells_field {name : List Char} (h : IsName name) :
    (TokenKind.field (.ofList name)).Spells ('.' :: name) := by
  have hname : IsName (String.ofList name).toList := by rwa [String.toList_ofList]
  have hspells := TokenKind.Spells.field hname
  rwa [String.toList_ofList] at hspells

theorem spells_variable {name : List Char} (h : IsName name) :
    (TokenKind.variable (.ofList name)).Spells ('$' :: name) := by
  have hname : IsName (String.ofList name).toList := by rwa [String.toList_ofList]
  have hspells := TokenKind.Spells.«variable» hname
  rwa [String.toList_ofList] at hspells

theorem taken_dotLexeme (rest : List Char) : Taken '.' rest (dotLexeme rest) := by
  by_cases hdot : rest.head? = some '.'
  · cases rest with
    | nil => cases hdot
    | cons c rest =>
      cases hdot
      exact @taken_mark .doubleDot '.' ['.'] rfl rest
  · rw [dotLexeme_of_head hdot]
    rcases leadingName_cases rest with hnone | ⟨name, behind, rfl, hname, hread⟩
    · rw [hnone]
      exact @taken_mark .dot '.' [] rfl rest
    · rw [hread, hname.isEmpty, if_neg Bool.false_ne_true]
      exact .of_spells (spells_field hname) behind

theorem taken_dollarLexeme (rest : List Char) : Taken '$' rest (dollarLexeme rest) := by
  unfold dollarLexeme
  rcases leadingName_cases rest with hnone | ⟨name, behind, rfl, hname, hread⟩
  · rw [hnone]
    exact taken_strayLexeme '$' rest
  · dsimp only
    rw [hread, hname.isEmpty, if_neg Bool.false_ne_true]
    exact .of_spells (spells_variable hname) behind

/-! ### Lexemes -/

/-- A comment goes up to the end of its line. -/
theorem taken_comment (rest : List Char) : Taken '#' rest (.blank, 1 + (rest.takeWhile (· != '\n')).length) := by
  refine ⟨rest.takeWhile (· != '\n'), rest.dropWhile (· != '\n'), List.takeWhile_append_dropWhile.symm,
    Nat.add_comm _ _, .comment (fun hmem => ?_) fun d hd => ?_⟩
  · simpa using List.mem_takeWhile_imp hmem
  · have hstop := List.head?_dropWhile_not (· != '\n') rest
    rw [hd] at hstop
    simpa using hstop

/-- **The ways to begin a lexeme.**  What holds of each of them holds of the lexeme at any place. -/
theorem lexemeAt_cases {motive : Char → Lexeme × Nat → Prop} (c : Char) (rest : List Char)
    (blank : ∀ c, Text.isBlank c = true → motive c (.blank, 1))
    (comment : motive '#' (.blank, 1 + (rest.takeWhile (· != '\n')).length))
    (dot : motive '.' (dotLexeme rest)) (dollar : motive '$' (dollarLexeme rest))
    (quote : motive '"' (stringLexeme rest))
    (pair : ∀ c second joined alone, joined.text.toList = [c, second] → alone.text.toList = [c] →
      motive c (pairLexeme second joined alone rest))
    (equal : ∀ c mark, mark.text.toList = [c, '='] → rest.head? = some '=' → motive c (markLexeme mark 2))
    (number : ∀ c, c.isDigit = true → motive c (numberLexeme (c :: rest)))
    (word : ∀ c, isNameStart c = true →
      motive c (.token (.ofWord (.ofList (leadingName (c :: rest)))), (leadingName (c :: rest)).length))
    (single : ∀ c mark, mark.text.toList = [c] → motive c (markLexeme mark 1))
    (stray : ∀ c, motive c (strayLexeme c)) : motive c (lexemeAt c rest) := by
  unfold lexemeAt
  by_cases hblank : Text.isBlank c = true
  · rw [if_pos hblank]
    exact blank c hblank
  rw [if_neg hblank]
  by_cases hcomment : c = '#'
  · subst hcomment
    exact comment
  rw [if_neg hcomment]
  by_cases hdot : c = '.'
  · subst hdot
    exact dot
  rw [if_neg hdot]
  by_cases hdollar : c = '$'
  · subst hdollar
    exact dollar
  rw [if_neg hdollar]
  by_cases hquote : c = '"'
  · subst hquote
    exact quote
  rw [if_neg hquote]
  by_cases hslash : c = '/'
  · subst hslash
    exact pair '/' '/' .alternative .slash rfl rfl
  rw [if_neg hslash]
  by_cases hless : c = '<'
  · subst hless
    exact pair '<' '=' .lessEqual .less rfl rfl
  rw [if_neg hless]
  by_cases hgreater : c = '>'
  · subst hgreater
    exact pair '>' '=' .greaterEqual .greater rfl rfl
  rw [if_neg hgreater]
  simp only [Bool.and_eq_true, decide_eq_true_eq, beq_iff_eq]
  by_cases htwice : c = '=' ∧ rest.head? = some '='
  · rw [if_pos htwice]
    exact equal c .equal (by rw [htwice.1]; rfl) htwice.2
  rw [if_neg htwice]
  by_cases hnot : c = '!' ∧ rest.head? = some '='
  · rw [if_pos hnot]
    exact equal c .notEqual (by rw [hnot.1]; rfl) hnot.2
  rw [if_neg hnot]
  by_cases hdigit : c.isDigit = true
  · rw [if_pos hdigit]
    exact number c hdigit
  rw [if_neg hdigit]
  by_cases hstart : isNameStart c = true
  · rw [if_pos hstart]
    exact word c hstart
  rw [if_neg hstart]
  split
  · next mark hmark => exact single c mark (text_of_singleMark? hmark)
  · exact stray c

/-- **What the lexer takes.**  At every place of a text it takes at least one character, and the lexeme covers
what it takes. -/
theorem lexemeAt_covers (c : Char) (rest : List Char) : Taken c rest (lexemeAt c rest) :=
  lexemeAt_cases (motive := fun c => Taken c rest) c rest
    (fun _ hblank => ⟨[], rest, rfl, rfl, .blank hblank⟩)
    (taken_comment rest) (taken_dotLexeme rest) (taken_dollarLexeme rest) (taken_stringLexeme rest)
    (fun _ _ _ _ hjoined halone => taken_pairLexeme hjoined halone rest)
    (fun _ _ hmark hhead => taken_equalMark hmark hhead)
    (fun _ hdigit => taken_numberLexeme hdigit rest)
    (fun _ hstart => taken_word hstart rest)
    (fun _ _ hmark => taken_mark hmark rest)
    (fun c => taken_strayLexeme c rest)

end JsonFilter.Filter
