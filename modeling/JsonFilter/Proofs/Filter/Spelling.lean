import JsonFilter.Filter.Lexer
import JsonFilter.Proofs.Text.Bytes
import Mathlib.Data.List.Basic

/-!
# Spelled tokens

The texts that tokens can be written with, and the lexer on each of them.  The words and marks have one
spelling; a string has many, since every character can be written by an escape.

## Longest match

The lexer takes the longest lexeme, so that a token can be read back only where the text behind it does not
go on with it.  A blank or a comment never does, whatever the token (`AtGap`).

* `TokenKind.Spells` — the spellings of the tokens.
* **`lexemeAt_spelled`** — a spelled token in front of a gap is the lexeme there.
-/

namespace JsonFilter.Filter

/-! ### Gaps -/

/-- Whether a gap between tokens can begin with a character: a blank or the mark of a comment. -/
def beginsGap (c : Char) : Bool := Text.isBlank c || c == '#'

/-- The text is over or goes on with a gap. -/
def AtGap (rest : List Char) : Prop := ∀ c ∈ rest.head?, beginsGap c = true

/-- The letters stand in two places of ASCII. -/
theorem toNat_of_isAlpha {c : Char} (h : c.isAlpha = true) :
    65 ≤ c.toNat ∧ c.toNat ≤ 90 ∨ 97 ≤ c.toNat ∧ c.toNat ≤ 122 := by
  have hcases : c.isUpper = true ∨ c.isLower = true := (Bool.or_eq_true _ _).mp h
  rcases hcases with hupper | hlower
  · exact .inl (of_decide_eq_true hupper)
  · have hrange := (Bool.and_eq_true _ _).mp hlower
    exact .inr ⟨of_decide_eq_true hrange.1, of_decide_eq_true hrange.2⟩

theorem toNat_of_isNamePart {c : Char} (h : isNamePart c = true) : 48 ≤ c.toNat ∧ c.toNat ≤ 122 := by
  simp only [isNamePart, Char.isAlphanum, Bool.or_eq_true, beq_iff_eq] at h
  rcases h with (hletter | hdigit) | rfl
  · have hrange := toNat_of_isAlpha hletter
    omega
  · have hrange : 48 ≤ c.toNat ∧ c.toNat ≤ 57 := Char.isDigit_iff_toNat.1 hdigit
    omega
  · decide

/-- No name or number goes on with the character of a gap. -/
theorem isNamePart_of_beginsGap {c : Char} (h : beginsGap c = true) : isNamePart c = false := by
  cases hname : isNamePart c with
  | false => rfl
  | true =>
    obtain ⟨hlow, hhigh⟩ := toNat_of_isNamePart hname
    simp only [beginsGap, Text.isBlank, Bool.or_eq_true, Bool.and_eq_true, decide_eq_true_eq,
      beq_iff_eq] at h
    rcases h with h | rfl
    · omega
    · cases hname

theorem isNamePart_of_isNameStart {c : Char} (h : isNameStart c = true) : isNamePart c = true := by
  simp only [isNameStart, isNamePart, Char.isAlphanum, Bool.or_eq_true] at h ⊢
  exact h.imp_left .inl

/-- No name begins with a digit. -/
theorem isDigit_of_isNameStart {c : Char} (h : isNameStart c = true) : c.isDigit = false := by
  rw [Bool.eq_false_iff]
  intro hdigit
  have hrange : 48 ≤ c.toNat ∧ c.toNat ≤ 57 := Char.isDigit_iff_toNat.1 hdigit
  simp only [isNameStart, Bool.or_eq_true, beq_iff_eq] at h
  rcases h with hletter | rfl
  · have hletters := toNat_of_isAlpha hletter
    omega
  · cases hdigit

theorem isNamePart_of_isDigit {c : Char} (h : c.isDigit = true) : isNamePart c = true := by
  simp only [isNamePart, Char.isAlphanum, h, Bool.or_true, Bool.true_or]

theorem isDigit_of_beginsGap {c : Char} (h : beginsGap c = true) : c.isDigit = false :=
  Bool.eq_false_iff.2 fun hdigit =>
    Bool.noConfusion ((isNamePart_of_isDigit hdigit).symm.trans (isNamePart_of_beginsGap h))

theorem isNameStart_of_beginsGap {c : Char} (h : beginsGap c = true) : isNameStart c = false :=
  Bool.eq_false_iff.2 fun hstart =>
    Bool.noConfusion ((isNamePart_of_isNameStart hstart).symm.trans (isNamePart_of_beginsGap h))

/-- A letter before `rest` that begins no gap is not the head of it. -/
theorem AtGap.head?_ne {rest : List Char} (h : AtGap rest) {c : Char} (hc : beginsGap c = false) :
    rest.head? ≠ some c := fun heq => Bool.noConfusion ((h c heq).symm.trans hc)

/-! ### Names -/

/-- A name: a letter or an underscore, and then letters, digits and underscores. -/
inductive IsName : List Char → Prop
  | intro {c : Char} {parts : List Char} :
    isNameStart c = true → (∀ d ∈ parts, isNamePart d = true) → IsName (c :: parts)

theorem leadingName_append {name rest : List Char} (h : IsName name) (hrest : AtGap rest) :
    leadingName (name ++ rest) = name := by
  obtain ⟨hc, hparts⟩ := h
  rw [List.cons_append, leadingName, if_pos hc,
    Text.takeWhile_append_of_head hparts fun c hhead => isNamePart_of_beginsGap (hrest c hhead)]

/-! ### Numbers -/

/-- Digits, at least one. -/
def IsDigits (text : List Char) : Prop := text ≠ [] ∧ ∀ c ∈ text, c.isDigit = true

/-- A fraction, which may be missing. -/
inductive IsFraction : List Char → Prop
  | missing : IsFraction []
  | point {digits : List Char} : IsDigits digits → IsFraction ('.' :: digits)

/-- An exponent, which may be missing. -/
inductive IsExponent : List Char → Prop
  | missing : IsExponent []
  | mark {letter : Char} {sign digits : List Char} : letter = 'e' ∨ letter = 'E' →
    sign = [] ∨ sign = ['+'] ∨ sign = ['-'] → IsDigits digits → IsExponent (letter :: (sign ++ digits))

/-- A number: digits, a fraction and an exponent. -/
inductive IsNumber : List Char → Prop
  | intro {whole fraction exponent : List Char} :
    IsDigits whole → IsFraction fraction → IsExponent exponent → IsNumber (whole ++ (fraction ++ exponent))

/-! ### Strings -/

/-- The characters that have short escapes, with the letters of these. -/
def shortEscapes : List (Char × Char) :=
  [('"', '"'), ('\\', '\\'), ('/', '/'), ('\n', 'n'), ('\t', 't'), ('\r', 'r'), ('\x08', 'b'),
    ('\x0c', 'f')]

/-- Four hexadecimal digits of either case, for a code unit. -/
def IsUnit (unit : Nat) (digits : List Char) : Prop :=
  digits.length = 4 ∧ Text.hexRun? digits = some unit

/-- What can follow a backslash to make a character: the letter of a short escape, the code point, or the
two halves of a surrogate pair. -/
inductive Escapes : Char → List Char → Prop
  | short {c letter : Char} : (c, letter) ∈ shortEscapes → Escapes c [letter]
  | unit {c : Char} {digits : List Char} : IsUnit c.toNat digits → Escapes c ('u' :: digits)
  | pair {c : Char} {high low : Nat} {digits digits' : List Char} : IsUnit high digits → IsUnit low digits' →
    0xD800 ≤ high → high < 0xDC00 → 0xDC00 ≤ low → low < 0xE000 →
    c.toNat = 0x10000 + (high - 0xD800) * 0x400 + (low - 0xDC00) →
    Escapes c ('u' :: (digits ++ '\\' :: 'u' :: digits'))

/-- How a text can stand between quotes: every character by an escape, or for itself, if it is neither a
quote nor a backslash. -/
inductive IsBody : List Char → List Char → Prop
  | nil : IsBody [] []
  | plain {c : Char} {text body : List Char} : c ≠ '"' → c ≠ '\\' → IsBody text body →
    IsBody (c :: text) (c :: body)
  | escaped {c : Char} {escape text body : List Char} : Escapes c escape → IsBody text body →
    IsBody (c :: text) ('\\' :: (escape ++ body))

/-- Every text can be written. -/
theorem exists_isBody (text : List Char) : ∃ body, IsBody text body := by
  induction text with
  | nil => exact ⟨[], .nil⟩
  | cons c text ih =>
    obtain ⟨body, hbody⟩ := ih
    by_cases hquote : c = '"'
    · have hescape : Escapes c ['"'] := .short (by rw [hquote]; decide)
      exact ⟨_, .escaped hescape hbody⟩
    · by_cases hslash : c = '\\'
      · have hescape : Escapes c ['\\'] := .short (by rw [hslash]; decide)
        exact ⟨_, .escaped hescape hbody⟩
      · exact ⟨_, .plain hquote hslash hbody⟩

/-! ### Tokens -/

/-- The spellings of the tokens. -/
inductive TokenKind.Spells : TokenKind → List Char → Prop
  | keyword (word : Keyword) : Spells (.keyword word) word.text.toList
  | mark (mark : Mark) : Spells (.mark mark) mark.text.toList
  | identifier {name : String} : IsName name.toList → Keyword.ofText? name = none →
    Spells (.identifier name) name.toList
  | field {name : String} : IsName name.toList → Spells (.field name) ('.' :: name.toList)
  | «variable» {name : String} : IsName name.toList → Spells (.variable name) ('$' :: name.toList)
  | number {text : String} : IsNumber text.toList → Spells (.number text) text.toList
  | string {value : String} {body : List Char} : IsBody value.toList body →
    Spells (.string value) ('"' :: (body ++ ['"']))

/-! ### Lexemes of words -/

section

variable {rest : List Char}

/-- At a letter, a digit or an underscore the lexer reads a number or a word. -/
theorem lexemeAt_of_isNamePart {c : Char} (h : isNamePart c = true) (cs : List Char) :
    lexemeAt c cs =
      if c.isDigit then numberLexeme (c :: cs)
      else (.token (.ofWord (.ofList (leadingName (c :: cs)))), (leadingName (c :: cs)).length) := by
  have hne {d : Char} (hd : isNamePart d = false) : c ≠ d := by
    rintro rfl
    exact Bool.noConfusion (h.symm.trans hd)
  have hgap : beginsGap c = false :=
    Bool.eq_false_iff.2 fun hgap => Bool.noConfusion (h.symm.trans (isNamePart_of_beginsGap hgap))
  obtain ⟨hblank, -⟩ := Bool.or_eq_false_iff.1 hgap
  simp only [lexemeAt, hblank, Bool.false_eq_true, if_false, hne (d := '#') rfl, hne (d := '.') rfl,
    hne (d := '$') rfl, hne (d := '"') rfl, hne (d := '/') rfl, hne (d := '<') rfl, hne (d := '>') rfl,
    hne (d := '=') rfl, hne (d := '!') rfl, decide_false, Bool.false_and]
  split
  · rfl
  · rename_i hdigit
    have hstart : isNameStart c = true := by
      simpa only [isNamePart, isNameStart, Char.isAlphanum, hdigit, Bool.or_false] using h
    rw [if_pos hstart]

/-- A name in front of a gap. -/
theorem lexemeAt_name {name : List Char} (h : IsName name) (hrest : AtGap rest) :
    ∃ c cs, name = c :: cs ∧
      lexemeAt c (cs ++ rest) = (.token (.ofWord (.ofList name)), name.length) := by
  obtain @⟨c, parts, hc, hparts⟩ := h
  have hname := leadingName_append (.intro hc hparts) hrest
  refine ⟨c, parts, rfl, ?_⟩
  rw [lexemeAt_of_isNamePart (isNamePart_of_isNameStart hc), isDigit_of_isNameStart hc,
    if_neg Bool.false_ne_true, ← List.cons_append, hname]

theorem Keyword.ofText?_text (word : Keyword) : Keyword.ofText? word.text = some word := by
  cases word <;> rfl

theorem Keyword.isName_text (word : Keyword) : IsName word.text.toList := by
  cases word <;> exact .intro rfl (List.all_eq_true.1 rfl)

/-! ### Lexemes of marks -/

theorem pairLexeme_alone {second : Char} {joined alone : Mark} (h : rest.head? ≠ some second) :
    pairLexeme second joined alone rest = markLexeme alone 1 := by
  cases rest with
  | nil => rfl
  | cons c rest => exact if_neg fun heq => h (congrArg some heq)

theorem dotLexeme_of_head {cs : List Char} (h : cs.head? ≠ some '.') :
    dotLexeme cs =
      if (leadingName cs).isEmpty then markLexeme .dot 1
      else (.token (.field (.ofList (leadingName cs))), (leadingName cs).length + 1) := by
  unfold dotLexeme
  split
  · exact absurd rfl h
  · rfl

theorem dotLexeme_alone (h : AtGap rest) : dotLexeme rest = markLexeme .dot 1 := by
  have hname : leadingName rest = [] := by
    cases rest with
    | nil => rfl
    | cons c rest => exact if_neg (by simp [isNameStart_of_beginsGap (h c rfl)])
  rw [dotLexeme_of_head (h.head?_ne rfl), hname]
  rfl

theorem lexemeAt_mark (mark : Mark) (hrest : AtGap rest) :
    ∃ c cs, mark.text.toList = c :: cs ∧
      lexemeAt c (cs ++ rest) = (.token (.mark mark), mark.text.toList.length) := by
  cases mark with
  | dot => exact ⟨'.', [], rfl, dotLexeme_alone hrest⟩
  | slash => exact ⟨'/', [], rfl, pairLexeme_alone (hrest.head?_ne rfl)⟩
  | less => exact ⟨'<', [], rfl, pairLexeme_alone (hrest.head?_ne rfl)⟩
  | greater => exact ⟨'>', [], rfl, pairLexeme_alone (hrest.head?_ne rfl)⟩
  | _ => exact ⟨_, _, rfl, rfl⟩

/-! ### Lexemes of fields and variables -/

theorem lexemeAt_field {name : List Char} (h : IsName name) (hrest : AtGap rest) :
    lexemeAt '.' (name ++ rest) = (.token (.field (.ofList name)), name.length + 1) := by
  have hhead : (name ++ rest).head? ≠ some '.' := by
    obtain @⟨c, parts, hc, -⟩ := h
    rintro ⟨⟩
    exact absurd hc (by decide)
  have hnonempty : name.isEmpty = false := by
    obtain ⟨-, -⟩ := h
    rfl
  show dotLexeme (name ++ rest) = _
  rw [dotLexeme_of_head hhead, leadingName_append h hrest, hnonempty, if_neg Bool.false_ne_true]

theorem lexemeAt_variable {name : List Char} (h : IsName name) (hrest : AtGap rest) :
    lexemeAt '$' (name ++ rest) = (.token (.variable (.ofList name)), name.length + 1) := by
  have hnonempty : name.isEmpty = false := by
    obtain ⟨-, -⟩ := h
    rfl
  show dollarLexeme (name ++ rest) = _
  simp only [dollarLexeme, leadingName_append h hrest, hnonempty, if_neg Bool.false_ne_true]

/-! ### Lexemes of numbers -/

theorem leadingDigits_append {digits : List Char} (h : IsDigits digits)
    (hrest : ∀ c ∈ rest.head?, c.isDigit = false) : leadingDigits (digits ++ rest) = digits :=
  Text.takeWhile_append_of_head h.2 hrest

theorem fractionPart_append {fraction : List Char} (h : IsFraction fraction)
    (hdot : rest.head? ≠ some '.') (hrest : ∀ c ∈ rest.head?, c.isDigit = false) :
    fractionPart (fraction ++ rest) = fraction := by
  cases h with
  | missing =>
    rw [List.nil_append]
    unfold fractionPart
    split
    · exact absurd rfl hdot
    · rfl
  | @point digits hdigits =>
    have hnonempty : digits.isEmpty = false := by simpa using hdigits.1
    simp only [List.cons_append, fractionPart, leadingDigits_append hdigits hrest, hnonempty,
      if_neg Bool.false_ne_true]

theorem exponentMark_missing (h : AtGap rest) : exponentMark rest = [] := by
  cases rest with
  | nil => rfl
  | cons c rest =>
    have hc (d : Char) (hd : beginsGap d = false) : c ≠ d := fun heq =>
      h.head?_ne hd (congrArg some heq)
    exact if_neg (by simp [hc 'e' rfl, hc 'E' rfl])

theorem exponentMark_append {letter : Char} {sign digits : List Char} (hletter : letter = 'e' ∨ letter = 'E')
    (hsign : sign = [] ∨ sign = ['+'] ∨ sign = ['-']) (hdigits : IsDigits digits) :
    exponentMark (letter :: (sign ++ (digits ++ rest))) = letter :: sign := by
  have hmark : (letter = 'e' || letter = 'E') = true := by simpa using hletter
  rcases hsign with rfl | rfl | rfl
  · obtain ⟨hnonempty, hall⟩ := hdigits
    cases digits with
    | nil => exact absurd rfl hnonempty
    | cons d digits =>
      have hd := hall d List.mem_cons_self
      have hplus : d ≠ '+' := by
        rintro rfl
        cases hd
      have hminus : d ≠ '-' := by
        rintro rfl
        cases hd
      simp [exponentMark, hletter, hplus, hminus]
  · simp [exponentMark, hletter]
  · simp [exponentMark, hletter]

/-- An exponent in front of a gap begins neither with a digit nor with a point. -/
theorem exponent_head {exponent : List Char} (h : IsExponent exponent) (hrest : AtGap rest) :
    ∀ c ∈ (exponent ++ rest).head?, c.isDigit = false ∧ c ≠ '.' := by
  intro c hc
  cases h with
  | missing =>
    refine ⟨isDigit_of_beginsGap (hrest c hc), ?_⟩
    rintro rfl
    exact hrest.head?_ne rfl hc
  | mark hletter =>
    cases hc
    rcases hletter with rfl | rfl <;> decide

theorem fraction_head {fraction exponent : List Char} (hfraction : IsFraction fraction)
    (hexponent : IsExponent exponent) (hrest : AtGap rest) :
    ∀ c ∈ (fraction ++ (exponent ++ rest)).head?, c.isDigit = false := by
  cases hfraction with
  | missing => exact fun c hc => (exponent_head hexponent hrest c hc).1
  | point =>
    rintro c ⟨⟩
    rfl

/-- A number in front of a gap. -/
theorem numberLexeme_append {text : List Char} (h : IsNumber text) (hrest : AtGap rest) :
    numberLexeme (text ++ rest) = (.token (.number (.ofList text)), text.length) := by
  obtain @⟨whole, fraction, exponent, hwhole, hfraction, hexponent⟩ := h
  let source := whole ++ (fraction ++ (exponent ++ rest))
  have hsource : whole ++ (fraction ++ exponent) ++ rest = source := by
    simp only [source, List.append_assoc]
  have hread : leadingDigits source = whole :=
    leadingDigits_append hwhole (fraction_head hfraction hexponent hrest)
  have hpart : fractionPart (source.drop whole.length) = fraction := by
    rw [List.drop_left]
    exact fractionPart_append hfraction (fun hdot => (exponent_head hexponent hrest _ hdot).2 rfl)
      fun c hc => (exponent_head hexponent hrest c hc).1
  have hmantissa : source.drop (whole ++ fraction).length = exponent ++ rest := by
    rw [show source = (whole ++ fraction) ++ (exponent ++ rest) by simp only [source, List.append_assoc],
      List.drop_left]
  have hbehind {c : Char} {more : List Char} (heq : rest = c :: more) : ¬isNameStart c = true := by
    rw [isNameStart_of_beginsGap (hrest c (by rw [heq]; rfl))]
    exact Bool.false_ne_true
  rw [hsource]
  cases hexponent with
  | missing =>
    rw [List.append_nil]
    simp only [numberLexeme, hread, hpart, hmantissa, List.nil_append, exponentMark_missing hrest,
      List.append_nil, List.isEmpty_nil, Bool.not_true, Bool.false_and, Bool.false_eq_true, if_false, if_true]
    split
    · exact if_neg (hbehind rfl)
    · rfl
  | @mark letter sign digits hletter hsign hdigits =>
    have hmark : exponentMark (letter :: (sign ++ digits) ++ rest) = letter :: sign := by
      rw [List.cons_append, List.append_assoc]
      exact exponentMark_append hletter hsign hdigits
    have hdigits' : leadingDigits (source.drop ((whole ++ fraction) ++ (letter :: sign)).length) = digits := by
      rw [show source = ((whole ++ fraction) ++ (letter :: sign)) ++ (digits ++ rest) by
        simp only [source, List.append_assoc, List.cons_append], List.drop_left]
      exact leadingDigits_append hdigits fun c hc => isDigit_of_beginsGap (hrest c hc)
    have hend : source.drop (((whole ++ fraction) ++ (letter :: sign)) ++ digits).length = rest := by
      rw [show source = (((whole ++ fraction) ++ (letter :: sign)) ++ digits) ++ rest by
        simp only [source, List.append_assoc, List.cons_append], List.drop_left]
    have hnonempty : digits.isEmpty = false := by simpa using hdigits.1
    simp only [numberLexeme, hread, hpart, hmantissa, hmark, hdigits', hend, hnonempty, List.isEmpty_cons,
      Bool.and_false, Bool.false_eq_true, if_false]
    simp only [List.append_assoc, List.cons_append]
    split
    · exact if_neg (hbehind rfl)
    · rfl

/-- A number begins with a digit. -/
theorem IsNumber.cons {text : List Char} (h : IsNumber text) :
    ∃ c cs, text = c :: cs ∧ c.isDigit = true := by
  obtain @⟨whole, fraction, exponent, ⟨hnonempty, hdigits⟩, -, -⟩ := h
  cases whole with
  | nil => exact absurd rfl hnonempty
  | cons c whole => exact ⟨c, _, rfl, hdigits c List.mem_cons_self⟩

/-! ### Lexemes of strings -/

theorem codeUnit?_append {unit : Nat} {digits : List Char} (h : IsUnit unit digits) :
    codeUnit? (digits ++ rest) = some unit := by
  obtain ⟨hlength, hrun⟩ := h
  match digits, hlength with
  | [a, b, c, d], _ =>
    have hplus : a ≠ '+' := by
      rintro rfl
      cases hrun
    simp only [List.cons_append, List.nil_append]
    unfold codeUnit?
    split
    · next heq =>
      cases heq
      exact absurd rfl hplus
    · next heq =>
      cases heq
      exact hrun
    · next hnone => exact absurd rfl (hnone _ _ _ _ _)

theorem charOfCode?_toNat (c : Char) : charOfCode? c.toNat = some c := by
  have hvalid : c.toNat.isValidChar := c.valid
  rw [charOfCode?, if_pos hvalid, Char.ofNat_toNat]

/-- A character is no surrogate. -/
theorem not_surrogate (c : Char) : ¬(0xD800 ≤ c.toNat ∧ c.toNat < 0xDC00) := by
  have hvalid : c.toNat.isValidChar := c.valid
  unfold Nat.isValidChar at hvalid
  omega

/-- One code unit is the code point. -/
theorem unitEscape?_unit {c : Char} (h : codeUnit? rest = some c.toNat) :
    unitEscape? rest = some (c, 4) := by
  rw [unitEscape?, h]
  simp [not_surrogate, charOfCode?_toNat]

/-- Two code units are the halves of a surrogate pair. -/
theorem unitEscape?_pair {c : Char} {high low : Nat} {more : List Char}
    (hhigh : codeUnit? rest = some high) (hmore : rest.drop 4 = '\\' :: 'u' :: more)
    (hlow : codeUnit? more = some low) (hhigh₁ : 0xD800 ≤ high) (hhigh₂ : high < 0xDC00)
    (hlow₁ : 0xDC00 ≤ low) (hlow₂ : low < 0xE000)
    (hcode : c.toNat = 0x10000 + (high - 0xD800) * 0x400 + (low - 0xDC00)) :
    unitEscape? rest = some (c, 10) := by
  rw [unitEscape?, hhigh]
  simp [hmore, hlow, hhigh₁, hhigh₂, hlow₁, hlow₂, ← hcode, charOfCode?_toNat]

theorem escape?_append {c : Char} {escape : List Char} (h : Escapes c escape) :
    escape? (escape ++ rest) = some (c, escape.length) := by
  cases h with
  | short hmem =>
    simp only [shortEscapes, List.mem_cons, List.not_mem_nil, or_false, Prod.mk.injEq] at hmem
    rcases hmem with ⟨rfl, rfl⟩ | ⟨rfl, rfl⟩ | ⟨rfl, rfl⟩ | ⟨rfl, rfl⟩ | ⟨rfl, rfl⟩ | ⟨rfl, rfl⟩ |
      ⟨rfl, rfl⟩ | ⟨rfl, rfl⟩ <;> rfl
  | @unit digits hunit =>
    show (unitEscape? (digits ++ rest)).map _ = _
    rw [unitEscape?_unit (codeUnit?_append hunit), List.length_cons, hunit.1]
    rfl
  | @pair high low digits digits' hhigh hlow hhigh₁ hhigh₂ hlow₁ hlow₂ hcode =>
    have hbehind : (digits ++ '\\' :: 'u' :: digits' ++ rest).drop 4 = '\\' :: 'u' :: (digits' ++ rest) := by
      rw [List.append_assoc, ← hhigh.1, List.drop_left]
      rfl
    have hunit : codeUnit? (digits ++ '\\' :: 'u' :: digits' ++ rest) = some high := by
      rw [List.append_assoc]
      exact codeUnit?_append hhigh
    show (unitEscape? (digits ++ '\\' :: 'u' :: digits' ++ rest)).map _ = _
    rw [unitEscape?_pair hunit hbehind (codeUnit?_append hlow) hhigh₁ hhigh₂ hlow₁ hlow₂ hcode,
      List.length_cons, List.length_append, List.length_cons, List.length_cons, hhigh.1, hlow.1]
    rfl

theorem stringBody_skip (skipped : List Char) :
    stringBody (skipped ++ rest) skipped.length = stringBody rest 0 := by
  induction skipped with
  | nil => rfl
  | cons c skipped ih => exact ih

theorem stringBody_append {text body : List Char} (h : IsBody text body) :
    stringBody (body ++ '"' :: rest) 0 = .closed text (body.length + 1) := by
  induction h with
  | nil => rfl
  | plain hquote hslash _ ih =>
    rw [List.cons_append, stringBody, if_neg hquote, if_neg hslash, ih]
    rfl
  | @escaped c escape text body hescape _ ih =>
    rw [List.cons_append, List.append_assoc, stringBody, if_neg (by decide), if_pos rfl,
      escape?_append hescape]
    dsimp only
    rw [stringBody_skip, ih, StringBody.cons, List.length_cons, List.length_append]
    congr 1
    omega

theorem lexemeAt_string {text body : List Char} (h : IsBody text body) :
    lexemeAt '"' (body ++ ['"'] ++ rest) =
      (.token (.string (.ofList text)), ('"' :: (body ++ ['"'])).length) := by
  show stringLexeme (body ++ ['"'] ++ rest) = _
  rw [List.append_assoc, List.singleton_append, stringLexeme, stringBody_append h]
  simp

end

/-- **A spelled token in front of a gap is the lexeme there.** -/
theorem lexemeAt_spelled {kind : TokenKind} {text rest : List Char} (h : kind.Spells text)
    (hrest : AtGap rest) :
    ∃ c cs, text = c :: cs ∧ lexemeAt c (cs ++ rest) = (.token kind, text.length) := by
  cases h with
  | keyword word =>
    obtain ⟨c, cs, hcs, hread⟩ := lexemeAt_name word.isName_text hrest
    refine ⟨c, cs, hcs, ?_⟩
    rw [hread, String.ofList_toList, TokenKind.ofWord, Keyword.ofText?_text]
  | mark mark => exact lexemeAt_mark mark hrest
  | @identifier name hname hword =>
    obtain ⟨c, cs, hcs, hread⟩ := lexemeAt_name hname hrest
    refine ⟨c, cs, hcs, ?_⟩
    rw [hread, String.ofList_toList, TokenKind.ofWord, hword]
  | @field name hname =>
    have hread := lexemeAt_field hname hrest
    rw [String.ofList_toList] at hread
    exact ⟨_, _, rfl, hread⟩
  | @«variable» name hname =>
    have hread := lexemeAt_variable hname hrest
    rw [String.ofList_toList] at hread
    exact ⟨_, _, rfl, hread⟩
  | @number text hnumber =>
    obtain ⟨c, cs, hcs, hdigit⟩ := hnumber.cons
    refine ⟨c, cs, hcs, ?_⟩
    rw [lexemeAt_of_isNamePart (isNamePart_of_isDigit hdigit), if_pos hdigit, ← List.cons_append, ← hcs,
      numberLexeme_append hnumber hrest, String.ofList_toList]
  | @string value body hbody =>
    refine ⟨_, _, rfl, ?_⟩
    rw [lexemeAt_string hbody, String.ofList_toList]

end JsonFilter.Filter
