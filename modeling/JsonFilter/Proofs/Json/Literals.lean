import JsonFilter.Json.Printer
import JsonFilter.Json.Reader
import JsonFilter.Proofs.Text.Bytes
import Mathlib.Data.List.Basic

/-!
# Numbers and strings read back

A reader takes the written form of a number or of a string from in front of whatever follows and gives the
number or the string again.  Two things stand in the way.  A number has no end of its own: digits, a
point or the mark of an exponent behind it would belong to it, so that a condition on the rest is
needed (`Ends`).  And a string is read with escapes of different lengths, which the reader skips by
counting; `readStringFrom_escape` takes one escape as a whole.

* **`takes_integer`** — every whole number of 64 bits, signed or not.
* **`takes_string`** — every string; its quotes, backslashes and controls are escaped one by one.
-/

namespace JsonFilter.Json

variable {α : Type} {rest : List Char}

/-- The reader takes the text from in front of the rest, wherever it stands, and gives the value. -/
def Takes (read : Reader α) (text : List Char) (a : α) (rest : List Char) : Prop :=
  ∀ place, ∃ place', read ⟨text ++ rest, place⟩ = .ok (a, ⟨rest, place'⟩)

/-- What may follow a value: nothing, a comma or the end of a container. -/
def Ends (rest : List Char) : Prop := ∀ c ∈ rest.head?, c = ',' ∨ c = ']' ∨ c = '\x7d'

theorem Input.drop_length (text rest : List Char) (place : Place) :
    Input.drop ⟨text ++ rest, place⟩ text.length = ⟨rest, place.advanceAll text⟩ := by
  rw [Input.drop, List.drop_left, List.take_left]

/-! ### Whole numbers -/

/-- The digit of a number below ten. -/
theorem digitsValue_digitChar {d : Nat} (h : d < 10) : digitsValue [Nat.digitChar d] = d := by
  show 0 * 10 + ((Nat.digitChar d).toNat - 48) = d
  rw [Nat.toNat_digitChar_sub_48_of_lt_ten h]
  omega

theorem Significand.pushWhole_digitChar {m d : Nat} (hd : d < 10) (hfits : m * 10 + d < twoTo 64) :
    pushWhole ⟨m, 0, false⟩ (Nat.digitChar d) = ⟨m * 10 + d, 0, false⟩ := by
  have hdigit := digitsValue_digitChar hd
  have hroom : fits ⟨m, 0, false⟩ (Nat.digitChar d) = true := by
    rw [fits, hdigit]
    exact decide_eq_true hfits
  rw [pushWhole, hroom, hdigit]
  rfl

/-- The digits of a number of 64 bits are all read. -/
theorem Significand.ofWhole_decimalDigits (n : Nat) (h : n < twoTo 64) :
    ofWhole (decimalDigits n) = ⟨n, 0, false⟩ := by
  induction n using Nat.strongRecOn with
  | _ n ih =>
    unfold decimalDigits
    rw [Nat.toDigits_eq_if (by decide)]
    split
    case isTrue hsmall =>
      show pushWhole ⟨0, 0, false⟩ (Nat.digitChar n) = _
      rw [pushWhole_digitChar hsmall (by omega)]
      congr 1
      omega
    case isFalse hlarge =>
      have hfront : ofWhole (Nat.toDigits 10 (n / 10)) = ⟨n / 10, 0, false⟩ :=
        ih (n / 10) (by omega) (by omega)
      rw [ofWhole, List.foldl_append]
      show pushWhole (ofWhole (Nat.toDigits 10 (n / 10))) (Nat.digitChar (n % 10)) = _
      rw [hfront, pushWhole_digitChar (Nat.mod_lt _ (by decide)) (by omega)]
      congr 1
      omega

theorem isDigit_of_mem_decimalDigits {n : Nat} {c : Char} (h : c ∈ decimalDigits n) :
    c.isDigit = true :=
  Nat.isDigit_of_mem_toDigits (by decide) (by decide) h

theorem decimalDigits_ne_nil (n : Nat) : decimalDigits n ≠ [] := Nat.toDigits_ne_nil

/-- Only zero is written with a leading zero. -/
theorem head?_decimalDigits {n : Nat} (h : n ≠ 0) : (decimalDigits n).head? ≠ some '0' := by
  induction n using Nat.strongRecOn with
  | _ n ih =>
    unfold decimalDigits
    rw [Nat.toDigits_eq_if (by decide)]
    split
    case isTrue hsmall =>
      intro heq
      exact h (Nat.digitChar_eq_zero.1 (Option.some.inj heq))
    case isFalse hlarge =>
      have hfront : (Nat.toDigits 10 (n / 10)).head? ≠ some '0' := ih (n / 10) (by omega) (by omega)
      rw [List.head?_append_of_ne_nil _ Nat.toDigits_ne_nil]
      exact hfront

theorem decimalDigits_eq_zero {n : Nat} (h : (decimalDigits n).head? = some '0') :
    decimalDigits n = ['0'] := by
  obtain rfl : n = 0 := by
    by_contra hn
    exact head?_decimalDigits hn h
  rfl

theorem Ends.head?_isDigit (h : Ends rest) : ∀ c ∈ rest.head?, c.isDigit = false := by
  intro c hc
  rcases h c hc with rfl | rfl | rfl <;> rfl

/-- Digits are read up to the end of the number. -/
theorem readNumber_digits (negative : Bool) (digits : List Char) (hdigits : ∀ c ∈ digits, c.isDigit = true)
    (hsome : digits ≠ []) (hzero : digits.head? = some '0' → digits = ['0'])
    (hrest : ∀ c ∈ rest.head?, c.isDigit = false) :
    let sign := if negative then ['-'] else []
    readNumber (sign ++ digits ++ rest) =
      readTail negative (.ofWhole digits) rest (sign.length + digits.length) := by
  intro sign
  have hnegative : ((sign ++ digits ++ rest).head? == some '-') = negative := by
    cases negative with
    | true => rfl
    | false =>
      obtain ⟨d, ds, rfl⟩ := List.exists_cons_of_ne_nil hsome
      have hd : d ≠ '-' := by
        rintro rfl
        exact Bool.noConfusion (hdigits '-' (.head _))
      simpa [sign] using hd
  have hbody : (sign ++ digits ++ rest).drop (if negative then 1 else 0) = digits ++ rest := by
    cases negative <;> rfl
  have hrun : (digits ++ rest).takeWhile Char.isDigit = digits :=
    Text.takeWhile_append_of_head hdigits hrest
  have hlength : (if negative then 1 else 0) = sign.length := by
    cases negative <;> rfl
  unfold readNumber
  simp only [hnegative, hbody, hrun]
  rw [List.drop_left, hlength]
  split
  · exact absurd rfl hsome
  · next heq => cases (hzero rfl)
  · rfl

theorem readTail_whole {negative : Bool} {n offset : Nat} (h : Ends rest) :
    readTail negative ⟨n, 0, false⟩ rest offset = .ok (wholeNumber negative n, offset) := by
  cases rest with
  | nil => rfl
  | cons c rest => rcases h c rfl with rfl | rfl | rfl <;> rfl

/-- **Whole numbers of 64 bits,** signed or unsigned. -/
theorem takes_integer {i : Int} (hlow : -(twoTo 63 : Int) ≤ i) (hhigh : i < twoTo 64) (h : Ends rest) :
    Takes readNumberValue (Number.text (.integer i)) (.integer i) rest := by
  intro place
  have hpower : twoTo 64 = 2 * twoTo 63 := by decide
  have hsign : (if i < 0 then ['-'] else []) = if decide (i < 0) then ['-'] else [] := by
    by_cases hneg : i < 0 <;> simp [hneg]
  have hwhole : wholeNumber (decide (i < 0)) i.natAbs = .integer i := by
    unfold wholeNumber
    by_cases hneg : i < 0
    · have hfits : (decide (0 < i.natAbs) && decide (i.natAbs ≤ twoTo 63)) = true := by
        simp only [Bool.and_eq_true, decide_eq_true_eq]
        omega
      simp only [hneg, hfits, decide_true, Bool.not_true, Bool.false_eq_true, if_false, if_true]
      congr 1
      omega
    · simp only [hneg, decide_false, Bool.not_false, if_true]
      congr 1
      omega
  have hread : readNumber (Number.text (.integer i) ++ rest) =
      .ok (.integer i, (Number.text (.integer i)).length) := by
    have hdigits := readNumber_digits (decide (i < 0)) (decimalDigits i.natAbs)
      (fun c hc => isDigit_of_mem_decimalDigits hc) (decimalDigits_ne_nil _) decimalDigits_eq_zero
      h.head?_isDigit
    rw [Number.text, hsign, hdigits, Significand.ofWhole_decimalDigits _ (by omega), readTail_whole h,
      hwhole, List.length_append]
  refine ⟨place.advanceAll (Number.text (.integer i)), ?_⟩
  rw [readNumberValue, hread]
  show Except.ok (_, Input.drop ⟨_, place⟩ _) = _
  rw [Input.drop_length]

/-! ### Strings -/

theorem readStringFrom_skip (text rest : List Char) (place : Place) (decoded : List Char) :
    readStringFrom (text ++ rest) text.length place decoded =
      readStringFrom rest 0 (place.advanceAll text) decoded := by
  induction text generalizing place with
  | nil => rfl
  | cons c text ih =>
    rw [List.cons_append, List.length_cons, readStringFrom, ih]
    rfl

/-- One escape is read as a whole. -/
theorem readStringFrom_escape {text : List Char} {c : Char} (h : Takes readEscape text c rest)
    (place : Place) (decoded : List Char) :
    ∃ place', readStringFrom ('\\' :: text ++ rest) 0 place decoded =
      readStringFrom rest 0 place' (c :: decoded) := by
  obtain ⟨place', hescape⟩ := h (place.advance '\\')
  refine ⟨(place.advance '\\').advanceAll text, ?_⟩
  have hlength : (text ++ rest).length - rest.length = text.length := by
    rw [List.length_append]
    omega
  rw [List.cons_append, readStringFrom, if_neg (by decide), if_pos rfl, hescape]
  dsimp only
  rw [hlength, readStringFrom_skip]

section

variable {digits digits' : List Char} {c : Char} {unit unit' : Nat}

/-- Four hexadecimal digits are a code unit. -/
theorem takes_codeUnit (hlength : digits.length = 4) (hrun : Text.hexRun? digits = some unit) :
    Takes readCodeUnit digits unit rest := by
  obtain ⟨a, b, c, d, rfl⟩ := List.length_eq_four.1 hlength
  intro place
  refine ⟨place.advanceAll [a, b, c, d], ?_⟩
  simp only [readCodeUnit, List.cons_append, hrun]
  rfl

/-- A character by its code point. -/
theorem takes_unit (hlength : digits.length = 4) (hrun : Text.hexRun? digits = some c.toNat) :
    Takes readEscape ('u' :: digits) c rest := by
  intro place
  obtain ⟨place', hread⟩ := takes_codeUnit hlength hrun (place.advance 'u')
  refine ⟨place', ?_⟩
  have hvalid : c.toNat < 0xD800 ∨ 0xDFFF < c.toNat ∧ c.toNat < 0x110000 := c.valid
  have hlow : (decide (0xDC00 ≤ c.toNat) && decide (c.toNat ≤ 0xDFFF)) = false := by
    simp only [Bool.and_eq_false_iff, decide_eq_false_iff_not]
    omega
  have hlead : (decide (0xD800 ≤ c.toNat) && decide (c.toNat ≤ 0xDBFF)) = false := by
    simp only [Bool.and_eq_false_iff, decide_eq_false_iff_not]
    omega
  show readUnitEscape ⟨digits ++ rest, place.advance 'u'⟩ = _
  unfold readUnitEscape
  refine (congrArg (· >>= _) hread).trans ?_
  show (if _ then _ else if _ then _ else _) = _
  rw [hlow, hlead, if_neg Bool.false_ne_true, if_neg Bool.false_ne_true, Char.ofNat_toNat]
  rfl

/-- A character by the two halves of a surrogate pair. -/
theorem takes_pair (hlength : digits.length = 4) (hrun : Text.hexRun? digits = some unit)
    (hlength' : digits'.length = 4) (hrun' : Text.hexRun? digits' = some unit')
    (hhigh : 0xD800 ≤ unit ∧ unit < 0xDC00) (hlow : 0xDC00 ≤ unit' ∧ unit' < 0xE000)
    (hcode : c.toNat = 0x10000 + (unit - 0xD800) * 0x400 + (unit' - 0xDC00)) :
    Takes readEscape ('u' :: (digits ++ '\\' :: 'u' :: digits')) c rest := by
  intro place
  obtain ⟨between, hread⟩ := @takes_codeUnit ('\\' :: 'u' :: (digits' ++ rest)) digits unit hlength hrun
    (place.advance 'u')
  obtain ⟨place', hread'⟩ := @takes_codeUnit rest digits' unit' hlength' hrun'
    ((between.advance '\\').advance 'u')
  refine ⟨place', ?_⟩
  have hfirst : (decide (0xDC00 ≤ unit) && decide (unit ≤ 0xDFFF)) = false := by
    simp only [Bool.and_eq_false_iff, decide_eq_false_iff_not]
    omega
  have hlead : (decide (0xD800 ≤ unit) && decide (unit ≤ 0xDBFF)) = true := by
    simp only [Bool.and_eq_true, decide_eq_true_eq]
    omega
  have hsecond : (decide (unit' < 0xDC00) || decide (0xDFFF < unit')) = false := by
    simp only [Bool.or_eq_false_iff, decide_eq_false_iff_not]
    omega
  rw [List.cons_append, List.append_assoc]
  show readUnitEscape ⟨digits ++ '\\' :: 'u' :: (digits' ++ rest), place.advance 'u'⟩ = _
  unfold readUnitEscape
  refine (congrArg (· >>= _) hread).trans ?_
  show (if _ then _ else if _ then _ else _) = _
  rw [hfirst, hlead, if_neg Bool.false_ne_true, if_pos rfl]
  show (readCodeUnit ⟨digits' ++ rest, (between.advance '\\').advance 'u'⟩ >>= _) = _
  refine (congrArg (· >>= _) hread').trans ?_
  show (if _ then _ else _) = _
  rw [hsecond, if_neg Bool.false_ne_true, ← hcode, Char.ofNat_toNat]
  rfl

end

/-- Every character is read back from the way it is written in a string. -/
theorem readStringFrom_escapedChar (c : Char) (rest : List Char) (place : Place)
    (decoded : List Char) :
    ∃ place', readStringFrom (escapedChar c ++ rest) 0 place decoded =
      readStringFrom rest 0 place' (c :: decoded) := by
  have hplain (mark : Char) (h : Takes readEscape [mark] c rest) :
      ∃ place', readStringFrom (['\\', mark] ++ rest) 0 place decoded =
        readStringFrom rest 0 place' (c :: decoded) :=
    readStringFrom_escape h place decoded
  have hcode {code : Nat} (h : c.toNat = code) : c = Char.ofNat code := by
    rw [← h, Char.ofNat_toNat]
  unfold escapedChar
  split
  case isTrue heq => exact heq ▸ hplain '"' fun place => ⟨_, by rw [heq]; rfl⟩
  split
  case isTrue heq => exact hplain '\\' fun place => ⟨_, by rw [heq]; rfl⟩
  split
  case isTrue heq => exact hplain 'b' fun place => ⟨_, by rw [hcode heq]; rfl⟩
  split
  case isTrue heq => exact hplain 't' fun place => ⟨_, by rw [heq]; rfl⟩
  split
  case isTrue heq => exact hplain 'n' fun place => ⟨_, by rw [heq]; rfl⟩
  split
  case isTrue heq => exact hplain 'f' fun place => ⟨_, by rw [hcode heq]; rfl⟩
  split
  case isTrue heq => exact hplain 'r' fun place => ⟨_, by rw [heq]; rfl⟩
  split
  case isTrue hcontrol =>
    have hrun : ∀ n < 32, Text.hexRun? ['0', '0', Nat.digitChar (n / 16), Nat.digitChar (n % 16)] = some n := by
      decide
    exact readStringFrom_escape (takes_unit rfl (hrun c.toNat hcontrol)) place decoded
  case isFalse hquote hslash _ _ _ _ _ hcontrol =>
    refine ⟨place.advance c, ?_⟩
    rw [List.singleton_append, readStringFrom, if_neg hquote, if_neg hslash, if_neg hcontrol]

/-- The inside of a string, up to the quote that ends it. -/
theorem readStringFrom_escaped (chars : List Char) (rest : List Char) (place : Place)
    (decoded : List Char) :
    ∃ place', readStringFrom (chars.flatMap escapedChar ++ '"' :: rest) 0 place decoded =
      .ok (.ofList (decoded.reverse ++ chars), ⟨rest, place'⟩) := by
  induction chars generalizing place decoded with
  | nil => exact ⟨place.advance '"', by rw [List.append_nil]; rfl⟩
  | cons c chars ih =>
    obtain ⟨between, hchar⟩ := readStringFrom_escapedChar c
      (chars.flatMap escapedChar ++ '"' :: rest) place decoded
    obtain ⟨place', hrest⟩ := ih between (c :: decoded)
    refine ⟨place', ?_⟩
    rw [List.flatMap_cons, List.append_assoc, hchar, hrest, List.reverse_cons, List.append_assoc]
    rfl

/-- **Strings,** behind the quote that begins them. -/
theorem takes_string (s : String) (rest : List Char) :
    Takes readString (s.toList.flatMap escapedChar ++ ['"']) s rest := by
  intro place
  obtain ⟨place', hread⟩ := readStringFrom_escaped s.toList rest place []
  refine ⟨place', ?_⟩
  rw [readString, List.append_assoc]
  refine hread.trans ?_
  rw [List.reverse_nil, List.nil_append, String.ofList_toList]

end JsonFilter.Json
