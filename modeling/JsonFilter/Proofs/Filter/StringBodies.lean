import JsonFilter.Proofs.Filter.Scanning
import JsonFilter.Proofs.Filter.Spelling

/-!
# String literals

Which texts between quotes the lexer takes for a string, and for which one.

A code unit is read like any hexadecimal number, and such a number may begin with a plus sign.  So there are
four characters for a unit that are not four digits; they stand for what the digits with a zero in place of
the sign stand for.  `unsigned` puts the zeros in.

* `unsigned` — a body with digits only.
* **`stringBody_eq_closed_iff`** — the bodies that the lexer takes.
* `stringLexeme_of_take_eq` — what is behind a string does not matter.
-/

namespace JsonFilter.Filter

/-! ### Signs -/

/-- The digits of a code unit, a zero in place of the sign. -/
def unsignedUnit : List Char → List Char
  | '+' :: digits => '0' :: digits
  | digits => digits

/-- A body with a zero in place of the sign of each code unit. -/
def unsigned : List Char → List Char
  | '\\' :: 'u' :: '+' :: rest => '\\' :: 'u' :: '0' :: unsigned rest
  | '\\' :: c :: rest => '\\' :: c :: unsigned rest
  | c :: rest => c :: unsigned rest
  | [] => []

theorem unsignedUnit_of_head {digits : List Char} (h : digits.head? ≠ some '+') :
    unsignedUnit digits = digits := by
  unfold unsignedUnit
  split
  · exact absurd rfl h
  · rfl

theorem length_unsignedUnit (digits : List Char) : (unsignedUnit digits).length = digits.length := by
  unfold unsignedUnit
  split <;> rfl

theorem unsigned_cons {c : Char} (h : c ≠ '\\') (rest : List Char) :
    unsigned (c :: rest) = c :: unsigned rest := by
  rw [unsigned]
  · rintro more ⟨⟩
    exact absurd rfl h
  · rintro d more rfl
    exact absurd rfl h

theorem unsigned_escape {letter : Char} {rest : List Char} (h : letter = 'u' → rest.head? ≠ some '+') :
    unsigned ('\\' :: letter :: rest) = '\\' :: letter :: unsigned rest := by
  rw [unsigned]
  rintro more rfl rfl
  exact absurd rfl (h rfl)

theorem unsigned_append {plain : List Char} (h : ∀ c ∈ plain, c ≠ '\\') (rest : List Char) :
    unsigned (plain ++ rest) = plain ++ unsigned rest := by
  induction plain with
  | nil => rfl
  | cons c plain ih =>
    rw [List.cons_append, unsigned_cons (h c List.mem_cons_self),
      ih fun d hd => h d (List.mem_cons_of_mem c hd), List.cons_append]

theorem unsigned_controls {body : List Char} (h : ∀ c ∈ body, 32 ≤ c.toNat) :
    ∀ c ∈ unsigned body, 32 ≤ c.toNat := by
  fun_induction unsigned body with
  | case1 rest ih =>
    have hrest := (List.forall_mem_cons.1 (List.forall_mem_cons.1 (List.forall_mem_cons.1 h).2).2).2
    exact List.forall_mem_cons.2 ⟨by decide, List.forall_mem_cons.2 ⟨by decide,
      List.forall_mem_cons.2 ⟨by decide, ih hrest⟩⟩⟩
  | case2 c rest _ ih =>
    obtain ⟨hslash, hc, hrest⟩ := List.forall_mem_cons.1 h |>.imp_right List.forall_mem_cons.1
    exact List.forall_mem_cons.2 ⟨hslash, List.forall_mem_cons.2 ⟨hc, ih hrest⟩⟩
  | case3 c rest _ _ ih =>
    obtain ⟨hc, hrest⟩ := List.forall_mem_cons.1 h
    exact List.forall_mem_cons.2 ⟨hc, ih hrest⟩
  | case4 => exact h

/-- What has no backslash in it came from itself. -/
theorem exists_append_of_unsigned_eq {plain body rest : List Char} (h : ∀ c ∈ plain, c ≠ '\\')
    (heq : unsigned body = plain ++ rest) : ∃ body', body = plain ++ body' ∧ unsigned body' = rest := by
  induction plain generalizing body with
  | nil => exact ⟨body, rfl, heq⟩
  | cons c plain ih =>
    have hc := h c List.mem_cons_self
    unfold unsigned at heq
    split at heq
    · exact absurd (List.cons.inj heq).1.symm hc
    · exact absurd (List.cons.inj heq).1.symm hc
    · next d more _ _ =>
      obtain ⟨rfl, hmore⟩ := List.cons.inj heq
      obtain ⟨body', rfl, hrest⟩ := ih (fun e he => h e (List.mem_cons_of_mem d he)) hmore
      exact ⟨body', rfl, hrest⟩
    · cases heq

/-! ### Units -/

/-- The digits of a unit are hexadecimal digits. -/
theorem IsUnit.isSome_hexValue? {unit : Nat} {digits : List Char} (h : IsUnit unit digits) :
    ∀ c ∈ digits, (Text.hexValue? c).isSome = true := by
  have hrun : ∀ (digits : List Char) (n : Nat),
      digits.foldlM (fun n c => (Text.hexValue? c).map (n * 16 + ·)) n = some unit →
        ∀ c ∈ digits, (Text.hexValue? c).isSome = true := by
    intro digits
    induction digits with
    | nil => exact fun n _ => List.forall_mem_nil _
    | cons c digits ih =>
      intro n hfold
      rw [List.foldlM_cons] at hfold
      obtain ⟨m, hvalue, hrest⟩ := Option.bind_eq_some_iff.1 hfold
      obtain ⟨value, hvalue, -⟩ := Option.map_eq_some_iff.1 hvalue
      exact List.forall_mem_cons.2 ⟨by rw [hvalue]; rfl, ih m hrest⟩
  exact hrun digits 0 h.2

theorem IsUnit.ne_backslash {unit : Nat} {digits : List Char} (h : IsUnit unit digits) :
    ∀ c ∈ digits, c ≠ '\\' := by
  rintro c hc rfl
  cases h.isSome_hexValue? _ hc

theorem IsUnit.length_eq {unit : Nat} {digits : List Char} (h : IsUnit unit (unsignedUnit digits)) :
    digits.length = 4 := (length_unsignedUnit digits).symm.trans h.1

theorem IsUnit.ne_plus {unit : Nat} {digits : List Char} (h : IsUnit unit digits) :
    digits.head? ≠ some '+' := fun hplus =>
  Bool.noConfusion (h.isSome_hexValue? '+' (List.mem_of_head? hplus))

/-- **A unit is read from four characters**: the digits or, in place of a zero in front, a sign. -/
theorem codeUnit?_eq_some_iff {text : List Char} {unit : Nat} :
    codeUnit? text = some unit ↔
      ∃ digits behind, text = digits ++ behind ∧ IsUnit unit (unsignedUnit digits) := by
  constructor
  · intro h
    unfold codeUnit? at h
    split at h
    · next b c d more => exact ⟨['+', b, c, d], more, rfl, rfl, h⟩
    · next a b c d more hsign =>
      refine ⟨[a, b, c, d], more, rfl, ?_⟩
      have hhead : [a, b, c, d].head? ≠ some '+' := fun hplus => hsign (Option.some.inj hplus)
      rw [unsignedUnit_of_head hhead]
      exact ⟨rfl, h⟩
    · cases h
  · rintro ⟨digits, behind, rfl, hunit⟩
    by_cases hplus : digits.head? = some '+'
    · match digits, hunit.length_eq with
      | [a, b, c, d], _ =>
        cases hplus
        exact hunit.2
    · rw [unsignedUnit_of_head hplus] at hunit
      exact codeUnit?_append hunit

section

variable {unit : Nat} {digits rest body : List Char}

theorem unsigned_unit (h : IsUnit unit (unsignedUnit digits)) (rest : List Char) :
    unsigned ('\\' :: 'u' :: (digits ++ rest)) = '\\' :: 'u' :: (unsignedUnit digits ++ unsigned rest) := by
  by_cases hplus : digits.head? = some '+'
  · cases digits with
    | nil => cases hplus
    | cons c digits =>
      cases hplus
      have hdigits : ∀ c ∈ digits, c ≠ '\\' := fun c hc => h.ne_backslash c (List.mem_cons_of_mem _ hc)
      show '\\' :: 'u' :: '0' :: unsigned (digits ++ rest) = _
      rw [unsigned_append hdigits]
      rfl
  · rw [unsignedUnit_of_head hplus] at h ⊢
    have hhead : (digits ++ rest).head? ≠ some '+' := by
      cases digits with
      | nil => cases h.1
      | cons c digits => exact hplus
    rw [unsigned_escape fun _ => hhead, unsigned_append h.ne_backslash]

/-- Two units, each behind its mark. -/
theorem unsigned_pair {high low : Nat} {digits digits' : List Char} (hhigh : IsUnit high (unsignedUnit digits))
    (hlow : IsUnit low (unsignedUnit digits')) (rest : List Char) :
    unsigned ('\\' :: ('u' :: (digits ++ '\\' :: 'u' :: digits') ++ rest)) =
      '\\' :: ('u' :: (unsignedUnit digits ++ '\\' :: 'u' :: unsignedUnit digits') ++ unsigned rest) := by
  rw [List.cons_append, List.append_assoc, unsigned_unit hhigh]
  show _ :: _ :: (_ ++ unsigned ('\\' :: 'u' :: (digits' ++ rest))) = _
  rw [unsigned_unit hlow, List.cons_append, List.append_assoc]
  rfl

theorem exists_unit_of_unsigned_eq (h : IsUnit unit digits)
    (heq : unsigned body = '\\' :: 'u' :: (digits ++ rest)) :
    ∃ digits' body', body = '\\' :: 'u' :: (digits' ++ body') ∧ unsignedUnit digits' = digits ∧
      unsigned body' = rest := by
  unfold unsigned at heq
  split at heq
  · next more =>
    have hmore : '0' :: unsigned more = digits ++ rest := (List.cons.inj (List.cons.inj heq).2).2
    cases digits with
    | nil => cases h.1
    | cons c digits =>
      obtain ⟨rfl, hdigits⟩ := List.cons.inj hmore
      obtain ⟨body', rfl, hrest⟩ := exists_append_of_unsigned_eq
        (fun c hc => h.ne_backslash c (List.mem_cons_of_mem _ hc)) hdigits
      exact ⟨'+' :: digits, body', rfl, rfl, hrest⟩
  · next c more _ =>
    obtain ⟨rfl, hmore⟩ := List.cons.inj (List.cons.inj heq).2
    obtain ⟨body', rfl, hrest⟩ := exists_append_of_unsigned_eq h.ne_backslash hmore
    exact ⟨digits, body', rfl, unsignedUnit_of_head h.ne_plus, hrest⟩
  · next c more _ hlast =>
    obtain ⟨rfl, hmore⟩ := List.cons.inj heq
    cases more with
    | nil => cases hmore
    | cons d more => exact (hlast d more rfl rfl).elim
  · cases heq

end

/-! ### Escapes -/

theorem ne_mark_of_mem_shortEscapes {c letter : Char} (h : (c, letter) ∈ shortEscapes) : letter ≠ 'u' := by
  rintro rfl
  simp [shortEscapes] at h

theorem toNat_of_charOfCode? {code : Nat} {c : Char} (h : charOfCode? code = some c) : c.toNat = code := by
  unfold charOfCode? at h
  split at h
  · next hvalid =>
    cases h
    rw [Char.ofNat, dif_pos hvalid]
    rfl
  · cases h

/-- One unit that is no surrogate, or the two of a pair. -/
theorem unitEscape?_cases {text : List Char} {c : Char} {used : Nat} (h : unitEscape? text = some (c, used)) :
    (∃ digits behind, text = digits ++ behind ∧ used = 4 ∧ IsUnit c.toNat (unsignedUnit digits)) ∨
    ∃ high low digits digits' behind, text = digits ++ '\\' :: 'u' :: (digits' ++ behind) ∧ used = 10 ∧
      IsUnit high (unsignedUnit digits) ∧ IsUnit low (unsignedUnit digits') ∧
      (0xD800 ≤ high ∧ high < 0xDC00) ∧ (0xDC00 ≤ low ∧ low < 0xE000) ∧
      c.toNat = 0x10000 + (high - 0xD800) * 0x400 + (low - 0xDC00) := by
  unfold unitEscape? at h
  obtain ⟨high, hhigh, hread⟩ := Option.bind_eq_some_iff.1 h
  obtain ⟨digits, behind, rfl, hunit⟩ := codeUnit?_eq_some_iff.1 hhigh
  have hlength : digits.length = 4 := hunit.length_eq
  rw [← hlength, List.drop_left] at hread
  split at hread
  · next hrange =>
    have hrange : 0xD800 ≤ high ∧ high < 0xDC00 := by simpa using hrange
    split at hread
    · obtain ⟨low, hlow, hpair⟩ := Option.bind_eq_some_iff.1 hread
      obtain ⟨digits', behind, rfl, hunit'⟩ := codeUnit?_eq_some_iff.1 hlow
      split at hpair
      · next hrange' =>
        have hrange' : 0xDC00 ≤ low ∧ low < 0xE000 := by simpa using hrange'
        obtain ⟨d, hcode, hdone⟩ := Option.bind_eq_some_iff.1 hpair
        cases hdone
        exact .inr ⟨high, low, digits, digits', behind, rfl, rfl, hunit, hunit', hrange, hrange',
          toNat_of_charOfCode? hcode⟩
      · cases hpair
    · cases hread
  · obtain ⟨d, hcode, hdone⟩ := Option.bind_eq_some_iff.1 hread
    cases hdone
    rw [← toNat_of_charOfCode? hcode] at hunit
    exact .inl ⟨digits, behind, rfl, hlength, hunit⟩

/-- A proper escape has no signs. -/
theorem unsigned_of_escapes {c : Char} {escape : List Char} (h : Escapes c escape) (rest : List Char) :
    unsigned ('\\' :: (escape ++ rest)) = '\\' :: (escape ++ unsigned rest) := by
  cases h with
  | @short letter hmem => exact unsigned_escape fun hu => absurd hu (ne_mark_of_mem_shortEscapes hmem)
  | @unit digits h =>
    have hsame := unsignedUnit_of_head h.ne_plus
    have hunit := unsigned_unit (hsame.symm ▸ h) rest
    rwa [hsame] at hunit
  | @pair high low digits digits' hhigh hlow =>
    have hsame := unsignedUnit_of_head hhigh.ne_plus
    have hsame' := unsignedUnit_of_head hlow.ne_plus
    have hpair := unsigned_pair (hsame.symm ▸ hhigh) (hsame'.symm ▸ hlow) rest
    rwa [hsame, hsame'] at hpair

/-- What the lexer takes behind a backslash is an escape, but for the signs. -/
theorem exists_escapes_of_escape? {text : List Char} {c : Char} {used : Nat}
    (h : escape? text = some (c, used)) :
    ∃ escape behind, text = escape ++ behind ∧ used = escape.length ∧ ∃ escape', Escapes c escape' ∧
      ∀ rest, unsigned ('\\' :: (escape ++ rest)) = '\\' :: (escape' ++ unsigned rest) := by
  have hshort {letter : Char} {rest : List Char} (hmem : (c, letter) ∈ shortEscapes) :
      ∃ escape behind, letter :: rest = escape ++ behind ∧ 1 = escape.length ∧
        ∃ escape', Escapes c escape' ∧
          ∀ rest, unsigned ('\\' :: (escape ++ rest)) = '\\' :: (escape' ++ unsigned rest) := by
    exact ⟨[letter], rest, rfl, rfl, [letter], .short hmem, unsigned_of_escapes (.short hmem)⟩
  unfold escape? at h
  split at h
  case h_9 more =>
    obtain ⟨⟨d, width⟩, hread, heq⟩ := Option.map_eq_some_iff.1 h
    cases heq
    rcases unitEscape?_cases hread with ⟨digits, behind, rfl, rfl, hunit⟩ |
      ⟨high, low, digits, digits', behind, rfl, rfl, hhigh, hlow, hrange, hrange', hcode⟩
    · have hlength : digits.length = 4 := hunit.length_eq
      exact ⟨'u' :: digits, behind, rfl, by rw [List.length_cons, hlength], _, .unit hunit,
        fun rest => unsigned_unit hunit rest⟩
    · have hlength : digits.length = 4 := hhigh.length_eq
      have hlength' : digits'.length = 4 := hlow.length_eq
      refine ⟨'u' :: (digits ++ '\\' :: 'u' :: digits'), behind, by simp, by simp [hlength, hlength'], _,
        .pair hhigh hlow hrange.1 hrange.2 hrange'.1 hrange'.2 hcode, unsigned_pair hhigh hlow⟩
  case h_10 => cases h
  all_goals
    cases h
    exact hshort (by decide)

/-- What gives an escape once its signs are gone is taken by the lexer. -/
theorem exists_escape?_of_unsigned_eq {c : Char} {escape body rest : List Char} (h : Escapes c escape)
    (heq : unsigned body = '\\' :: (escape ++ rest)) :
    ∃ escape' body', body = '\\' :: (escape' ++ body') ∧ unsigned body' = rest ∧
      ∀ behind, escape? (escape' ++ behind) = some (c, escape'.length) := by
  cases h with
  | @short letter hmem =>
    have hletter := ne_mark_of_mem_shortEscapes hmem
    unfold unsigned at heq
    split at heq
    · exact absurd (List.cons.inj (List.cons.inj heq).2).1.symm hletter
    · next d more _ =>
      obtain ⟨rfl, hmore⟩ := List.cons.inj (List.cons.inj heq).2
      exact ⟨[d], more, rfl, hmore, fun behind => escape?_append (.short hmem)⟩
    · next d more _ hlast =>
      obtain ⟨rfl, hmore⟩ := List.cons.inj heq
      cases more with
      | nil => cases hmore
      | cons e more => exact (hlast e more rfl rfl).elim
    · cases heq
  | @unit digits hunit =>
    obtain ⟨digits', body', rfl, rfl, hrest⟩ := exists_unit_of_unsigned_eq hunit heq
    refine ⟨'u' :: digits', body', rfl, hrest, fun behind => ?_⟩
    have hlength : digits'.length = 4 := hunit.length_eq
    have hread : codeUnit? (digits' ++ behind) = some c.toNat :=
      codeUnit?_eq_some_iff.2 ⟨digits', behind, rfl, hunit⟩
    show (unitEscape? (digits' ++ behind)).map _ = _
    rw [unitEscape?_unit hread, List.length_cons, hlength]
    rfl
  | @pair high low digits digits' hhigh hlow hhigh₁ hhigh₂ hlow₁ hlow₂ hcode =>
    have heq' : unsigned body = '\\' :: 'u' :: (digits ++ '\\' :: 'u' :: (digits' ++ rest)) := by
      rw [heq, List.cons_append, List.append_assoc]
      rfl
    obtain ⟨unit, between, rfl, rfl, hbetween⟩ := exists_unit_of_unsigned_eq hhigh heq'
    obtain ⟨unit', body', rfl, rfl, hrest⟩ := exists_unit_of_unsigned_eq hlow hbetween
    refine ⟨'u' :: (unit ++ '\\' :: 'u' :: unit'), body', by simp, hrest, fun behind => ?_⟩
    have hlength : unit.length = 4 := hhigh.length_eq
    have hlength' : unit'.length = 4 := hlow.length_eq
    have hread : codeUnit? (unit ++ '\\' :: 'u' :: (unit' ++ behind)) = some high :=
      codeUnit?_eq_some_iff.2 ⟨unit, _, rfl, hhigh⟩
    have hread' : codeUnit? (unit' ++ behind) = some low :=
      codeUnit?_eq_some_iff.2 ⟨unit', behind, rfl, hlow⟩
    have hmore : (unit ++ '\\' :: 'u' :: (unit' ++ behind)).drop 4 = '\\' :: 'u' :: (unit' ++ behind) := by
      rw [← hlength, List.drop_left]
    rw [List.cons_append, List.append_assoc]
    show (unitEscape? (unit ++ '\\' :: 'u' :: (unit' ++ behind))).map _ = _
    rw [unitEscape?_pair hread hmore hread' hhigh₁ hhigh₂ hlow₁ hlow₂ hcode]
    simp [hlength, hlength']

/-! ### Bodies -/

/-- A body has no signs. -/
theorem unsigned_of_isBody {text body : List Char} (h : IsBody text body) : unsigned body = body := by
  induction h with
  | nil => rfl
  | plain _ hslash _ ih => rw [unsigned_cons hslash, ih]
  | escaped hescape _ ih => rw [unsigned_of_escapes hescape, ih]

/-- A string with one more character in front ends where it ended without. -/
theorem StringBody.cons_eq_closed {c : Char} {width n : Nat} {value : List Char} {body : StringBody}
    (h : body.cons c width = .closed value n) :
    ∃ value' n', body = .closed value' n' ∧ value = c :: value' ∧ n = n' + width := by
  cases body with
  | closed value' n' =>
    cases h
    exact ⟨value', n', rfl, rfl, rfl⟩
  | unclosed => cases h
  | badEscape before rest => cases h

/-- What the lexer makes of a text behind one that stands for `text` and is `width` characters long. -/
def StringBody.behind (text : List Char) (width : Nat) : StringBody → StringBody
  | .closed value length => .closed (text ++ value) (length + width)
  | .unclosed => .unclosed
  | .badEscape before rest => .badEscape (before + width) rest

theorem StringBody.behind_nil (body : StringBody) : body.behind [] 0 = body := by
  cases body <;> rfl

theorem StringBody.cons_behind (body : StringBody) (text : List Char) (n width : Nat) (c : Char) :
    (body.behind text n).cons c width = body.behind (c :: text) (n + width) := by
  cases body <;> simp [behind, cons, Nat.add_assoc]

/-- The lexer reads over what is a body once its signs are gone. -/
theorem stringBody_read {text body : List Char} (h : IsBody text (unsigned body)) (rest : List Char) :
    stringBody (body ++ rest) 0 = (stringBody rest 0).behind text body.length := by
  generalize hplain : unsigned body = plain at h
  induction h generalizing body with
  | nil =>
    cases body with
    | nil => exact (StringBody.behind_nil _).symm
    | cons c body =>
      unfold unsigned at hplain
      split at hplain
      · cases hplain
      · cases hplain
      · cases hplain
      · next hnil => cases hnil
  | @plain c text plain hquote hslash _ ih =>
    have hplain' : unsigned body = [c] ++ plain := hplain
    obtain ⟨body, rfl, hrest⟩ := exists_append_of_unsigned_eq (List.forall_mem_singleton.2 hslash) hplain'
    rw [List.singleton_append, List.cons_append, stringBody, if_neg hquote, if_neg hslash, ih hrest,
      StringBody.cons_behind, List.length_cons]
  | @escaped c escape text plain hescape _ ih =>
    obtain ⟨escape', body, rfl, hrest, hread⟩ := exists_escape?_of_unsigned_eq hescape hplain
    have hlength : body.length + (escape'.length + 1) = ('\\' :: (escape' ++ body)).length := by
      rw [List.length_cons, List.length_append]
      omega
    rw [List.cons_append, List.append_assoc, stringBody, if_neg (by decide), if_pos rfl, hread]
    dsimp only
    rw [stringBody_skip, ih hrest, StringBody.cons_behind, hlength]

/-- The lexer takes what is a body once its signs are gone. -/
theorem stringBody_of_unsigned {text body : List Char} (h : IsBody text (unsigned body)) (rest : List Char) :
    stringBody (body ++ '"' :: rest) 0 = .closed text (body.length + 1) := by
  rw [stringBody_read h, stringBody, if_pos rfl, StringBody.behind, List.append_nil, Nat.add_comm]

/-- **The bodies that the lexer takes** are those that it would take without their signs. -/
theorem stringBody_eq_closed_iff {source text : List Char} {n : Nat} :
    stringBody source 0 = .closed text n ↔
      ∃ body rest, source = body ++ '"' :: rest ∧ n = body.length + 1 ∧ IsBody text (unsigned body) := by
  constructor
  · intro h
    induction hlength : source.length using Nat.strongRecOn generalizing source text n with
    | _ length ih =>
      cases source with
      | nil => cases h
      | cons c source =>
        rw [stringBody] at h
        split at h
        · next hquote =>
          cases h
          exact ⟨[], source, by rw [hquote]; rfl, rfl, .nil⟩
        · next hquote =>
          split at h
          · next hslash =>
            cases hescape : escape? source with
            | none =>
              rw [hescape] at h
              cases h
            | some p =>
              obtain ⟨decoded, used⟩ := p
              obtain ⟨escape, behind, rfl, rfl, escape', hescapes, hunsigned⟩ :=
                exists_escapes_of_escape? hescape
              rw [hescape] at h
              dsimp only at h
              rw [stringBody_skip] at h
              obtain ⟨text, n, hbody, rfl, rfl⟩ := StringBody.cons_eq_closed h
              have hshorter : behind.length < length := by
                rw [← hlength, List.length_cons, List.length_append]
                omega
              obtain ⟨body, rest, rfl, rfl, hrest⟩ := ih _ hshorter hbody rfl
              refine ⟨'\\' :: (escape ++ body), rest, by simp [hslash], by simp; omega, ?_⟩
              rw [hunsigned]
              exact .escaped hescapes hrest
          · next hslash =>
            obtain ⟨text, n, hbody, rfl, rfl⟩ := StringBody.cons_eq_closed h
            have hshorter : source.length < length := by
              rw [← hlength, List.length_cons]
              omega
            obtain ⟨body, rest, rfl, rfl, hrest⟩ := ih _ hshorter hbody rfl
            refine ⟨c :: body, rest, rfl, rfl, ?_⟩
            rw [unsigned_cons hslash]
            exact .plain hquote hslash hrest
  · rintro ⟨body, rest, rfl, rfl, hbody⟩
    exact stringBody_of_unsigned hbody rest

/-- The end of a string is decided by the characters up to it. -/
theorem stringLexeme_of_take_eq {source source' text : List Char} {n : Nat}
    (h : stringBody source 0 = .closed text n) (htake : source'.take n = source.take n) :
    stringLexeme source' = stringLexeme source := by
  obtain ⟨body, rest, rfl, rfl, hbody⟩ := stringBody_eq_closed_iff.1 h
  have hquote : (body ++ '"' :: rest).take (body.length + 1) = body ++ ['"'] := by
    rw [List.take_append, List.take_of_length_le (Nat.le_succ _), Nat.add_sub_cancel_left]
    rfl
  have hsource : source' = body ++ '"' :: source'.drop (body.length + 1) := by
    rw [List.append_cons, ← hquote, ← htake, List.take_append_drop]
  unfold stringLexeme
  rw [h, hsource, stringBody_of_unsigned hbody]

end JsonFilter.Filter
