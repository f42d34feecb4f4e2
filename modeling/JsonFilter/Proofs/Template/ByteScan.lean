import JsonFilter.Proofs.Template.Course

/-!
# Scanning bytes

`scan` reads characters.  A loop over the bytes of the template finds the same places: it knows its place, the
open quote and where the open filter starts, looks at single bytes, and jumps over two bytes at a backslash.  The
second of them can lie inside of a character.  That does no harm, since all bytes of a character of more than one
byte are above those that the loop knows.

* `byteScan` — the loop.
* `byteScan_skip` — the bytes of wide characters change nothing.
* **`byteScan_eq_ranges`** — it finds what `scan` finds.
-/

namespace JsonFilter.Template

open Text (byteLength byteLength_cons byteLength_append byteLength_concat)

/-! ### Bytes of a text -/

/-- The bytes of a text. -/
def utf8 (cs : List Char) : List UInt8 := cs.flatMap String.utf8EncodeChar

theorem utf8_toList (text : String) : utf8 text.toList = text.toUTF8.data.toList := by
  have hbytes : text.toUTF8 = (utf8 text.toList).toByteArray := by
    rw [String.toUTF8_eq_toByteArray]
    conv_lhs => rw [← String.ofList_toList (s := text)]
    exact String.toByteArray_ofList
  rw [hbytes, List.data_toByteArray]

theorem utf8_append (cs ds : List Char) : utf8 (cs ++ ds) = utf8 cs ++ utf8 ds := List.flatMap_append

theorem utf8_cons (c : Char) (cs : List Char) : utf8 (c :: cs) = String.utf8EncodeChar c ++ utf8 cs := rfl

theorem length_utf8 (cs : List Char) : (utf8 cs).length = byteLength cs := by
  induction cs with
  | nil => rfl
  | cons c cs ih => rw [utf8_cons, List.length_append, String.length_utf8EncodeChar, ih, byteLength_cons]

section

variable {c d : Char}

/-- All bytes of a character of more than one byte are high. -/
theorem high_of_wide (h : c.utf8Size ≠ 1) : ∀ b ∈ String.utf8EncodeChar c, 128 ≤ b.toNat := by
  have hc : ¬c.val.toNat ≤ 127 := fun hle => h (Char.utf8Size_eq_one_iff.2 (UInt32.le_iff_toNat_le.2 hle))
  intro b hb
  rw [String.utf8EncodeChar.eq_1, if_neg hc] at hb
  split_ifs at hb <;> simp only [List.mem_cons, List.not_mem_nil, or_false] at hb <;>
    rcases hb with rfl | rfl | rfl | rfl <;> simp only [UInt8.toNat_ofNat'] <;> omega

theorem utf8EncodeChar_narrow (h : c.utf8Size = 1) : String.utf8EncodeChar c = [c.toUInt8] :=
  String.utf8EncodeChar_eq_singleton h

theorem toNat_narrow (h : c.utf8Size = 1) : c.toUInt8.toNat = c.toNat ∧ c.toNat < 128 := by
  have hle : c.toNat ≤ 127 := UInt32.le_iff_toNat_le.1 (Char.utf8Size_eq_one_iff.1 h)
  have hmod : c.toUInt8.toNat = c.toNat % 256 := rfl
  omega

theorem toUInt8_eq_iff (hc : c.utf8Size = 1) (hd : d.utf8Size = 1) : c.toUInt8 = d.toUInt8 ↔ c = d := by
  refine ⟨fun h => ?_, fun h => h ▸ rfl⟩
  have hnat := congrArg UInt8.toNat h
  rw [(toNat_narrow hc).1, (toNat_narrow hd).1] at hnat
  exact Char.toNat_inj.1 hnat

/-- A character of one byte is one of the bytes of itself only. -/
theorem toUInt8_mem_iff (hd : d.utf8Size = 1) : d.toUInt8 ∈ String.utf8EncodeChar c ↔ c = d := by
  by_cases hc : c.utf8Size = 1
  · rw [utf8EncodeChar_narrow hc, List.mem_singleton, toUInt8_eq_iff hd hc, eq_comm]
  · refine ⟨fun h => ?_, fun h => absurd (h ▸ hd) hc⟩
    have hhigh := high_of_wide hc _ h
    have := toNat_narrow hd
    omega

/-- The byte behind a text is that of a character exactly if the character stands there. -/
theorem head?_utf8_eq_iff {cs : List Char} (hd : d.utf8Size = 1) :
    (utf8 cs).head? = some d.toUInt8 ↔ cs.head? = some d := by
  cases cs with
  | nil => exact ⟨nofun, nofun⟩
  | cons c cs =>
    rw [utf8_cons, List.head?_append_of_ne_nil _ String.utf8EncodeChar_ne_nil, List.head?_cons, Option.some.injEq]
    refine ⟨fun h => (toUInt8_mem_iff hd).1 (List.mem_of_head? h), fun h => ?_⟩
    rw [h, utf8EncodeChar_narrow hd]
    rfl

/-- The last byte of a text is that of a character exactly if the character is the last one. -/
theorem getLast?_utf8_eq_iff {cs : List Char} (hd : d.utf8Size = 1) :
    (utf8 cs).getLast? = some d.toUInt8 ↔ cs.getLast? = some d := by
  cases cs using List.reverseRecOn with
  | nil => exact ⟨nofun, nofun⟩
  | append_singleton cs c =>
    have hsingle : utf8 [c] = String.utf8EncodeChar c := List.append_nil _
    rw [utf8_append, hsingle, List.getLast?_append_of_ne_nil _ String.utf8EncodeChar_ne_nil, List.getLast?_concat,
      Option.some.injEq]
    refine ⟨fun h => (toUInt8_mem_iff hd).1 (List.mem_of_getLast? h), fun h => ?_⟩
    rw [h, utf8EncodeChar_narrow hd]
    rfl

end

/-! ### The loop -/

/-- The quote that is open behind the byte of a quote character. -/
def nextQuoteByte (quote : Option UInt8) (byte : UInt8) : Option UInt8 :=
  match quote with
  | none => some byte
  | some opening => if opening = byte then none else some opening

/-- Reads the bytes from the place `i` on; `start` is where the open filter starts. -/
def byteScan (bytes : List UInt8) (i : Nat) (quote : Option UInt8) (start : Option Nat) (found : List Span) :
    Except BraceFault (List Span) :=
  match h : bytes[i]? with
  | none =>
    match start with
    | some opened => .error (.unterminatedOpening (opened - 2))
    | none => .ok found
  | some byte =>
    have : i < bytes.length := (List.getElem?_eq_some_iff.1 h).1
    let previous := if i = 0 then none else bytes[i - 1]?
    if start.isSome && byte == '\\'.toUInt8 then byteScan bytes (i + 2) quote start found
    else if start.isSome && (byte == '"'.toUInt8 || byte == '\x27'.toUInt8) then
      byteScan bytes (i + 1) (nextQuoteByte quote byte) start found
    else if quote.isNone && byte == '\x7b'.toUInt8 && previous == some '\x7b'.toUInt8 then
      match start with
      | some outer => .error (.nestedOpening (i - 1) (outer - 2))
      | none =>
        byteScan bytes (if bytes[i + 1]? == some '\x7b'.toUInt8 then i + 2 else i + 1) quote (some (i + 1)) found
    else if quote.isNone && byte == '\x7d'.toUInt8 && previous == some '\x7d'.toUInt8 then
      match start with
      | none => .error (.unmatchedClosing (i - 1))
      | some opened =>
        byteScan bytes (if bytes[i + 1]? == some '\x7d'.toUInt8 then i + 2 else i + 1) quote none
          (found ++ [⟨opened, i - 1⟩])
    else byteScan bytes (i + 1) quote start found
termination_by bytes.length - i
decreasing_by all_goals (try split) <;> omega

section

variable {bytes : List UInt8} {i : Nat} {quote : Option UInt8} {start : Option Nat} {found : List Span}

/-- A high byte changes nothing. -/
theorem byteScan_high {b : UInt8} (hbyte : bytes[i]? = some b) (hhigh : 128 ≤ b.toNat) :
    byteScan bytes i quote start found = byteScan bytes (i + 1) quote start found := by
  have hne {d : Char} (hd : d.utf8Size = 1) : (b == d.toUInt8) = false := by
    rw [beq_eq_false_iff_ne]
    rintro rfl
    have := toNat_narrow hd
    omega
  rw [byteScan.eq_def]
  split
  · next hnone => rw [hbyte] at hnone; cases hnone
  · next byte hsome =>
    rw [hbyte] at hsome
    cases hsome
    simp only [hne (d := '\\') rfl, hne (d := '"') rfl, hne (d := '\x27') rfl, hne (d := '\x7b') rfl,
      hne (d := '\x7d') rfl, Bool.and_false, Bool.false_and, Bool.or_false, Bool.false_eq_true, if_false]

/-- High bytes in a row change nothing. -/
theorem byteScan_skip (k : Nat) (hbytes : ∀ j < k, ∃ b, bytes[i + j]? = some b ∧ 128 ≤ b.toNat) :
    byteScan bytes i quote start found = byteScan bytes (i + k) quote start found := by
  induction k with
  | zero => rfl
  | succ k ih =>
    obtain ⟨b, hbyte, hhigh⟩ := hbytes k (Nat.lt_succ_self k)
    rw [ih fun j hj => hbytes j (Nat.lt_succ_of_lt hj), byteScan_high hbyte hhigh]
    rfl

end

/-! ### The loop from stand to stand -/

/-- The quote that is open. -/
def Segment.openQuote : Segment → Option Char
  | .literal _ => none
  | .filter _ _ quote _ => quote

/-- Where the open filter starts. -/
def Segment.opened : Segment → Option Nat
  | .literal _ => none
  | .filter _ start _ _ => some start

theorem Segment.openQuote_push (c : Char) (segment : Segment) : (segment.push c).openQuote = segment.openQuote := by
  cases segment <;> rfl

theorem Segment.opened_push (c : Char) (segment : Segment) : (segment.push c).opened = segment.opened := by
  cases segment <;> rfl

/-- How many bytes of a hidden character the loop has jumped over. -/
def Veil.ahead (veil : Veil) (next : Option Char) : Nat := if veil.covers next then 1 else 0

namespace Stand

/-- The loop at a stand. -/
def onBytes (s : Stand) (bytes : List UInt8) (ahead : Nat) : Except BraceFault (List Span) :=
  byteScan bytes (s.place + ahead) (s.segment.openQuote.map Char.toUInt8) s.segment.opened (s.slots.map Slot.span)

end Stand

section

variable {front cs : List Char} {c : Char} {s s' : Stand}

/-- The bytes of the next character. -/
theorem getElem?_utf8 (front cs : List Char) (c : Char) {j : Nat} (hj : j < c.utf8Size) :
    (utf8 (front ++ c :: cs))[byteLength front + j]? = (String.utf8EncodeChar c)[j]? := by
  rw [utf8_append, ← length_utf8, List.getElem?_append_right (Nat.le_add_right _ _), Nat.add_sub_cancel_left, utf8_cons,
    List.getElem?_append_left (by rwa [String.length_utf8EncodeChar])]

/-- Inside of a wide character. -/
theorem byteScan_wide (front cs : List Char) {quote : Option UInt8} {start : Option Nat} {found : List Span}
    {j : Nat} (hj : j ≤ c.utf8Size) (hwide : j < c.utf8Size → c.utf8Size ≠ 1) :
    byteScan (utf8 (front ++ c :: cs)) (byteLength front + j) quote start found =
      byteScan (utf8 (front ++ c :: cs)) (byteLength front + c.utf8Size) quote start found := by
  obtain ⟨k, hk⟩ := Nat.exists_eq_add_of_le hj
  rw [hk, ← Nat.add_assoc]
  refine byteScan_skip k fun i hi => ?_
  have hlt : j + i < (String.utf8EncodeChar c).length := by
    rw [String.length_utf8EncodeChar]
    omega
  refine ⟨(String.utf8EncodeChar c)[j + i], ?_, high_of_wide (hwide (by omega)) _ (List.getElem_mem hlt)⟩
  rw [Nat.add_assoc, getElem?_utf8 front cs c (by omega), List.getElem?_eq_getElem hlt]

/-- A wide character changes nothing. -/
theorem Stand.next_wide (s : Stand) (hc : c.utf8Size ≠ 1) : s.next c = .ok (s.push c) := by
  have hne {d : Char} (hd : d.utf8Size = 1) : c ≠ d := fun h => hc (h ▸ hd)
  have hquote : isQuote c = false := by
    unfold isQuote
    rw [decide_eq_false (hne rfl), decide_eq_false (hne rfl)]
    rfl
  obtain ⟨slots, place, previous, veil, segment⟩ := s
  unfold next
  cases segment with
  | literal text =>
    simp only [hne (d := '\x7b') rfl, hne (d := '\x7d') rfl, decide_false, Bool.false_and, Bool.false_eq_true,
      if_false, ite_self]
  | filter before start quote text =>
    simp only [hne (d := '\\') rfl, hquote, hne (d := '\x7b') rfl, hne (d := '\x7d') rfl, decide_false, Bool.and_false,
      Bool.false_and, Bool.false_eq_true, if_false, ite_self]

theorem onBytes_push (s : Stand) (c : Char) (bytes : List UInt8) :
    (s.push c).onBytes bytes 0 = s.onBytes bytes c.utf8Size := by
  unfold Stand.onBytes Stand.push
  dsimp only
  rw [Segment.openQuote_push, Segment.opened_push]
  rfl

/-- The byte in front of a place is that of a character exactly if the character stands there. -/
theorem previous_byte (front cs : List Char) {d : Char} (hd : d.utf8Size = 1) :
    ((if byteLength front = 0 then none else (utf8 (front ++ cs))[byteLength front - 1]?) == some d.toUInt8) =
      (front.getLast? == some d) := by
  have hbyte : (if byteLength front = 0 then none else (utf8 (front ++ cs))[byteLength front - 1]?) =
      (utf8 front).getLast? := by
    rw [List.getLast?_eq_getElem?, length_utf8]
    split
    · next hzero =>
      have hnil : utf8 front = [] := List.length_eq_zero_iff.1 ((length_utf8 front).trans hzero)
      rw [hnil]
      rfl
    · rw [utf8_append, List.getElem?_append_left (by rw [length_utf8]; omega)]
  rw [hbyte, Bool.eq_iff_iff, beq_iff_eq, beq_iff_eq]
  exact getLast?_utf8_eq_iff hd

/-- The byte behind a character of one byte is that of a character exactly if the character stands there. -/
theorem next_byte (front cs : List Char) (hc : c.utf8Size = 1) {d : Char} (hd : d.utf8Size = 1) :
    ((utf8 (front ++ c :: cs))[byteLength front + 1]? == some d.toUInt8) = (cs.head? == some d) := by
  have hbyte : (utf8 (front ++ c :: cs))[byteLength front + 1]? = (utf8 cs).head? := by
    have hlength : byteLength front + 1 = (utf8 (front ++ [c])).length := by
      rw [length_utf8, byteLength_concat, hc]
    rw [List.append_cons, utf8_append, hlength, List.getElem?_append_right (Nat.le_refl _), Nat.sub_self,
      List.head?_eq_getElem?]
  rw [hbyte, Bool.eq_iff_iff, beq_iff_eq, beq_iff_eq]
  exact head?_utf8_eq_iff hd

theorem nextQuoteByte_eq {quote : Option Char} (hquote : ∀ q ∈ quote, isQuote q = true)
    (hc : c.utf8Size = 1) : nextQuoteByte (quote.map Char.toUInt8) c.toUInt8 = (nextQuote quote c).map Char.toUInt8 := by
  cases quote with
  | none => rfl
  | some q =>
    have hq : q.utf8Size = 1 := by
      have := hquote q rfl
      simp only [isQuote, Bool.or_eq_true, decide_eq_true_eq] at this
      rcases this with rfl | rfl <;> rfl
    show (if q.toUInt8 = c.toUInt8 then none else some q.toUInt8) =
      (if q = c then none else some q : Option Char).map Char.toUInt8
    by_cases heq : q = c
    · rw [if_pos heq, if_pos ((toUInt8_eq_iff hq hc).2 heq)]
      rfl
    · rw [if_neg heq, if_neg fun h => heq ((toUInt8_eq_iff hq hc).1 h)]
      rfl

/-- A character of one byte is read as that byte is. -/
theorem onBytes_narrow (h : Reads front s) (hquote : ∀ q ∈ s.segment.openQuote, isQuote q = true)
    (hc : c.utf8Size = 1) (hread : s.veil.covers (some c) = false) (cs : List Char) :
    s.onBytes (utf8 (front ++ c :: cs)) 0 =
      s.next c >>= fun s' => s'.onBytes (utf8 (front ++ c :: cs)) (s'.veil.ahead cs.head?) := by
  have hbyte : (utf8 (front ++ c :: cs))[byteLength front + 0]? = some c.toUInt8 := by
    rw [getElem?_utf8 front cs c (by omega), utf8EncodeChar_narrow hc]
    rfl
  have hsame {d : Char} (hd : d.utf8Size = 1) : (c.toUInt8 == d.toUInt8) = decide (c = d) := by
    rw [Bool.eq_iff_iff, beq_iff_eq, decide_eq_true_eq]
    exact toUInt8_eq_iff hc hd
  have hprevious {d : Char} (hd : d.utf8Size = 1) := previous_byte front (c :: cs) hd
  have hnext {d : Char} (hd : d.utf8Size = 1) := next_byte front cs hc hd
  obtain ⟨slots, place, previous, veil, segment⟩ := s
  obtain rfl : place = byteLength front := h.place
  obtain rfl : previous = front.getLast? := h.previous
  unfold Stand.onBytes Stand.next
  dsimp only at hread ⊢
  rw [byteScan.eq_def]
  split
  · next hnone => rw [hbyte] at hnone; cases hnone
  · next byte hsome =>
    rw [hbyte] at hsome
    cases hsome
    -- behind two braces the loop jumps over a third one
    have hjump (d : Char) : (if (cs.head? == some d) = true then byteLength front + 2 else byteLength front + 1) =
        byteLength front + 1 + (Veil.brace d).ahead cs.head? := by
      show _ = byteLength front + 1 + if (cs.head? == some d) = true then 1 else 0
      split <;> rfl
    rw [hread, if_neg Bool.false_ne_true]
    unfold Stand.push
    cases segment with
    | literal text =>
      simp only [Nat.add_zero, Segment.openQuote, Segment.opened, Option.map_none, Option.isSome_none,
        Option.isNone_none, Bool.false_and, Bool.false_eq_true, if_false, Bool.true_and, hsame (d := '\x7b') rfl,
        hsame (d := '\x7d') rfl, hprevious (d := '\x7b') rfl, hprevious (d := '\x7d') rfl, hnext (d := '\x7b') rfl,
        hjump, hc]
      split_ifs
      · rfl
      · rfl
      · rfl
    | filter before start quote text =>
      have hquotes := nextQuoteByte_eq hquote hc
      simp only [Nat.add_zero, Segment.openQuote, Segment.opened, Option.isSome_some, Option.isNone_map,
        Bool.true_and, hsame (d := '\x7b') rfl, hsame (d := '\\') rfl, hsame (d := '"') rfl, hsame (d := '\x27') rfl,
        hsame (d := '\x7d') rfl, hprevious (d := '\x7b') rfl, hprevious (d := '\x7d') rfl, hnext (d := '\x7d') rfl,
        hjump, hc, isQuote, decide_eq_true_eq]
      split_ifs with hslash hisQuote hopens hcloses
      · rfl
      · exact congrArg (byteScan _ (byteLength front + 1) · (some start) _) hquotes
      · rfl
      · have hfound (slot : Slot) : slots.map Slot.span ++ [slot.span] = (slots ++ [slot]).map Slot.span := by
          rw [List.map_append]
          rfl
        obtain rfl : quote = none := by
          rw [Bool.and_eq_true, Bool.and_eq_true] at hcloses
          exact Option.isNone_iff_eq_none.1 hcloses.1.1
        rw [hfound ⟨before, (text.drop 1).reverse, ⟨start, byteLength front - 1⟩⟩]
        rfl
      · rfl

/-- **One character of the loop.** -/
theorem onBytes_next (h : Reads front s) (hquote : ∀ q ∈ s.segment.openQuote, isQuote q = true) (c : Char)
    (cs : List Char) :
    s.onBytes (utf8 (front ++ c :: cs)) (s.veil.ahead (some c)) =
      s.next c >>= fun s' => s'.onBytes (utf8 (front ++ c :: cs)) (s'.veil.ahead cs.head?) := by
  have hpush {ahead : Nat} (hahead : ahead ≤ c.utf8Size) (hwide : ahead < c.utf8Size → c.utf8Size ≠ 1)
      (hnext : s.next c = .ok (s.push c)) : s.onBytes (utf8 (front ++ c :: cs)) ahead =
        s.next c >>= fun s' => s'.onBytes (utf8 (front ++ c :: cs)) (s'.veil.ahead cs.head?) := by
    rw [hnext]
    show _ = (s.push c).onBytes (utf8 (front ++ c :: cs)) 0
    rw [onBytes_push]
    unfold Stand.onBytes
    rw [h.place]
    exact byteScan_wide front cs hahead hwide
  unfold Veil.ahead
  split
  · next hcovers =>
    have hpos := c.utf8Size_pos
    refine hpush hpos (fun hlt => by omega) ?_
    unfold Stand.next
    rw [if_pos hcovers]
  · next hread =>
    by_cases hc : c.utf8Size = 1
    · exact onBytes_narrow h hquote hc (Bool.eq_false_iff.2 hread) cs
    · exact hpush (Nat.zero_le _) (fun _ => hc) (s.next_wide hc)

/-- The open quote stays a quote. -/
theorem isQuote_next (hquote : ∀ q ∈ s.segment.openQuote, isQuote q = true) (hnext : s.next c = .ok s') :
    ∀ q ∈ s'.segment.openQuote, isQuote q = true := by
  obtain ⟨slots, place, previous, veil, segment⟩ := s
  unfold Stand.next Stand.push at hnext
  cases segment with
  | literal text =>
    dsimp only at hnext
    split_ifs at hnext <;> cases hnext <;> nofun
  | filter before start quote text =>
    dsimp only at hnext
    split_ifs at hnext with hcovers hslash hisQuote hopens hcloses <;> cases hnext
    · exact hquote
    · exact hquote
    · intro q hq
      have hnextQuote : nextQuote quote c = some q := hq
      unfold nextQuote at hnextQuote
      split at hnextQuote
      · cases hnextQuote
        exact hisQuote
      · next opening =>
        split_ifs at hnextQuote
        cases hnextQuote
        exact hquote _ rfl
    · exact nofun
    · exact hquote

/-- **Bytes are enough.**  From any stand on, the loop over bytes finds what the scan finds. -/
theorem onBytes_eq (h : Reads front s) (hquote : ∀ q ∈ s.segment.openQuote, isQuote q = true) (cs : List Char) :
    s.onBytes (utf8 (front ++ cs)) (s.veil.ahead cs.head?) = s.ranges cs := by
  induction cs generalizing front s with
  | nil =>
    have hend : (utf8 (front ++ []))[s.place + s.veil.ahead none]? = none := by
      rw [List.append_nil, List.getElem?_eq_none_iff, length_utf8, h.place]
      exact Nat.le_add_right _ _
    obtain ⟨slots, place, previous, veil, segment⟩ := s
    unfold Stand.onBytes
    rw [byteScan.eq_def]
    split
    · cases segment <;> rfl
    · next byte hsome =>
      rw [List.head?_nil, hend] at hsome
      cases hsome
  | cons c cs ih =>
    rw [List.head?_cons, onBytes_next h hquote, Stand.ranges_cons]
    cases hnext : s.next c with
    | error fault => rfl
    | ok s' =>
      have hrest := ih (h.next hnext) (isQuote_next hquote hnext)
      rwa [← List.append_cons] at hrest

end

/-- **The loop over the bytes of a template finds the places of its filters.** -/
theorem byteScan_eq_ranges (template : String) :
    byteScan template.toUTF8.data.toList 0 none none [] = ranges template := by
  rw [← utf8_toList, ranges_eq_start]
  exact onBytes_eq Reads.start nofun template.toList

end JsonFilter.Template
