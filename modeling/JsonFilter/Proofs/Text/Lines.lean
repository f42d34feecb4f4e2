import JsonFilter.Proofs.Text.Bytes
import JsonFilter.Text.Lines

/-!
# Places by line ends

There are two ways to tell a line and a column.  A message counts line feeds.  A drawing cuts its text at every
line end there is: at carriage returns that no line feed follows, at vertical tabs, form feeds, and at the line
separators of Unicode, too.

* `LineColumn.drawnAfter` — the place behind some characters, in a drawing.
* **`drawnPlace?_eq`** — it is where the drawing finds the character.
* `OnlyFeeds` — no line ends but at line feeds.
* **`drawnPlace?_eq_after_iff`** — the two ways agree exactly on such texts.
-/

namespace JsonFilter.Text

/-! ### Line ends -/

/-- Whether a line ends with a character; of a carriage return and a line feed it is the second one. -/
def cutsBehind (c : Char) (next : Option Char) : Bool := endsLine c && !(c == '\r' && next == some '\n')

theorem cutsBehind_feed (next : Option Char) : cutsBehind '\n' next = true := rfl

/-- The first line takes in what is read of it, and a character more. -/
theorem cutLines_first {cs : List Char} (hcs : cs ≠ []) (line : List Char) :
    ∃ first rest, cutLines cs line = first :: rest ∧ line.length < first.length ∧
      (cs.length = 1 → rest = []) := by
  induction cs generalizing line with
  | nil => exact absurd rfl hcs
  | cons c cs ih =>
    have hlength : line.length < (c :: line).reverse.length := by
      rw [List.length_reverse, List.length_cons]
      exact Nat.lt_succ_self _
    by_cases hcut : cutsBehind c cs.head? = true
    · refine ⟨(c :: line).reverse, cutLines cs [], if_pos hcut, hlength, fun hone => ?_⟩
      rw [List.length_eq_zero_iff.1 (Nat.succ.inj hone)]
      rfl
    · have hcons : cutLines (c :: cs) line = cutLines cs (c :: line) := if_neg hcut
      rw [hcons]
      cases cs with
      | nil => exact ⟨(c :: line).reverse, [], rfl, hlength, fun _ => rfl⟩
      | cons d cs =>
        obtain ⟨first, rest, hlines, hfirst, -⟩ := ih (List.cons_ne_nil _ _) (c :: line)
        exact ⟨first, rest, hlines, Nat.lt_of_succ_lt hfirst, fun hone => by cases hone⟩

theorem offset_le_of_mem_placeLines {offset : Nat} {lines : List (List Char)} {l : SourceLine}
    (h : l ∈ placeLines offset lines) : offset ≤ l.offset := by
  induction lines generalizing offset with
  | nil => cases h
  | cons first rest ih =>
    rcases List.mem_cons.1 h with rfl | h
    · exact Nat.le_refl offset
    · exact Nat.le_of_add_right_le (ih h)

/-! ### Places in a drawing -/

namespace LineColumn

/-- One character further, in a drawing. -/
def drawn (place : LineColumn) (c : Char) (next : Option Char) : LineColumn :=
  if cutsBehind c next then ⟨place.line + 1, 1⟩ else ⟨place.line, place.column + 1⟩

/-- Some characters further, in a drawing that goes on with others. -/
def drawnAfter (place : LineColumn) : List Char → List Char → LineColumn
  | [], _ => place
  | c :: before, behind => drawnAfter (place.drawn c (before ++ behind).head?) before behind

theorem drawnAfter_append (place : LineColumn) (before part behind : List Char) :
    place.drawnAfter (before ++ part) behind =
      (place.drawnAfter before (part ++ behind)).drawnAfter part behind := by
  induction before generalizing place with
  | nil => rfl
  | cons c before ih =>
    show drawnAfter (place.drawn c (before ++ part ++ behind).head?) (before ++ part) behind = _
    rw [ih, List.append_assoc]
    rfl

/-- Further on, lines go up; on the same line, so do columns. -/
theorem drawnAfter_later (place : LineColumn) (part behind : List Char) :
    place.line ≤ (place.drawnAfter part behind).line ∧
      ((place.drawnAfter part behind).line = place.line →
        (place.drawnAfter part behind).column = place.column + part.length) := by
  induction part generalizing place with
  | nil => exact ⟨Nat.le_refl _, fun _ => rfl⟩
  | cons c part ih =>
    obtain ⟨hline, hcolumn⟩ := ih (place.drawn c (part ++ behind).head?)
    show place.line ≤ (drawnAfter (place.drawn c (part ++ behind).head?) part behind).line ∧
      ((drawnAfter (place.drawn c (part ++ behind).head?) part behind).line = place.line →
        (drawnAfter (place.drawn c (part ++ behind).head?) part behind).column = place.column + (part.length + 1))
    by_cases hcut : cutsBehind c (part ++ behind).head? = true
    · have hdrawn : place.drawn c (part ++ behind).head? = ⟨place.line + 1, 1⟩ := if_pos hcut
      rw [hdrawn] at hline hcolumn ⊢
      have : place.line + 1 ≤ _ := hline
      exact ⟨by omega, fun heq => by omega⟩
    · have hdrawn : place.drawn c (part ++ behind).head? = ⟨place.line, place.column + 1⟩ := if_neg hcut
      rw [hdrawn] at hline hcolumn ⊢
      refine ⟨hline, fun heq => ?_⟩
      rw [hcolumn heq]
      show place.column + 1 + part.length = _
      omega

end LineColumn

/-- The last line that starts at a place or in front of it. -/
def lastUpTo (place : Nat) (lines : List (SourceLine × Nat)) : Option (SourceLine × Nat) :=
  (lines.filter fun x => x.1.offset ≤ place).getLast?

theorem lastUpTo_cons {place : Nat} {l : SourceLine} (h : l.offset ≤ place) (j : Nat)
    (lines : List (SourceLine × Nat)) :
    lastUpTo place ((l, j) :: lines) = some ((lastUpTo place lines).getD (l, j)) := by
  unfold lastUpTo
  rw [List.filter_cons, if_pos (decide_eq_true h), List.getLast?_cons]

theorem lastUpTo_eq_none {place : Nat} {lines : List SourceLine} (h : ∀ l ∈ lines, place < l.offset)
    (index : Nat) : lastUpTo place (lines.zipIdx index) = none := by
  unfold lastUpTo
  rw [List.getLast?_eq_none_iff, List.filter_eq_nil_iff]
  rintro ⟨l, j⟩ hmem
  have hl : place < l.offset := h l (List.fst_mem_of_mem_zipIdx hmem)
  rw [decide_eq_true_eq]
  exact Nat.not_le_of_lt hl

/-- **A character is drawn behind the characters in front of it.**  A place right behind the last character is
found on the line of that character. -/
theorem lastUpTo_placeLines {behind : List Char} (hbehind : behind ≠ []) {extra : Nat}
    (hextra : extra = 0 ∨ extra = 1 ∧ behind.length = 1) (before line : List Char) (offset index : Nat) :
    ∃ l j, lastUpTo (offset + line.length + before.length + extra)
        ((placeLines offset (cutLines (before ++ behind) line)).zipIdx index) = some (l, j) ∧
      l.offset ≤ offset + line.length + before.length ∧
      (LineColumn.mk (index + 1) (line.length + 1)).drawnAfter before behind =
        ⟨j + 1, offset + line.length + before.length - l.offset + 1⟩ := by
  induction before generalizing line offset index with
  | nil =>
    obtain ⟨first, rest, hlines, hfirst, hrest⟩ := cutLines_first hbehind line
    -- the lines behind the first one start behind the place
    have hlater : ∀ l ∈ placeLines (offset + first.length) rest, offset + line.length + 0 + extra < l.offset := by
      intro l hl
      rcases hextra with rfl | ⟨-, hone⟩
      · have := offset_le_of_mem_placeLines hl
        omega
      · rw [hrest hone] at hl
        cases hl
    refine ⟨.ofChars offset first, index, ?_, Nat.le_trans (Nat.le_add_right _ _) (Nat.le_add_right _ _), ?_⟩
    · rw [List.nil_append, hlines, placeLines, List.zipIdx_cons, lastUpTo_cons, List.length_nil,
        lastUpTo_eq_none hlater]
      · rfl
      · show offset ≤ _
        omega
    · show LineColumn.mk (index + 1) (line.length + 1) = ⟨index + 1, offset + line.length - offset + 1⟩
      rw [Nat.add_sub_cancel_left]
  | cons c before ih =>
    by_cases hcut : cutsBehind c (before ++ behind).head? = true
    · have hcons : cutLines (c :: before ++ behind) line = (c :: line).reverse :: cutLines (before ++ behind) [] :=
        if_pos hcut
      have hdrawn : (LineColumn.mk (index + 1) (line.length + 1)).drawn c (before ++ behind).head? =
        ⟨index + 1 + 1, ([] : List Char).length + 1⟩ := if_pos hcut
      have hlength : offset + (c :: line).reverse.length + ([] : List Char).length + before.length =
          offset + line.length + (c :: before).length := by
        simp only [List.length_reverse, List.length_cons, List.length_nil]
        omega
      have hrest := ih [] (offset + (c :: line).reverse.length) (index + 1)
      rw [hlength, ← hdrawn] at hrest
      obtain ⟨l, j, hlast, hoffset, hplace⟩ := hrest
      refine ⟨l, j, ?_, hoffset, hplace⟩
      rw [hcons, placeLines, List.zipIdx_cons, lastUpTo_cons, hlast]
      · rfl
      · show offset ≤ _
        omega
    · have hcons : cutLines (c :: before ++ behind) line = cutLines (before ++ behind) (c :: line) := if_neg hcut
      have hdrawn : (LineColumn.mk (index + 1) (line.length + 1)).drawn c (before ++ behind).head? =
        ⟨index + 1, (c :: line).length + 1⟩ := if_neg hcut
      have hlength : offset + (c :: line).length + before.length = offset + line.length + (c :: before).length := by
        simp only [List.length_cons]
        omega
      have hrest := ih (c :: line) offset index
      rw [hlength, ← hdrawn, ← hcons] at hrest
      exact hrest

/-- The line and the column of a place in the drawing of a text. -/
def drawnPlace? (text : List Char) (place : Nat) : Option LineColumn :=
  (lineOf? (sourceLines text) text.length place).map fun (l, j) => ⟨j + 1, place - l.offset + 1⟩

/-- **Where a drawing finds a place of its text:** at the character there, or right behind the last one. -/
theorem drawnPlace?_eq {text : List Char} (htext : text ≠ []) {place : Nat} (hplace : place ≤ text.length)
    {character : Nat} (hcharacter : character = min place (text.length - 1)) :
    let drawn := LineColumn.drawnAfter ⟨1, 1⟩ (text.take character) (text.drop character)
    drawnPlace? text place = some ⟨drawn.line, drawn.column + (place - character)⟩ := by
  have hpos := List.length_pos_of_ne_nil htext
  have hbehind : text.drop character ≠ [] := by
    rw [Ne, List.drop_eq_nil_iff]
    omega
  have hlength : (text.take character).length = character := by
    rw [List.length_take]
    omega
  have hextra : place - character = 0 ∨ place - character = 1 ∧ (text.drop character).length = 1 := by
    rw [List.length_drop]
    omega
  obtain ⟨l, j, hlast, hoffset, hdrawn⟩ := lastUpTo_placeLines hbehind hextra (text.take character) [] 0 0
  rw [hlength, List.take_append_drop] at hlast
  rw [hlength] at hoffset hdrawn
  simp only [List.length_nil, Nat.zero_add] at hlast hoffset hdrawn
  have hline : lineOf? (sourceLines text) text.length place = some (l, j) := by
    have hsum : character + (place - character) = place := by omega
    rw [hsum] at hlast
    unfold lineOf?
    rw [if_neg (Nat.not_lt.2 hplace)]
    exact hlast
  have hcolumn : place - l.offset + 1 = character - l.offset + 1 + (place - character) := by omega
  dsimp only
  unfold drawnPlace?
  rw [hline, hdrawn, Option.map_some]
  dsimp only
  rw [hcolumn]

/-- Beyond its text a drawing finds nothing. -/
theorem drawnPlace?_eq_none {text : List Char} {place : Nat} (hplace : text.length < place) :
    drawnPlace? text place = none := by
  unfold drawnPlace? lineOf?
  rw [if_pos hplace]
  rfl

/-! ### Line feeds only -/

/-- Whether the lines of a text with another one behind it end at line feeds only. -/
def OnlyFeeds : List Char → List Char → Prop
  | [], _ => True
  | c :: before, behind => (cutsBehind c (before ++ behind).head? = true → c = '\n') ∧ OnlyFeeds before behind

instance decideOnlyFeeds : (before behind : List Char) → Decidable (OnlyFeeds before behind)
  | [], _ => .isTrue trivial
  | c :: before, behind =>
    have := decideOnlyFeeds before behind
    inferInstanceAs (Decidable ((cutsBehind c (before ++ behind).head? = true → c = '\n') ∧ OnlyFeeds before behind))

namespace LineColumn

/-- On such a text the drawing and the message go together. -/
theorem drawnAfter_eq {before behind : List Char} (h : OnlyFeeds before behind) (place : LineColumn) :
    place.drawnAfter before behind = before.foldl advance place := by
  induction before generalizing place with
  | nil => rfl
  | cons c before ih =>
    have hstep : place.drawn c (before ++ behind).head? = place.advance c := by
      unfold drawn advance
      by_cases hc : c = '\n'
      · subst hc
        rw [if_pos (cutsBehind_feed _), if_pos rfl]
      · rw [if_neg (fun hcut => hc (h.1 hcut)), if_neg hc]
    show drawnAfter (place.drawn c (before ++ behind).head?) before behind = _
    rw [hstep]
    exact ih h.2 _

/-- A drawing has as many lines as the message tells, or more; if not more, there are no other line ends. -/
theorem foldl_advance_le (before behind : List Char) (place place' : LineColumn)
    (hplace : place'.line ≤ place.line) :
    (before.foldl advance place').line ≤ (place.drawnAfter before behind).line ∧
      ((place.drawnAfter before behind).line = (before.foldl advance place').line →
        place'.line = place.line ∧ OnlyFeeds before behind) := by
  induction before generalizing place place' with
  | nil => exact ⟨hplace, fun heq => ⟨heq.symm, trivial⟩⟩
  | cons c before ih =>
    show (before.foldl advance (place'.advance c)).line ≤
        (drawnAfter (place.drawn c (before ++ behind).head?) before behind).line ∧
      ((drawnAfter (place.drawn c (before ++ behind).head?) before behind).line =
        (before.foldl advance (place'.advance c)).line → _)
    unfold drawn advance
    by_cases hc : c = '\n'
    · subst hc
      rw [if_pos (cutsBehind_feed _), if_pos rfl]
      obtain ⟨hle, heq⟩ := ih ⟨place.line + 1, 1⟩ ⟨place'.line + 1, 1⟩ (Nat.succ_le_succ hplace)
      refine ⟨hle, fun hlines => ?_⟩
      obtain ⟨hsame, honly⟩ := heq hlines
      exact ⟨Nat.succ.inj hsame, fun _ => rfl, honly⟩
    · rw [if_neg hc]
      by_cases hcut : cutsBehind c (before ++ behind).head? = true
      · rw [if_pos hcut]
        obtain ⟨hle, heq⟩ := ih ⟨place.line + 1, 1⟩ ⟨place'.line, place'.column + 1⟩
          (Nat.le_succ_of_le hplace)
        refine ⟨hle, fun hlines => ?_⟩
        have hsame : place'.line = place.line + 1 := (heq hlines).1
        omega
      · rw [if_neg hcut]
        obtain ⟨hle, heq⟩ := ih ⟨place.line, place.column + 1⟩ ⟨place'.line, place'.column + 1⟩ hplace
        refine ⟨hle, fun hlines => ?_⟩
        obtain ⟨hsame, honly⟩ := heq hlines
        exact ⟨hsame, fun hcut' => absurd hcut' hcut, honly⟩

end LineColumn

/-- **Where a drawing and a message agree.**  A drawing that is asked for a place behind some characters, or for
a later one, shows the line and the column behind these characters exactly if it was asked for the place right
behind them and their lines end at line feeds only. -/
theorem drawnPlace?_eq_after_iff {before behind : List Char} (hbehind : behind ≠ []) {place : Nat}
    (hbefore : before.length ≤ place) :
    drawnPlace? (before ++ behind) place = some (.after before) ↔
      place = before.length ∧ OnlyFeeds before behind := by
  have hpos := List.length_pos_of_ne_nil hbehind
  have hlength : (before ++ behind).length = before.length + behind.length := List.length_append
  by_cases hplace : place ≤ (before ++ behind).length
  · obtain ⟨character, hcharacter⟩ : ∃ character, character = min place ((before ++ behind).length - 1) := ⟨_, rfl⟩
    rw [drawnPlace?_eq (List.append_ne_nil_of_right_ne_nil before hbehind) hplace hcharacter, Option.some.injEq]
    -- the character asked for is some characters further on
    obtain ⟨ahead, hahead⟩ := Nat.exists_eq_add_of_le (show before.length ≤ character by omega)
    have htake : (before ++ behind).take character = before ++ behind.take ahead := by
      rw [hahead, List.take_length_add_append]
    have hdrop : (before ++ behind).drop character = behind.drop ahead := by
      rw [hahead, List.drop_length_add_append]
    have htaken : (behind.take ahead).length = ahead := by
      rw [List.length_take]
      omega
    rw [htake, hdrop, LineColumn.drawnAfter_append, List.take_append_drop]
    obtain ⟨first, hfirst⟩ : ∃ first, first = LineColumn.drawnAfter ⟨1, 1⟩ before behind := ⟨_, rfl⟩
    have hlines := LineColumn.foldl_advance_le before behind ⟨1, 1⟩ ⟨1, 1⟩ (Nat.le_refl 1)
    have hfurther := first.drawnAfter_later (behind.take ahead) (behind.drop ahead)
    rw [← hfirst] at hlines ⊢
    rw [htaken] at hfurther
    refine ⟨fun heq => ?_, fun ⟨hsame, hfeeds⟩ => ?_⟩
    · have hline := congrArg LineColumn.line heq
      have hcolumn := congrArg LineColumn.column heq
      dsimp only at hline hcolumn
      have hafter : (LineColumn.after before).line = (before.foldl LineColumn.advance ⟨1, 1⟩).line := rfl
      have hfeeds : OnlyFeeds before behind := (hlines.2 (by omega)).2
      have hfirstAfter : first = .after before := hfirst.trans (LineColumn.drawnAfter_eq hfeeds _)
      rw [← hfirstAfter] at hline hcolumn
      have := hfurther.2 hline
      exact ⟨by omega, hfeeds⟩
    · have hfirstAfter : first = .after before := hfirst.trans (LineColumn.drawnAfter_eq hfeeds _)
      obtain rfl : ahead = 0 := by omega
      have hnone : place - character = 0 := by omega
      rw [hnone, hfirstAfter]
      rfl
  · rw [drawnPlace?_eq_none (Nat.not_le.1 hplace)]
    refine ⟨nofun, fun ⟨hsame, _⟩ => absurd hsame ?_⟩
    omega

end JsonFilter.Text
