import JsonFilter.Proofs.Filter.Coverage
import JsonFilter.Proofs.Text.Lines
import JsonFilter.Report

/-!
# Places of lexical errors

An error of the lexer names its line and column twice: in its message, and in the frame that its diagnostic is
drawn into.  The message counts characters behind the last line feed.  The frame is given the number of bytes in
front of the error and takes it for a number of characters, and it has line ends of its own.  So the two go apart
behind every character of more than one byte, and behind every other line end.

* `Diagnostic.frame?` — the line and the column that the frame shows.
* **`frame_tells_the_place`** — when they are those of the message.
-/

namespace JsonFilter

open Text (byteLength LineColumn)

namespace Diagnostic

/-- The line and the column in the frame of a diagnostic. -/
def frame? (d : Diagnostic) (source : List Char) : Option LineColumn := Text.drawnPlace? source d.span.start

/-- The text of a place in a frame. -/
def frameText : Option LineColumn → String
  | some place => s!"{place.line}:{place.column}"
  | none => "?:?"

/-- The first two rows of a report: the message, and the upper edge of the frame. -/
theorem take_reportRows (d : Diagnostic) (source : List Char) (hseverity : d.severity = .error) :
    ∃ width, (d.reportRows source).take 2 = [s!"Error: {d.message}".toList,
      List.replicate width ' ' ++ ['╭', '─', '['] ++ s!"{d.sourceId}:{frameText (d.frame? source)}]".toList] := by
  let v : LabelView := ⟨d.span.start, d.span.stop, d.label, Text.sourceLines source, source.length⟩
  have hframe : d.frame? source = v.startLine?.map fun p => ⟨p.2 + 1, v.start - p.1.offset + 1⟩ := rfl
  refine ⟨v.numberWidth + 2, ?_⟩
  unfold reportRows
  rw [hseverity, hframe]
  dsimp only
  cases v.startLine? <;> rfl

end Diagnostic

namespace Filter

theorem LexError.toDiagnostic_facts (e : LexError) (sourceId : String) :
    (e.toDiagnostic sourceId).severity = .error ∧ (e.toDiagnostic sourceId).sourceId = sourceId ∧
      (e.toDiagnostic sourceId).span = e.span ∧ (e.toDiagnostic sourceId).message = e.message := by
  unfold toDiagnostic
  dsimp only
  split <;> exact ⟨rfl, rfl, rfl, rfl⟩

/-- An error covers a part of its source, and names the line and the column in front of that. -/
theorem place_of_mem_errors {source : String} {errors : List LexError} (h : tokenize source = .error errors)
    {e : LexError} (he : e ∈ errors) :
    ∃ before part behind, source.toList = before ++ (part ++ behind) ∧ part ≠ [] ∧
      e.span = ⟨byteLength before, byteLength before + byteLength part⟩ ∧ e.place = .after before := by
  obtain ⟨pieces, hpieces⟩ := exists_pieces source.toList
  obtain ⟨hsome, rfl⟩ := tokenize_eq_error_iff.1 h
  rw [scan_eq_reportsOf hpieces 0 .start] at hsome he
  obtain ⟨before, part, behind, hsource, hpart, hspan, -⟩ := (located_of_pieces hpieces hsome).placed e he
  refine ⟨before, part, behind, hsource, hpart, hspan, ?_⟩
  obtain ⟨finding, -, rfl⟩ := List.mem_map.1 he
  have hstart : finding.span.start = byteLength before := congrArg Span.start hspan
  show LineColumn.after (Text.takeBytes finding.span.start source.toList) = .after before
  rw [hstart, hsource, Text.takeBytes_append]

/-- **The frame and the message of a lexical error.**  The diagnostic of an error can be drawn.  Its message ends
with the line and the column behind the characters in front of the error.  The frame shows the place at which the
drawing finds the character whose number is the number of bytes in front of the error.  The two are the same
exactly if all characters in front are of one byte and no line there ends but with a line feed. -/
theorem frame_tells_the_place (sourceId : String) {source : String} {errors : List LexError}
    (h : tokenize source = .error errors) {e : LexError} (he : e ∈ errors) :
    let d := e.toDiagnostic sourceId
    d.drawingFault? source = none ∧
    (∃ width, (d.reportRows source.toList).take 2 =
      [s!"Error: {e.fault.description} (line {e.place.line}, column {e.place.column})".toList,
        List.replicate width ' ' ++ ['╭', '─', '['] ++
          s!"{sourceId}:{Diagnostic.frameText (d.frame? source.toList)}]".toList]) ∧
    let before := Text.takeBytes e.span.start source.toList
    let behind := Text.dropBytes e.span.start source.toList
    source.toList = before ++ behind ∧ e.span.start = byteLength before ∧ e.place = .after before ∧
      d.frame? source.toList = Text.drawnPlace? source.toList (byteLength before) ∧
      (d.frame? source.toList = some e.place ↔
        (∀ c ∈ before, c.utf8Size = 1) ∧ Text.OnlyFeeds before behind) := by
  obtain ⟨hseverity, hid, hspan, hmessage⟩ := e.toDiagnostic_facts sourceId
  obtain ⟨before, part, behind, hsource, hpart, hcovers, hplace⟩ := place_of_mem_errors h he
  have hstart : e.span.start = byteLength before := by rw [hcovers]
  have hframe : (e.toDiagnostic sourceId).frame? source.toList =
      Text.drawnPlace? source.toList (byteLength before) := by
    unfold Diagnostic.frame?
    rw [hspan, hstart]
  have hbefore : Text.takeBytes e.span.start source.toList = before := by
    rw [hstart, hsource, Text.takeBytes_append]
  have hbehind : Text.dropBytes e.span.start source.toList = part ++ behind := by
    rw [hstart, hsource, Text.dropBytes_append]
  dsimp only
  rw [hbefore, hbehind]
  refine ⟨?_, ?_, hsource, hstart, hplace, hframe, ?_⟩
  · unfold Diagnostic.drawingFault?
    rw [hspan, hcovers, if_neg (Nat.not_lt.2 (Nat.le_add_right _ _)), if_neg]
    intro hempty
    rw [Bool.and_eq_true, String.isEmpty_iff] at hempty
    rw [hempty.1] at hsource
    have hparts := congrArg List.length hsource
    have hpos := List.length_pos_of_ne_nil hpart
    rw [List.length_append, List.length_append] at hparts
    have hnone : ("" : String).toList.length = 0 := rfl
    omega
  · obtain ⟨width, hrows⟩ := (e.toDiagnostic sourceId).take_reportRows source.toList hseverity
    refine ⟨width, ?_⟩
    rw [hrows, hid, hmessage]
    rfl
  · rw [hframe, hplace, hsource, Text.drawnPlace?_eq_after_iff (List.append_ne_nil_of_left_ne_nil hpart _)
      (Text.length_le_byteLength before), Text.byteLength_eq_length_iff]

/-- A line feed and some blanks in front of the error. -/
theorem frame_tells_the_place_ascii :
    ∃ e, tokenize ".a |\n  @" = .error [e] ∧ e.place = ⟨2, 3⟩ ∧
      (e.toDiagnostic "<filter>").frame? ".a |\n  @".toList = some e.place := by
  have herrors : tokenize ".a |\n  @" = .error [⟨.unexpectedCharacter '@', ⟨7, 8⟩, ⟨2, 3⟩⟩] := by decide +kernel
  obtain ⟨-, -, -, -, -, -, hiff⟩ := frame_tells_the_place "<filter>" herrors List.mem_cons_self
  exact ⟨_, herrors, rfl, hiff.2 ⟨Text.byteLength_eq_length_iff.1 (by decide +kernel), by decide +kernel⟩⟩

/-- The letter between the quotes has two bytes, so the frame shows a column too many. -/
theorem frame_behind_wide_character :
    ∃ e, tokenize "\"é\"@" = .error [e] ∧ e.message = "unexpected character `@` (line 1, column 4)" ∧
      (e.toDiagnostic "<filter>").frame? "\"é\"@".toList = some ⟨1, 5⟩ := by
  have herrors : tokenize "\"é\"@" = .error [⟨.unexpectedCharacter '@', ⟨4, 5⟩, ⟨1, 4⟩⟩] := by decide +kernel
  exact ⟨_, herrors, by decide +kernel, by decide +kernel⟩

end Filter
end JsonFilter
