import JsonFilter.Diagnostic
import JsonFilter.Text.Lines
import JsonFilter.Text.Width

/-!
# Diagnostics drawn into their source

A report shows the message, the place, and the labelled lines of the source in a frame.  A label on
one line is underlined, its text hangs from the middle of the line.  A label over several lines is a
bracket in the margin from its first line to its last one, with a gap for the lines between.

Offsets count characters here, and a label that does not lie within the source leaves the frame
empty.  A label whose end lies before its start cannot be drawn, and neither can one at the start of a
source without lines.
-/

namespace JsonFilter

/-- How wide a character is drawn at a column: a tab reaches the next multiple of four. -/
def drawnWidth (c : Char) (column : Nat) : Nat :=
  if c = '\t' then (column / 4 + 1) * 4 - column
  else if Text.isBlank c then 1
  else Text.displayWidth c

/-- A character of a source line as it is drawn. -/
def drawnChar (c : Char) (column : Nat) : List Char :=
  if Text.isBlank c then List.replicate (drawnWidth c column) ' ' else [c]

/-- A source line as it is drawn. -/
def drawnLine (shown : List Char) : List Char :=
  (shown.zipIdx.map fun (c, column) => drawnChar c column).flatten

/-- Draws one row below a line, up to a column: `cell` gives the mark of a column and what fills the
rest of its width. -/
def drawnRow (shown : List Char) (columns : Nat) (cell : Nat → Char × Char) : List Char :=
  let draw (column : Nat) : List Char :=
    let width := (shown[column]?.map fun c => drawnWidth c column).getD 1
    let (mark, fill) := cell column
    if width = 0 then [] else mark :: List.replicate (width - 1) fill
  ((List.range columns).map draw).flatten

/-- A label with the lines it touches. -/
structure LabelView where
  start : Nat
  stop : Nat
  text : Option String
  lines : List Text.SourceLine
  /-- The number of characters of the source. -/
  length : Nat

namespace LabelView

/-- The last character of the label. -/
def last (v : LabelView) : Nat := max (v.stop - 1) v.start

/-- The line of the first character. -/
def startLine? (v : LabelView) : Option (Text.SourceLine × Nat) :=
  Text.lineOf? v.lines v.length v.start

/-- The line of the last character. -/
def stopLine? (v : LabelView) : Option (Text.SourceLine × Nat) :=
  Text.lineOf? v.lines v.length v.last

/-- Whether the label needs the margin. -/
def isWide (v : LabelView) : Bool := v.startLine?.map Prod.snd != v.stopLine?.map Prod.snd

/-- The index of the first line shown. -/
def firstIndex (v : LabelView) : Nat := (v.startLine?.map Prod.snd).getD 0

/-- The index behind the last line shown. -/
def stopIndex (v : LabelView) : Nat := (v.stopLine?.map fun l => l.2 + 1).getD v.lines.length

/-- The width of the line numbers. -/
def numberWidth (v : LabelView) : Nat := (Nat.toDigits 10 v.stopIndex).length

/-- The margin of a row without a line number. -/
def margin (v : LabelView) (bar : Char) : List Char :=
  List.replicate (v.numberWidth + 2) ' ' ++ [bar, ' ']

/-- The margin of a source line. -/
def numberedMargin (v : LabelView) (index : Nat) : List Char :=
  let number := Nat.toDigits 10 (index + 1)
  ' ' :: (List.replicate (v.numberWidth - number.length) ' ' ++ number ++ [' ', '│', ' '])

/-- The text of the label behind its arrow. -/
def textChars (v : LabelView) : List Char := ' ' :: (v.text.getD "").toList

/-- The rows of a line on which the whole label lies. -/
def inlineRows (v : LabelView) (line : Text.SourceLine) (index : Nat) : List (List Char) :=
  let middle := max ((v.start + v.stop) / 2) v.start - line.offset
  let columns := v.stop - line.offset + 2
  let covered (column : Nat) : Bool :=
    v.start ≤ line.offset + column && line.offset + column < v.stop
  let hung (column : Nat) : Bool := v.text.isSome && column == middle
  let under (column : Nat) : Char × Char :=
    if hung column then (if covered column then ('┬', '─') else ('│', ' '))
    else if covered column then ('─', '─')
    else (' ', ' ')
  let arrow (column : Nat) : Char × Char :=
    if hung column then ('╰', '─')
    else if v.text.isSome && middle < column then ('─', '─')
    else (' ', ' ')
  [v.numberedMargin index ++ drawnLine line.shown,
    v.margin '│' ++ drawnRow line.shown columns under,
    v.margin '│' ++ drawnRow line.shown columns arrow ++ v.textChars]

/-- The rows of the last line of a label over several lines. -/
def closingRows (v : LabelView) (line : Text.SourceLine) (index : Nat) : List (List Char) :=
  let columns := line.length + 2
  let arrow : Char := if v.text.isSome then '─' else ' '
  [v.numberedMargin index ++ ['├', '─', '▶', ' '] ++ drawnLine line.shown,
    v.margin '│' ++ ['│', ' ', ' ', ' '] ++ drawnRow line.shown columns fun _ => (' ', ' '),
    v.margin '│' ++ ['╰', '─', '─', '─'] ++
      drawnRow line.shown columns (fun _ => (arrow, arrow)) ++ v.textChars]

/-- The rows of the lines shown; `skipping` tells whether the line before left only a gap. -/
def rowsFrom (v : LabelView) (skipping : Bool) :
    List (Text.SourceLine × Nat) → List (List Char)
  | [] => []
  | (line, index) :: rest =>
    if v.isWide then
      if line.holds v.start then
        (v.numberedMargin index ++ ['╭', '─', '▶', ' '] ++ drawnLine line.shown) ::
          v.rowsFrom false rest
      else if line.holds v.last then v.closingRows line index ++ v.rowsFrom false rest
      else if skipping then v.rowsFrom true rest
      else if v.start ≤ line.offset && line.offset < v.stop then
        (v.margin '┆' ++ ['┆', ' ', ' ', ' ']) :: v.rowsFrom true rest
      else v.margin '│' :: v.rowsFrom true rest
    else if line.offset ≤ v.start && v.stop ≤ line.offset + line.length then
      v.inlineRows line index ++ v.rowsFrom false rest
    else if skipping then v.rowsFrom true rest
    else v.margin '│' :: v.rowsFrom true rest

/-- The rows of the lines shown. -/
def rows (v : LabelView) : List (List Char) :=
  v.rowsFrom false ((v.lines.zipIdx.take v.stopIndex).drop v.firstIndex)

/-- What the margin of a label over several lines adds to the rows of help. -/
def helpMargin (v : LabelView) : List Char :=
  if !v.isWide then []
  else
    match v.lines with
    | first :: _ =>
      if v.start = first.offset + first.length then ['│', ' ', ' ', ' '] else [' ', ' ', ' ', ' ']
    | [] => [' ', ' ', ' ', ' ']

end LabelView

/-- Why a diagnostic cannot be drawn. -/
inductive DrawingFault where
  /-- The label ends before it starts. -/
  | reversedLabel
  /-- There is no line for the label. -/
  | noLine
deriving DecidableEq, Repr

/-- The wording. -/
def DrawingFault.message : DrawingFault → String
  | .reversedLabel => "Label start is after its end"
  | .noLine => "index out of bounds: the len is 0 but the index is 0"

namespace Diagnostic

/-- The rows of a report. -/
def reportRows (d : Diagnostic) (source : List Char) : List (List Char) :=
  let v : LabelView := ⟨d.span.start, d.span.stop, d.label, Text.sourceLines source, source.length⟩
  let kind := match d.severity with
    | .error => "Error"
    | .warning => "Warning"
  let place := match v.startLine? with
    | some (line, index) => s!"{index + 1}:{v.start - line.offset + 1}"
    | none => "?:?"
  let blank := List.replicate (v.numberWidth + 2) ' '
  let help := match d.help with
    | some text =>
      [v.margin '│' ++ v.helpMargin, v.margin '│' ++ v.helpMargin ++ ("Help: " ++ text).toList]
    | none => []
  [s!"{kind}: {d.message}".toList,
    blank ++ ['╭', '─', '['] ++ s!"{d.sourceId}:{place}]".toList,
    blank ++ ['│']] ++ v.rows ++ help ++
    [List.replicate (v.numberWidth + 2) '─' ++ ['╯']]

/-- Why a diagnostic cannot be drawn into a source, if it cannot. -/
def drawingFault? (d : Diagnostic) (source : String) : Option DrawingFault :=
  if d.span.stop < d.span.start then some .reversedLabel
  else if source.isEmpty && d.span.start = 0 then some .noLine
  else none

/-- The reports of all diagnostics, one below the other. -/
def render (ds : List Diagnostic) (source : String) : String :=
  let chars := source.toList
  .ofList (((ds.map fun d => d.reportRows chars).flatten.map (· ++ ['\n'])).flatten)

/-- The reports, or why the first diagnostic that cannot be drawn cannot. -/
def render? (ds : List Diagnostic) (source : String) : Except DrawingFault String :=
  match ds.findSome? fun d => d.drawingFault? source with
  | some fault => .error fault
  | none => .ok (render ds source)

end Diagnostic
end JsonFilter
