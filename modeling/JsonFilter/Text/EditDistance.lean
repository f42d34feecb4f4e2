/-!
# Edit distance and suggestions

`editDistance` counts the insertions, deletions and substitutions of single characters that turn
one text into another, row by row of the usual table.  `closest?` picks the candidate a writer most
likely meant.
-/

namespace JsonFilter.Text

/-- The rest of a row of the table: `above` holds the entry above and those to its right,
`diagonal` the entry above and to the left, `left` the entry to the left. -/
def editRow (c : Char) : List Char → List Nat → Nat → Nat → List Nat
  | d :: ds, up :: above, diagonal, left =>
    let cost := if c = d then 0 else 1
    let entry := min (min (up + 1) (left + 1)) (diagonal + cost)
    entry :: editRow c ds above up entry
  | _, _, _, _ => []

/-- The row after reading one more character of the first text. -/
def nextEditRow (target : List Char) (c : Char) : List Nat → List Nat
  | [] => []
  | corner :: above => (corner + 1) :: editRow c target above corner (corner + 1)

/-- The least number of single-character insertions, deletions and substitutions between two
texts. -/
def editDistance (source target : List Char) : Nat :=
  let row := source.foldl (fun row c => nextEditRow target c row) (List.range (target.length + 1))
  row.getLast?.getD 0

/-- How far a suggestion may be from a text: one edit for texts under three bytes, three for the
others. -/
def suggestionThreshold (target : String) : Nat := if target.utf8ByteSize < 3 then 1 else 3

/-- The first of the candidates nearest to the target, if it is near enough. -/
def closest? (target : String) (candidates : List String) : Option String :=
  let threshold := suggestionThreshold target
  let better (best : Option (Nat × String)) (candidate : String) : Option (Nat × String) :=
    let distance := editDistance target.toList candidate.toList
    match best with
    | none => if distance ≤ threshold then some (distance, candidate) else none
    | some (least, _) => if distance < least then some (distance, candidate) else best
  (candidates.foldl better none).map Prod.snd

end JsonFilter.Text
