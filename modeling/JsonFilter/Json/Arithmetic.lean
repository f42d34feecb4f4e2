import JsonFilter.Json.Order
import JsonFilter.Json.ValueError
import JsonFilter.Text.Search

/-!
# Operators on JSON values

Numbers are added and so on as binary64 numbers.  The sum of strings, arrays and objects is their
concatenation, their difference removes items, a string times a number repeats it, a string divided
by a string splits it, and the product of objects merges them at every depth.
-/

namespace JsonFilter.Json

namespace Value

/-- An array of strings. -/
def ofStrings (texts : List (List Char)) : Value := .array (texts.map fun t => .string (.ofList t))

/-- The sum.  Null adds nothing. -/
def add : Value → Value → Outcome Value
  | .null, b => .ok b
  | a, .null => .ok a
  | .number a, .number b => .ok (.ofBinary64 (a.toBinary64.add b.toBinary64))
  | .string a, .string b => .ok (.string (a ++ b))
  | .array a, .array b => .ok (.array (a ++ b))
  | .object a, .object b => .ok (.object (Members.extend a b))
  | a, b => .error (.operands .addition a b)

/-- The difference; of arrays, the items that equal no item of the second one. -/
def subtract : Value → Value → Outcome Value
  | .number a, .number b => .ok (.ofBinary64 (a.toBinary64.sub b.toBinary64))
  | .array a, .array b => .ok (.array (a.filter fun item => !b.any fun gone => item.equals gone))
  | a, b => .error (.operands .subtraction a b)

/-- A text a number of times in a row, put together from halves. -/
def repeatText (text : String) (count : Nat) : String :=
  if count = 0 then ""
  else
    let half := repeatText text (count / 2)
    if count % 2 = 0 then half ++ half else half ++ half ++ text
termination_by count
decreasing_by omega

theorem flatten_replicate_add {α : Type} (m n : Nat) (l : List α) :
    (List.replicate (m + n) l).flatten =
      (List.replicate m l).flatten ++ (List.replicate n l).flatten := by
  rw [← List.replicate_append_replicate, List.flatten_append]

theorem toList_repeatText (text : String) (count : Nat) :
    (repeatText text count).toList = (List.replicate count text.toList).flatten := by
  induction count using Nat.strongRecOn with
  | _ count ih =>
    rw [repeatText]
    by_cases hzero : count = 0
    · simp [hzero]
    · have hhalf := ih (count / 2) (by omega)
      rw [if_neg hzero]
      by_cases heven : count % 2 = 0
      · have hcount : count = count / 2 + count / 2 := by omega
        rw [if_pos heven, String.toList_append, hhalf, ← flatten_replicate_add, ← hcount]
      · have hcount : count = count / 2 + count / 2 + 1 := by omega
        have hlast : (List.replicate 1 text.toList).flatten = text.toList := by simp
        have hwhole := flatten_replicate_add (count / 2 + count / 2) 1 text.toList
        rw [hlast, ← hcount] at hwhole
        rw [if_neg heven, String.toList_append, String.toList_append, hhalf,
          ← flatten_replicate_add, hwhole]

/-- The most bytes a repeated string may have. -/
def maxRepeatBytes : Nat := twoTo 28

/-- A string repeated a number of times, rounded up; null where the number is not positive. -/
def repeatString (text : String) (times : Binary64) : Outcome Value :=
  if !Binary64.lt .zero times then .ok .null
  else if text.isEmpty then .ok (.string "")
  else
    match times with
    | .finite x =>
      let count := x.ceilInt.toNat
      if maxRepeatBytes < count * text.utf8ByteSize then .error .repeatTooLong
      else .ok (.string (repeatText text count))
    | _ => .error .repeatTooLong

mutual

/-- Merges the members of the second object into the first one by one.  Each key is taken out of the
first object, the last member moving into the gap, and put back at the end. -/
def mergeMembers (base : List (String × Value)) : List (String × Value) → List (String × Value)
  | [] => base
  | (k, v) :: rest =>
    let merged := mergeValue (Members.get? base k) v
    mergeMembers (Members.insert (Members.swapRemove base k) k merged) rest

/-- What a key names after the merge: two objects are merged, else the new value stands. -/
def mergeValue (existing : Option Value) : Value → Value
  | .object incoming =>
    match existing with
    | some (.object base) => .object (mergeMembers base incoming)
    | _ => .object incoming
  | v => v

end

/-- The product. -/
def multiply : Value → Value → Outcome Value
  | .number a, .number b => .ok (.ofBinary64 (a.toBinary64.mul b.toBinary64))
  | .string text, .number times => repeatString text times.toBinary64
  | .number times, .string text => repeatString text times.toBinary64
  | .object a, .object b => .ok (.object (mergeMembers a b))
  | a, b => .error (.operands .multiplication a b)

/-- The parts of a string between the occurrences of another. -/
def split (text separator : String) : Value :=
  ofStrings (Text.splitOn text.toList separator.toList)

/-- The quotient. -/
def divide : Value → Value → Outcome Value
  | .number a, .number b =>
    if Binary64.compare? b.toBinary64 .zero = some .eq then
      .error (.zeroDivisor (.number a) (.number b))
    else .ok (.ofBinary64 (a.toBinary64.div b.toBinary64))
  | .string text, .string separator => .ok (split text separator)
  | a, b => .error (.operands .division a b)

/-- The remainder of the integer parts, with the sign of the dividend. -/
def modulo : Value → Value → Outcome Value
  | .number a, .number b =>
    let dividend := a.toBinary64.toInt64
    let divisor := b.toBinary64.toInt64
    if divisor = 0 then .error (.zeroDivisor (.number a) (.number b))
    else .ok (.ofInt (dividend.tmod divisor.natAbs))
  | a, b => .error (.operands .division a b)

end Value
end JsonFilter.Json
