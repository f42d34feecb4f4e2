import JsonFilter.Json.Arithmetic

/-!
# Access to the parts of a JSON value

Positions count from zero, negative ones from the end.  A position that is not whole is rounded down.
Slices cut at positions clamped into the array or the string, whose items are its characters.
-/

namespace JsonFilter.Json
namespace Value

/-- The place that a position means among `length` places, unless it lies before the first. -/
def resolvePosition (position : Binary64) (length : Nat) : Option Nat :=
  let floor := position.floor.toInt64
  let resolved := if floor < 0 then length + floor else floor
  if resolved < 0 then none else some resolved.toNat

/-- The place where a slice is cut; null stands for the absent bound. -/
def sliceBound (bound : Value) (absent length : Nat) : Outcome Nat :=
  match bound with
  | .null => .ok absent
  | .number n => .ok (min ((resolvePosition n.toBinary64 length).getD 0) length)
  | other => .error (.sliceBound other)

/-- The items between two bounds. -/
def sliceItems {α : Type} (items : List α) (start stop : Value) : Outcome (List α) := do
  let first ← sliceBound start 0 items.length
  let last ← sliceBound stop items.length items.length
  return (items.drop first).take (last - first)

/-- The part of an array or a string between two bounds; null has only null parts. -/
def slice (target start stop : Value) : Outcome Value :=
  match target with
  | .null => .ok .null
  | .array items => (sliceItems items start stop).map .array
  | .string text => (sliceItems text.toList start stop).map fun cs => .string (.ofList cs)
  | other => .error (.noIndex other (.object []))

/-- What an object's key names, or null. -/
def member (members : List (String × Value)) (key : String) : Value :=
  (Members.get? members key).getD .null

/-- The field of an object, or null where there is none. -/
def field (target : Value) (key : String) : Outcome Value :=
  match target with
  | .object members => .ok (member members key)
  | .null => .ok .null
  | other => .error (.noField other key)

/-- The part of a value that an index picks: a field, an item, or the slice between the bounds that
an object names. -/
def index (target key : Value) : Outcome Value :=
  match target, key with
  | .object members, .string key => .ok (member members key)
  | .array items, .number position =>
    .ok (((resolvePosition position.toBinary64 items.length).bind (items[·]?)).getD .null)
  | .null, .string _ => .ok .null
  | .null, .number _ => .ok .null
  | .null, .null => .ok .null
  | .array items, .object bounds => slice (.array items) (member bounds "start") (member bounds "end")
  | .null, .object _ => .ok .null
  | .string text, .object bounds =>
    slice (.string text) (member bounds "start") (member bounds "end")
  | target, .string key => .error (.noField target key)
  | target, key => .error (.noIndex target key)

/-- The values directly inside an array or an object. -/
def iterate : Value → Outcome (List Value)
  | .array items => .ok items
  | .object members => .ok (Members.values members)
  | other => .error (.notIterable other)

end Value
end JsonFilter.Json
