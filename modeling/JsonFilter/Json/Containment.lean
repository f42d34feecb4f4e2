import JsonFilter.Json.Order
import JsonFilter.Text.Search

/-!
# Containment

A string contains its parts, an array contains another if each item of that one is contained in one
of its items, and an object another if it has each key of that one with a value that contains the
other value.  Everything else contains its equals only.
-/

namespace JsonFilter.Json.Value

mutual

/-- Whether the first value is contained in the second. -/
def containedIn : Value → Value → Bool
  | .object wanted, .object found => membersIn wanted found
  | .array wanted, .array found => itemsIn wanted found
  | .string wanted, .string found => Text.occursIn wanted.toList found.toList
  | wanted, found => found.equals wanted

/-- Whether each member is contained in the value that its key names. -/
def membersIn : List (String × Value) → List (String × Value) → Bool
  | [], _ => true
  | (k, wanted) :: rest, found =>
    (match Members.get? found k with
      | some v => containedIn wanted v
      | none => false) && membersIn rest found

/-- Whether each item is contained in one of the others. -/
def itemsIn : List Value → List Value → Bool
  | [], _ => true
  | wanted :: rest, found => found.any (fun v => containedIn wanted v) && itemsIn rest found

end

/-- Whether the first value contains the second. -/
def contains (container part : Value) : Bool := containedIn part container

end JsonFilter.Json.Value
