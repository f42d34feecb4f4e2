import JsonFilter.Json.Value

/-!
# The order of JSON values

Null, false, true, numbers, strings, arrays and objects follow one another in this order.  Numbers
compare by their binary64 value, strings by their code points, arrays item by item and then by
length.  Objects compare by their sorted keys first, and then by what the keys name, in the order of
the keys.
-/

namespace JsonFilter.Json
namespace Value

/-- The place of a value's type, with false and true apart. -/
def rank : Value → Nat
  | .null => 0
  | .bool false => 1
  | .bool true => 2
  | .number _ => 3
  | .string _ => 4
  | .array _ => 5
  | .object _ => 6

end Value

/-- The order of two numbers. -/
def Number.compare (a b : Number) : Ordering :=
  (Binary64.compare? a.toBinary64 b.toBinary64).getD .eq

/-- The order of two lists by their first difference; of two that agree the shorter comes first. -/
def compareLists {α : Type} (compare : α → α → Ordering) : List α → List α → Ordering
  | [], [] => .eq
  | [], _ :: _ => .lt
  | _ :: _, [] => .gt
  | x :: xs, y :: ys => (compare x y).then (compareLists compare xs ys)

/-- The first difference that tests find when they are run on the values one by one. -/
def firstDifference {α : Type} : List (α → Ordering) → List α → Ordering
  | test :: tests, v :: vs => (test v).then (firstDifference tests vs)
  | _, _ => .eq

namespace Value

mutual

/-- The order of two values. -/
def compare : Value → Value → Ordering
  | .number a, .number b => a.compare b
  | .string a, .string b => Ord.compare a b
  | .array as, .array bs => compareItems as bs
  | .object as, .object bs =>
    let tests := Members.sortByKey (memberTests as)
    let others := Members.sortByKey bs
    (compareLists Ord.compare (Members.keys tests) (Members.keys others)).then
      (firstDifference (Members.values tests) (Members.values others))
  | a, b => Ord.compare a.rank b.rank

/-- The order of two lists of items. -/
def compareItems : List Value → List Value → Ordering
  | [], [] => .eq
  | [], _ :: _ => .lt
  | _ :: _, [] => .gt
  | a :: as, b :: bs => (compare a b).then (compareItems as bs)

/-- The members of an object, what a key names replaced by its comparison with another value. -/
def memberTests : List (String × Value) → List (String × (Value → Ordering))
  | [] => []
  | (k, v) :: rest => (k, compare v) :: memberTests rest

end

/-- Equal in the order: numbers by value, objects whatever the order of their keys. -/
def equals (a b : Value) : Bool := a.compare b == .eq

/-- A list of values in ascending order; equal ones stay in their order. -/
def sort (vs : List Value) : List Value := vs.mergeSort fun a b => a.compare b != .gt

end Value
end JsonFilter.Json
