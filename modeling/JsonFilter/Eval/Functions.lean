import JsonFilter.Filter.Builtin
import JsonFilter.Json.Access
import JsonFilter.Json.Containment
import JsonFilter.Json.Reader
import JsonFilter.Text.Blank

/-!
# Functions of one input

The builtins that map their input, and at most one argument that is a value, to one output.
-/

namespace JsonFilter.Eval

open JsonFilter.Filter Json

/-! ### Inputs of a type -/

/-- The number that a function needs. -/
def numberInput (name : String) (input : Value) : Outcome Binary64 :=
  match input.number? with
  | some x => .ok x
  | none => .error (.numberRequired name input)

/-- The string that a function needs. -/
def stringInput (name : String) : Value → Outcome String
  | .string s => .ok s
  | other => .error (.stringRequired name other)

/-- The array that a sort needs. -/
def sortInput : Value → Outcome (List Value)
  | .array items => .ok items
  | other => .error (.notSortable other)

/-! ### Functions without arguments -/

/-- The length of a value: characters, items, members, or the magnitude of a number. -/
def length : Value → Outcome Value
  | .null => .ok (.ofNat 0)
  | .bool b => .error (.noLength (.bool b))
  | .number n => .ok (.ofBinary64 n.toBinary64.abs)
  | .string s => .ok (.ofNat s.length)
  | .array items => .ok (.ofNat items.length)
  | .object members => .ok (.ofNat members.length)

/-- The keys of an object, or the positions in an array. -/
def keys (sorted : Bool) : Value → Outcome Value
  | .object members =>
    let names := Members.keys members
    let names := if sorted then names.mergeSort fun a b => a ≤ b else names
    .ok (.array (names.map .string))
  | .array items => .ok (.array ((List.range items.length).map .ofNat))
  | other => .error (.noKeys other)

/-- The sum of all values inside, null if there are none. -/
def sumInside (input : Value) : Outcome Value :=
  match input with
  | .null => .ok .null
  | other => other.iterate >>= List.foldlM Value.add .null

/-- Whether one of the values inside is true. -/
def anyInside (input : Value) : Outcome Value :=
  input.iterate.map fun values => .bool (values.any Value.truthy)

/-- Whether all of the values inside are true. -/
def allInside (input : Value) : Outcome Value :=
  input.iterate.map fun values => .bool (values.all Value.truthy)

/-- The number that a string spells, between blanks. -/
def toNumber : Value → Outcome Value
  | .number n => .ok (.number n)
  | .string text =>
    match Binary64.ofText? (.ofList (Text.trim text.toList)) with
    | some x => .ok (.ofBinary64 x)
    | none => .error (.notParsable text)
  | other => .error (.notNumeric other)

/-- The value that a string holds as JSON text. -/
def fromJson (input : Value) : Outcome Value := do
  let text ← stringInput "fromjson" input
  match Value.ofText text with
  | .ok v => return v
  | .error e => throw (.badJson e.message text)

/-- The items or characters in reverse order. -/
def reverse : Value → Outcome Value
  | .null => .ok (.array [])
  | .array items => .ok (.array items.reverse)
  | .string s => .ok (.string (.ofList s.toList.reverse))
  | other => .error (.notReversible other)

/-- Leaves only the first of equal neighbours. -/
def dropEqualNeighbours : List Value → List Value
  | [] => []
  | v :: rest => v :: keepFrom v rest
where
  /-- The items that differ from the last one kept. -/
  keepFrom (kept : Value) : List Value → List Value
    | [] => []
    | v :: rest => if v.equals kept then keepFrom kept rest else v :: keepFrom v rest

/-- The first of the items that no other one beats in the wanted direction, or null. -/
def extreme (wanted : Ordering) : List Value → Value
  | [] => .null
  | v :: rest => rest.foldl (fun best item => if item.compare best == wanted then item else best) v

/-- The items that a search for an extreme needs. -/
def extremeOf (name : String) (wanted : Ordering) : Value → Outcome Value
  | .array items => .ok (extreme wanted items)
  | other => .error (.notSearchable name other)

/-- The members of an object as objects of a key and a value. -/
def toEntries : Value → Outcome (List Value)
  | .object members =>
    .ok (members.map fun (k, v) => .object [("key", .string k), ("value", v)])
  | other => .error (.noKeys other)

/-- The fields that may hold the key of an entry, the first choice first. -/
def entryKeyFields : List String := ["key", "k", "name", "Name", "K", "Key"]

/-- The key of an entry: the first field that holds a true value, as text. -/
def entryKey (fields : List (String × Value)) : String :=
  match (entryKeyFields.filterMap (Members.get? fields)).find? Value.truthy with
  | some key => key.toText
  | none => "null"

/-- The value of an entry. -/
def entryValue (fields : List (String × Value)) : Value :=
  ((Members.get? fields "value").or (Members.get? fields "v")).getD .null

/-- Puts entries into an object one after the other. -/
def insertEntries : List Value → Members Value → Outcome Value
  | [], members => .ok (.object members)
  | .object fields :: rest, members =>
    insertEntries rest (members.insert (entryKey fields) (entryValue fields))
  | other :: _, _ => .error (.entryNotObject other)

/-- The object of a list of entries. -/
def fromEntries : Value → Outcome Value
  | .array entries => insertEntries entries []
  | other => .error (.notIterable other)

/-! ### Functions with one argument -/

/-- Whether a key or a position is there. -/
def has : Value → Value → Outcome Value
  | .object members, .string key => .ok (.bool (Members.hasKey members key))
  | .array items, .number position =>
    let x := position.toBinary64
    .ok (.bool (Binary64.le .zero x && Binary64.lt x (.ofInt items.length)))
  | container, key => .error (.noKeyCheck container key)

/-- Containment of values of one type. -/
def contains (container part : Value) : Outcome Value :=
  if container.typeName = part.typeName then .ok (.bool (container.contains part))
  else .error (.noContainment container part)

/-- A test of two strings. -/
def testStrings (name : String) (test : List Char → List Char → Bool) : Value → Value → Outcome Value
  | .string text, .string part => .ok (.bool (test part.toList text.toList))
  | _, _ => .error (.stringsRequired name)

/-- A string without a part, where `cut` finds it; other values as they are. -/
def trimString (cut : List Char → List Char → Option (List Char)) : Value → Value → Value
  | .string text, .string part =>
    match cut part.toList text.toList with
    | some rest => .string (.ofList rest)
    | none => .string text
  | other, _ => other

/-- The parts of a string. -/
def split : Value → Value → Outcome Value
  | .string text, .string separator => .ok (Value.split text separator)
  | _, _ => .error .splitOperands

/-- How an item is written when it is joined. -/
def joinText : Value → Outcome (List Char)
  | .null => .ok []
  | .string s => .ok s.toList
  | .number n => .ok n.text
  | .bool b => .ok (Value.bool b).compactChars
  | other => .error (.notJoinable other)

/-- The items of an array in one string. -/
def join (input separator : Value) : Outcome Value :=
  match separator, input with
  | .string separator, .array items => do
    let parts ← items.mapM joinText
    return .string (.ofList (Text.join separator.toList parts))
  | .string _, other => .error (.notIterable other)
  | other, _ => .error (.badSeparator other)

/-- Items in ascending order of their keys; equal ones stay in their order. -/
def sortByKeys (keyed : List (Value × Value)) : List Value :=
  (keyed.mergeSort fun a b => a.1.compare b.1 != .gt).map Prod.snd

end JsonFilter.Eval
