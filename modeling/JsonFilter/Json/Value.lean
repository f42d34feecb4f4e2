import JsonFilter.Json.Members
import JsonFilter.Numeric.Binary64

/-!
# JSON values

A JSON number is an integer as written or a finite binary64 number; arithmetic is done on the
nearest binary64 number and brings integers back where they are exact.
-/

namespace JsonFilter.Json

/-- A number: a whole number, or one with a fraction or an exponent. -/
inductive Number where
  | integer (value : Int)
  | float (value : Finite64)
deriving DecidableEq, Repr, Inhabited

/-- The binary64 number that arithmetic and comparison use. -/
def Number.toBinary64 : Number → Binary64
  | .integer i => .ofInt i
  | .float x => .finite x

/-- A JSON value. -/
inductive Value where
  | null
  | bool (value : Bool)
  | number (value : Number)
  | string (value : String)
  | array (items : List Value)
  | object (members : List (String × Value))
deriving Repr, Inhabited

namespace Value

/-- Whole numbers below this magnitude are exact as binary64 numbers. -/
def exactLimit : Nat := twoTo 53

/-- A natural number as a value. -/
def ofNat (n : Nat) : Value := .number (.integer n)

/-- An integer as a value. -/
def ofInt (i : Int) : Value := .number (.integer i)

/-- The number a finite binary64 number is shown as: an integer where that is exact. -/
def ofFinite (x : Finite64) : Value :=
  if x.isIntegral && x.truncated < exactLimit then .ofInt x.toInt
  else .number (.float x)

/-- A binary64 number as a value.  One that is not a number is null, and an infinity is the largest
finite number of its sign. -/
def ofBinary64 : Binary64 → Value
  | .nan => .null
  | .infinite negative => .ofFinite (.largest negative)
  | .finite x => .ofFinite x

/-- The binary64 number of a number. -/
def number? : Value → Option Binary64
  | .number n => some n.toBinary64
  | _ => none

/-- Only null and false count as false. -/
def truthy : Value → Bool
  | .null => false
  | .bool b => b
  | _ => true

/-- The name of the type. -/
def typeName : Value → String
  | .null => "null"
  | .bool _ => "boolean"
  | .number _ => "number"
  | .string _ => "string"
  | .array _ => "array"
  | .object _ => "object"

/-- The values directly inside: the items of an array, what an object's keys name. -/
def children : Value → List Value
  | .array items => items
  | .object members => members.map Prod.snd
  | _ => []

end Value
end JsonFilter.Json
