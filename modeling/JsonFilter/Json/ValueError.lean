import JsonFilter.Json.Printer

/-!
# Errors of operations on values

What an operation cannot do with the values it was given, and how it says so.
-/

namespace JsonFilter.Json

/-- The operators whose operands can be of a wrong type. -/
inductive Arithmetic where
  | addition
  | subtraction
  | multiplication
  | division
deriving DecidableEq, Repr

/-- What operands could not be. -/
def Arithmetic.participle : Arithmetic → String
  | .addition => "added"
  | .subtraction => "subtracted"
  | .multiplication => "multiplied"
  | .division => "divided"

/-- Why an operation failed. -/
inductive ValueError where
  | operands (operation : Arithmetic) (left right : Value)
  | zeroDivisor (left right : Value)
  | repeatTooLong
  | noField (target : Value) (key : String)
  | noIndex (target index : Value)
  | sliceBound (bound : Value)
  | notIterable (value : Value)
  | notNegatable (value : Value)
  | numberRequired (name : String) (value : Value)
  | stringRequired (name : String) (value : Value)
  | stringsRequired (name : String)
  | notSortable (value : Value)
  | noKeys (value : Value)
  | noLength (value : Value)
  | notReversible (value : Value)
  | notSearchable (name : String) (value : Value)
  | notParsable (text : String)
  | notNumeric (value : Value)
  | badJson (complaint text : String)
  | noKeyCheck (container key : Value)
  | noContainment (container part : Value)
  | splitOperands
  | badSeparator (value : Value)
  | notJoinable (value : Value)
  | entryNotObject (entry : Value)
  | rangeBounds
  | limitCount
  | keyNotString (key : Value)
  | keyWithoutValue
  | undefinedVariable (name : String)
  | undefinedFunction (name : String) (arity : Nat)
deriving Repr

/-- The outcome of an operation on values. -/
abbrev Outcome (α : Type) := Except ValueError α

/-- The wording. -/
def ValueError.message : ValueError → String
  | .operands operation left right =>
    s!"{left.describe} and {right.describe} cannot be {operation.participle}"
  | .zeroDivisor left right =>
    s!"{left.describe} and {right.describe} cannot be divided because the divisor is zero"
  | .repeatTooLong => "Repeat string result too long"
  | .noField target key => "Cannot index " ++ target.typeName ++ " with \"" ++ key ++ "\""
  | .noIndex target index => s!"Cannot index {target.typeName} with {index.typeName}"
  | .sliceBound bound =>
    s!"Start and end indices of an slice must be numbers, not {bound.typeName}"
  | .notIterable value => s!"Cannot iterate over {value.describe}"
  | .notNegatable value => s!"{value.describe} cannot be negated"
  | .numberRequired name value => s!"{value.describe} number required for {name}"
  | .stringRequired name value => s!"{name} input must be a string, not {value.typeName}"
  | .stringsRequired name => s!"{name}() requires string inputs"
  | .notSortable value => s!"{value.describe} cannot be sorted, as it is not an array"
  | .noKeys value => s!"{value.describe} has no keys"
  | .noLength value => s!"{value.describe} has no length"
  | .notReversible value => s!"Cannot reverse {value.describe}"
  | .notSearchable name value => s!"{value.describe} cannot be searched for its {name}imum"
  | .notParsable text => s!"Cannot parse '{text}' as JSON"
  | .notNumeric value => s!"{value.describe} cannot be parsed as a number"
  | .badJson complaint text => s!"{complaint} (while parsing '{text}')"
  | .noKeyCheck container key =>
    s!"Cannot check whether {container.typeName} has a {key.typeName} key"
  | .noContainment container part =>
    s!"{container.describe} and {part.describe} cannot have their containment checked"
  | .splitOperands => "split input and separator must be strings"
  | .badSeparator value => s!"{value.describe} cannot be used as a separator"
  | .notJoinable value => s!"Cannot join with {value.typeName}"
  | .entryNotObject entry => "Cannot index " ++ entry.typeName ++ " with \"key\""
  | .rangeBounds => "Range bounds must be numeric"
  | .limitCount => "Invalid limit: must be a number"
  | .keyNotString key => s!"Object keys must be strings, not {key.typeName}"
  | .keyWithoutValue => "computed object keys need a value"
  | .undefinedVariable name => s!"${name} is not defined"
  | .undefinedFunction name arity => s!"{name}/{arity} is not defined"

end JsonFilter.Json
