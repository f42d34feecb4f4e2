import JsonFilter.Eval.Outputs
import JsonFilter.Filter.Builtin

/-!
# Contexts of evaluation

What a filter can refer to: the environment, the values bound to variables and the definitions
around it, the innermost first.  A definition is kept as what it means where it was written, a map
from inputs to streams, so it never sees the names of its callers.

A context also says what the use of a name gives that nothing defines.  Every run starts with
`Context.empty`, where it is the error that names it.
-/

namespace JsonFilter.Eval

open Json (Value ValueError)

/-- What the names of a filter stand for. -/
structure Context where
  /-- The environment, an object of strings. -/
  env : Value
  /-- How often each loop is unfolded. -/
  budget : Nat
  /-- What the use of a name gives that nothing defines. -/
  unresolved : ValueError → Outputs
  bindings : List (String × Value)
  definitions : List (String × (Value → Outputs))

namespace Context

/-- Nothing is bound. -/
def empty (env : Value) (budget : Nat) : Context := ⟨env, budget, .failWith, [], []⟩

/-- The context with one more variable. -/
def bind (c : Context) (name : String) (value : Value) : Context :=
  { c with bindings := (name, value) :: c.bindings }

/-- The context with one more definition. -/
def define (c : Context) (name : String) (body : Value → Outputs) : Context :=
  { c with definitions := (name, body) :: c.definitions }

/-- The value of a variable; one variable is always bound to the environment. -/
def variableValue? (c : Context) (name : String) : Option Value :=
  match c.bindings.lookup name with
  | some v => some v
  | none => if name = Filter.envVariable then some c.env else none

/-- Goes on with the value of a variable. -/
def withVariable (c : Context) (name : String) (next : Value → Outputs) : Outputs :=
  match c.variableValue? name with
  | some v => next v
  | none => c.unresolved (.undefinedVariable name)

/-- What a definition means. -/
def definition? (c : Context) (name : String) : Option (Value → Outputs) :=
  c.definitions.lookup name

end Context
end JsonFilter.Eval
