import JsonFilter.Compile
import JsonFilter.Duration

/-!
# Engines

An engine compiles keys to programs and runs programs on inputs.  The executor knows filters only
through an engine; `Engine.filters` is the engine of the filter language.
-/

namespace JsonFilter

open Json (Value)

/-- How the run of a program up to its first value ends. -/
inductive RunEnd where
  /-- With the first value, with no value at all or with an error. -/
  | result (first : Except Eval.RunError (Option Value))
  /-- With a fault of the engine itself. -/
  | crashed (message : String)
deriving Repr

/-- What compiles and runs filters. -/
structure Engine (P : Type) where
  compile : FilterKey → Except CompileError P
  /-- Runs a program on an input within a time budget; the program may change by that. -/
  run : P → Value → Option Duration → P × RunEnd

/-- The clock of a run with a time budget. -/
def Eval.Clock.ofBudget : Option Duration → Eval.Clock
  | none => .unlimited
  | some d => .after d.microseconds

/-- The engine of the filter language.  Its programs do not change. -/
def Engine.filters (environment : Value) : Engine CompiledFilter where
  compile := CompiledFilter.compile environment
  run f input budget := (f, .result ((f.run input).firstValue (.ofBudget budget)))

end JsonFilter
