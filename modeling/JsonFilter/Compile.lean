import JsonFilter.Eval.Run
import JsonFilter.Filter.Grammar
import JsonFilter.Filter.Lexer
import JsonFilter.Filter.Scope
import JsonFilter.Report

/-!
# Compiled filters

`CompiledFilter.compile` takes a filter from its text to a checked tree: characters to tokens, tokens
to a tree, and the names of the tree to what they stand for.  The first stage that finds errors
reports all of its own.  A filter without any token is the identity.
-/

namespace JsonFilter

open Json (Value)

/-- What identifies a compiled filter: its text, letter for letter, and whether it may see the
environment. -/
structure FilterKey where
  source : String
  env : Bool
deriving DecidableEq, Repr, Hashable, Inhabited

/-- How a key is shown. -/
def FilterKey.display (k : FilterKey) : String := if k.env then k.source ++ " [env]" else k.source

/-- Why a filter does not compile: the first complaint, and the report of all of them. -/
structure CompileError where
  message : String
  diagnostic : String
deriving DecidableEq, Repr

namespace CompileError

/-- The error of a list of complaints about a source. -/
def ofDiagnostics (source : String) (ds : List Diagnostic) : CompileError :=
  { message := (ds.head?.map Diagnostic.message).getD "invalid filter"
    diagnostic := Diagnostic.render ds source }

/-- An error that is only a message. -/
def ofMessage (text : String) : CompileError := ⟨text, text⟩

end CompileError

/-- A checked filter with the environment that it may see. -/
structure CompiledFilter where
  source : String
  body : Filter.Expr
  env : Value
deriving Repr

namespace CompiledFilter

/-- The name of the source in reports. -/
def sourceId : String := "<filter>"

/-- How often a loop of a filter is unfolded: more often than any run can go. -/
def loopBudget : Nat := tenTo 18

/-- The tree of a filter, its names checked. -/
def check (source : String) : Except CompileError Filter.Expr := do
  let fail (ds : List Diagnostic) : CompileError := .ofDiagnostics source ds
  let tokens ← (Filter.tokenize source).mapError fun errors =>
    fail (errors.map fun e => e.toDiagnostic sourceId)
  let body ←
    if tokens.length ≤ 1 then pure .identity
    else (Filter.parse tokens).mapError fun e => fail [e.toDiagnostic sourceId]
  match Filter.Scope.empty.undefined body with
  | [] => return body
  | errors => throw (fail (errors.map fun e => e.toDiagnostic sourceId))

/-- Compiles a filter; only a key that allows it gets to see the environment. -/
def compile (environment : Value) (key : FilterKey) : Except CompileError CompiledFilter := do
  let body ← check key.source
  return ⟨key.source, body, if key.env then environment else .object []⟩

/-- The stream of results of a compiled filter on an input. -/
def run (f : CompiledFilter) (input : Value) : Eval.Outputs :=
  (Eval.eval f.body (.empty f.env loopBudget) input).untilFailure

end CompiledFilter

/-- An environment: names with their texts, as an object. -/
def environmentValue (pairs : List (String × String)) : Value :=
  .object (Json.Members.extend [] (pairs.map fun (name, text) => (name, .string text)))

end JsonFilter
