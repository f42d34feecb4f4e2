import JsonFilter.Diagnostic
import JsonFilter.Filter.Builtin
import JsonFilter.Filter.Expr
import JsonFilter.Text.EditDistance

/-!
# Names of a filter

Every call must reach a definition around it or a builtin with the same number of arguments, and
every variable must be bound around it.  `Scope.undefined` lists the uses that do not, from left to
right, with advice.  A definition is visible only behind it, so its body cannot call itself.
-/

namespace JsonFilter.Filter

/-- The names bound around a place, the outermost first. -/
structure Scope where
  bindings : List String
  definitions : List String
deriving Repr

/-- A use of a name that nothing defines. -/
structure NameError where
  message : String
  span : Span
  help : Option String
deriving DecidableEq, Repr

namespace NameError

/-- The diagnostic. -/
def toDiagnostic (e : NameError) (sourceId : String) : Diagnostic :=
  let plain := (Diagnostic.error sourceId e.span e.message).withLabel "not defined"
  match e.help with
  | some help => plain.withHelp help
  | none => plain

end NameError

namespace Scope

/-- Nothing is bound. -/
def empty : Scope := ⟨[], []⟩

/-- The scope with one more variable. -/
def bind (s : Scope) (name : String) : Scope := { s with bindings := s.bindings ++ [name] }

/-- The scope with one more definition. -/
def define (s : Scope) (name : String) : Scope := { s with definitions := s.definitions ++ [name] }

/-- Whether a variable is bound. -/
def hasVariable (s : Scope) (name : String) : Bool :=
  name == envVariable || s.bindings.contains name

/-- Whether a function is defined or a builtin. -/
def hasFunction (s : Scope) (name : String) (arity : Nat) : Bool :=
  (arity == 0 && s.definitions.contains name) || isBuiltin name arity

/-- The complaint about a variable, if it is not bound. -/
def variableErrors (s : Scope) (name : String) (span : Span) : List NameError :=
  if s.hasVariable name then []
  else
    let close := Text.closest? name (s.bindings ++ [envVariable])
    [⟨s!"${name} is not defined", span, close.map fun found => s!"did you mean `${found}`?"⟩]

/-- The numbers of arguments with which a name can be called, ascending. -/
def arities (s : Scope) (name : String) : List Nat :=
  let defined := if s.definitions.contains name then [0] else []
  ((builtinArities name ++ defined).mergeSort fun a b => a ≤ b).eraseDups

/-- The complaint about a call, if nothing defines it. -/
def callErrors (s : Scope) (name : String) (arity : Nat) (span : Span) : List NameError :=
  if s.hasFunction name arity then []
  else
    let help :=
      match s.arities name with
      | [] =>
        (Text.closest? name (s.definitions ++ builtins.map Prod.fst)).map fun found =>
          s!"did you mean `{found}`?"
      | arities =>
        some ("available as " ++ ", ".intercalate (arities.map fun n => s!"{name}/{n}"))
    [⟨s!"{name}/{arity} is not defined", span, help⟩]

mutual

/-- The undefined names of a filter in a scope. -/
def undefined (s : Scope) : Expr → List NameError
  | .identity => []
  | .recurseAll => []
  | .literal _ => []
  | .field target _ => undefined s target
  | .index target index => undefined s target ++ undefined s index
  | .slice target start stop =>
    undefined s target ++ undefinedMaybe s start ++ undefinedMaybe s stop
  | .iterate target => undefined s target
  | .array body => undefinedMaybe s body
  | .object entries => undefinedEntries s entries
  | .neg operand => undefined s operand
  | .binary _ left right => undefined s left ++ undefined s right
  | .alternative left right => undefined s left ++ undefined s right
  | .pipe left right => undefined s left ++ undefined s right
  | .comma left right => undefined s left ++ undefined s right
  | .cond test yes no => undefined s test ++ undefined s yes ++ undefinedMaybe s no
  | .attempt body handler => undefined s body ++ undefinedMaybe s handler
  | .reduce source var init update =>
    undefined s source ++ undefined s init ++ undefined (s.bind var) update
  | .bind source var body => undefined s source ++ undefined (s.bind var) body
  | .define name body rest => undefined s body ++ undefined (s.define name) rest
  | .variable name span => s.variableErrors name span
  | .call name args span => undefinedAll s args ++ s.callErrors name args.length span

/-- The undefined names of a part that may be missing. -/
def undefinedMaybe (s : Scope) : Option Expr → List NameError
  | none => []
  | some e => undefined s e

/-- The undefined names of a list of filters. -/
def undefinedAll (s : Scope) : List Expr → List NameError
  | [] => []
  | e :: rest => undefined s e ++ undefinedAll s rest

/-- The undefined names of the entries of an object construction. -/
def undefinedEntries (s : Scope) : List (ObjectKey Expr × Option Expr) → List NameError
  | [] => []
  | (key, value) :: rest =>
    undefinedKey s key ++ undefinedMaybe s value ++ undefinedEntries s rest

/-- The undefined names of a key. -/
def undefinedKey (s : Scope) : ObjectKey Expr → List NameError
  | .static _ => []
  | .variable name span => s.variableErrors name span
  | .computed key => undefined s key

end

end Scope
end JsonFilter.Filter
