import JsonFilter.Numeric.Binary64
import JsonFilter.Span

/-!
# Filter expressions

The tree of a filter.  A filter maps one input to a stream of outputs; each constructor says which.
Names carry the span they were written at, so that complaints about them can point there.
-/

namespace JsonFilter.Filter

/-- A constant. -/
inductive Literal where
  | null
  | bool (value : Bool)
  | number (value : Binary64)
  | string (value : String)
deriving DecidableEq, Repr

/-- An operator between two filters. -/
inductive BinaryOp where
  | add | sub | mul | div | mod | eq | ne | lt | le | gt | ge | and | or
deriving DecidableEq, Repr

/-- The spelling of an operator. -/
def BinaryOp.symbol : BinaryOp → String
  | .add => "+"
  | .sub => "-"
  | .mul => "*"
  | .div => "/"
  | .mod => "%"
  | .eq => "=="
  | .ne => "!="
  | .lt => "<"
  | .le => "<="
  | .gt => ">"
  | .ge => ">="
  | .and => "and"
  | .or => "or"

/-- The key of an entry in an object construction. -/
inductive ObjectKey (ε : Type) where
  /-- A name or a string. -/
  | static (name : String)
  /-- A variable, which also supplies the value when none is given. -/
  | variable (name : String) (span : Span)
  /-- A filter between parentheses. -/
  | computed (key : ε)
deriving DecidableEq, Repr

/-- A filter. -/
inductive Expr where
  | identity
  /-- The input and everything inside it. -/
  | recurseAll
  | literal (value : Literal)
  | field (target : Expr) (name : String)
  | index (target index : Expr)
  | slice (target : Expr) (start stop : Option Expr)
  | iterate (target : Expr)
  | array (body : Option Expr)
  /-- Entries; one without a value takes the value that its key names. -/
  | object (entries : List (ObjectKey Expr × Option Expr))
  | neg (operand : Expr)
  | binary (op : BinaryOp) (left right : Expr)
  /-- The true outputs of the left side, or the right side where there are none. -/
  | alternative (left right : Expr)
  | pipe (left right : Expr)
  | comma (left right : Expr)
  | cond (test yes : Expr) (no : Option Expr)
  | attempt (body : Expr) (handler : Option Expr)
  | reduce (source : Expr) (var : String) (init update : Expr)
  | bind (source : Expr) (var : String) (body : Expr)
  | define (name : String) (body rest : Expr)
  | variable (name : String) (span : Span)
  | call (name : String) (args : List Expr) (span : Span)
deriving Repr, Inhabited

/-- An entry of an object construction. -/
abbrev ObjectEntry := ObjectKey Expr × Option Expr

end JsonFilter.Filter
