import JsonFilter.Filter.Expr
import JsonFilter.Filter.Parser
import JsonFilter.Numeric.DecimalText

/-!
# The grammar of filters

From the loosest to the tightest: definitions and bindings, the pipe, the comma, the alternative
mark, `or`, `and`, comparisons, sums, products, the minus sign, and suffixes on a primary.  The pipe
and the alternative mark group to the right, the other operators to the left, and comparisons do
not chain.

## The recursion

Three of the rules refer to one another through the tokens between them.  `Rules` collects those
three, and `Rules.step` builds them from a set of rules that is used only behind at least one token.
So as many steps as there are tokens, and one more, read every filter.

## Reading once

A binding and a pipe both start with a suffixed primary, an index and a slice with a filter behind
the bracket.  What the first branch has read there is handed to the second one as its `lead`, so
that nested filters are not read again at every level.
-/

namespace JsonFilter.Filter

open JsonFilter.Filter.Parser

/-- The rules that the others refer to. -/
structure Rules where
  /-- A whole filter: definitions, bindings and pipes. -/
  pipe : Parser Expr
  /-- An operand of a comma. -/
  alternative : Parser Expr
  /-- A primary with its suffixes. -/
  postfixed : Parser Expr

/-! ### Single tokens -/

/-- A bare name. -/
def identifier : Parser String := select fun
  | .identifier name => some name
  | _ => none

/-- A name behind a dollar sign. -/
def variableName : Parser String := select fun
  | .variable name => some name
  | _ => none

/-- A name directly behind a dot. -/
def fieldName : Parser String := select fun
  | .field name => some name
  | _ => none

/-- A string. -/
def stringText : Parser String := select fun
  | .string value => some value
  | _ => none

/-- A reserved word, taken as a name. -/
def keywordName : Parser String := select fun
  | .keyword word => some word.text
  | _ => none

/-- A constant. -/
def literal : Parser Expr := select fun
  | .keyword .nullWord => some (.literal .null)
  | .keyword .trueWord => some (.literal (.bool true))
  | .keyword .falseWord => some (.literal (.bool false))
  | .number text => some (.literal (.number ((Binary64.ofText? text).getD .zero)))
  | .string value => some (.literal (.string value))
  | _ => none

/-! ### Suffixes -/

/-- What may follow a primary. -/
inductive Suffix where
  | field (name : String)
  | index (index : Expr)
  | slice (start stop : Option Expr)
  | iterate
  | attempt

/-- A target with one more suffix. -/
def Suffix.apply (target : Expr) : Suffix → Expr
  | .field name => .field target name
  | .index i => .index target i
  | .slice start stop => .slice target start stop
  | .iterate => .iterate target
  | .attempt => .attempt target none

/-- A suffix between brackets: nothing, a slice or an index.  The `lead` reads the filter behind the
bracket. -/
def bracketed (lead pipe : Parser Expr) : Parser Suffix := firstOf [
  do
    mark .leftBracket
    mark .rightBracket
    return .iterate,
  between .leftBracket (do
    let start ← optional lead
    mark .colon
    let stop ← optional pipe
    return .slice start stop) .rightBracket,
  between .leftBracket (do return .index (← lead)) .rightBracket]

/-- A suffix between brackets, the filter behind the bracket read once. -/
def bracketSuffix (pipe : Parser Expr) : Parser Suffix := fun c =>
  match mark .leftBracket c with
  | .failure f => .failure f
  | .success _ behind _ =>
    let reply := pipe behind
    bracketed (fun _ => reply) pipe c

/-- A suffix. -/
def suffix (pipe : Parser Expr) : Parser Suffix := firstOf [
  do return .field (← fieldName),
  do
    mark .dot
    return .field (← stringText),
  bracketSuffix pipe,
  do
    mark .dot
    bracketSuffix pipe,
  do
    mark .question
    return .attempt]

/-! ### Primaries -/

/-- A name with its arguments between parentheses. -/
def call (pipe : Parser Expr) : Parser Expr := withSpan do
  let name ← identifier
  let args ← optional (between .leftParen (separated pipe (mark .semicolon)) .rightParen)
  return .call name (args.getD [])

/-- A variable. -/
def variableUse : Parser Expr := withSpan do return .variable (← variableName)

/-- A conditional; each further test nests in the branch before it. -/
def conditional (pipe : Parser Expr) : Parser Expr := do
  keyword .ifWord
  let test ← pipe
  keyword .thenWord
  let yes ← pipe
  let further ← many do
    keyword .elifWord
    let test ← pipe
    keyword .thenWord
    return (test, ← pipe)
  let no ← optional do
    keyword .elseWord
    pipe
  keyword .endWord
  return .cond test yes
    (further.foldr (fun (test, yes) no => some (.cond test yes no)) no)

/-- A guarded filter with an optional handler. -/
def guarded (postfixed : Parser Expr) : Parser Expr := do
  keyword .tryWord
  let body ← postfixed
  let handler ← optional do
    keyword .catchWord
    postfixed
  return .attempt body handler

/-- A reduction. -/
def reduction (pipe postfixed : Parser Expr) : Parser Expr := do
  keyword .reduceWord
  let source ← postfixed
  keyword .asWord
  let var ← variableName
  mark .leftParen
  let init ← pipe
  mark .semicolon
  let update ← pipe
  mark .rightParen
  return .reduce source var init update

/-- An array construction. -/
def arrayConstruction (pipe : Parser Expr) : Parser Expr := do
  return .array (← between .leftBracket (optional pipe) .rightBracket)

/-- The value of an object entry: a pipe of filters without commas, grouped to the left. -/
def objectValue (alternative : Parser Expr) : Parser Expr := do
  let first ← alternative
  let others ← many do
    mark .pipe
    alternative
  return others.foldl .pipe first

/-- The key of an object entry. -/
def objectKey (pipe : Parser Expr) : Parser (ObjectKey Expr) := firstOf [
  withSpan do return .variable (← variableName),
  do return .static (← identifier),
  do return .static (← keywordName),
  do return .static (← stringText),
  do return .computed (← between .leftParen pipe .rightParen)]

/-- A computed key with no value. -/
def lacksValue : ObjectEntry → Bool
  | (.computed _, none) => true
  | _ => false

/-- The complaint about a computed key with no value. -/
def valueNeeded : String := "computed object keys need a value"

/-- An entry of an object construction. -/
def objectEntry (pipe alternative : Parser Expr) : Parser ObjectEntry :=
  ensure (do
    let key ← objectKey pipe
    let value ← optional do
      mark .colon
      objectValue alternative
    return (key, value)) (fun entry => !lacksValue entry) valueNeeded

/-- An object construction. -/
def objectConstruction (pipe alternative : Parser Expr) : Parser Expr := do
  return .object (← between .leftBrace
    (separatedTrailing (objectEntry pipe alternative) (mark .comma)) .rightBrace)

/-- A primary. -/
def primary (r : Rules) : Parser Expr := firstOf [
  do
    mark .dot
    return .field .identity (← stringText),
  do return .field .identity (← fieldName),
  do
    mark .doubleDot
    return .recurseAll,
  do
    mark .dot
    return .identity,
  literal,
  variableUse,
  conditional r.pipe,
  guarded r.postfixed,
  reduction r.pipe r.postfixed,
  call r.pipe,
  between .leftParen r.pipe .rightParen,
  arrayConstruction r.pipe,
  objectConstruction r.pipe r.alternative]

/-- A primary with its suffixes. -/
def suffixed (r : Rules) : Parser Expr := do
  let target ← primary r
  let suffixes ← many (suffix r.pipe)
  return suffixes.foldl Suffix.apply target

/-! ### Operators -/

/-- Turns the sign of a constant, or negates a filter. -/
def negate : Expr → Expr
  | .literal (.number value) => .literal (.number value.neg)
  | operand => .neg operand

/-- Minus signs before an operand.  The `lead` reads the operand where there is no sign. -/
def unary (lead operand : Parser Expr) : Parser Expr := do
  let signs ← many (mark .minus)
  let operand ← if signs.isEmpty then lead else operand
  return signs.foldr (fun _ e => negate e) operand

/-- An operator written as a token. -/
def operator (op : BinaryOp) (kind : TokenKind) : Parser BinaryOp := do
  token kind
  return op

/-- Operands with operators between, grouped to the left.  The `lead` reads the first operand. -/
def leftGrouped (operators : Parser BinaryOp) (lead operand : Parser Expr) : Parser Expr := do
  let first ← lead
  let others ← many do return (← operators, ← operand)
  return others.foldl (fun left (op, right) => .binary op left right) first

/-- The operators of products. -/
def productOperator : Parser BinaryOp := firstOf [operator .mul (.mark .star),
  operator .div (.mark .slash), operator .mod (.mark .percent)]

/-- The operators of sums. -/
def sumOperator : Parser BinaryOp := firstOf [operator .add (.mark .plus),
  operator .sub (.mark .minus)]

/-- The operators of comparisons. -/
def comparisonOperator : Parser BinaryOp := firstOf [operator .eq (.mark .equal),
  operator .ne (.mark .notEqual), operator .le (.mark .lessEqual),
  operator .ge (.mark .greaterEqual), operator .lt (.mark .less), operator .gt (.mark .greater)]

/-- At most one comparison. -/
def comparison (lead operand : Parser Expr) : Parser Expr := do
  let left ← lead
  let compared ← optional do return (← comparisonOperator, ← operand)
  return match compared with
    | some (op, right) => .binary op left right
    | none => left

/-- All operators between filters but the alternative mark, the comma and the pipe. -/
def operation (lead operand : Parser Expr) : Parser Expr :=
  let tight := unary operand operand
  let products := leftGrouped productOperator tight tight
  let sums := leftGrouped sumOperator products products
  let comparisons := comparison sums sums
  let conjunctions :=
    leftGrouped (operator .and (.keyword .andWord)) comparisons comparisons
  let lead := unary lead operand
  let lead := leftGrouped productOperator lead tight
  let lead := leftGrouped sumOperator lead products
  let lead := comparison lead sums
  let lead := leftGrouped (operator .and (.keyword .andWord)) lead comparisons
  leftGrouped (operator .or (.keyword .orWord)) lead conjunctions

/-- Operations with alternative marks between, grouped to the right. -/
def alternatives (operation rest : Parser Expr) : Parser Expr := do
  let left ← operation
  let right ← optional do
    mark .alternative
    rest
  return match right with
    | some right => .alternative left right
    | none => left

/-- Alternatives with commas between. -/
def commas (lead alternative : Parser Expr) : Parser Expr := do
  let first ← lead
  let others ← many do
    mark .comma
    alternative
  return others.foldl .comma first

/-! ### Whole filters -/

/-- A definition and the filter it is for. -/
def definition (pipe : Parser Expr) : Parser Expr := do
  keyword .defWord
  let name ← identifier
  mark .colon
  let body ← pipe
  mark .semicolon
  return .define name body (← pipe)

/-- A binding and the filter it is for. -/
def binding (postfixed pipe : Parser Expr) : Parser Expr := do
  let source ← postfixed
  keyword .asWord
  let var ← variableName
  mark .pipe
  return .bind source var (← pipe)

/-- Filters with pipes between, grouped to the right. -/
def piped (comma rest : Parser Expr) : Parser Expr := do
  let left ← comma
  let right ← optional do
    mark .pipe
    rest
  return match right with
    | some right => .pipe left right
    | none => left

namespace Rules

/-- Rules that read nothing. -/
def none : Rules := ⟨never, never, never⟩

/-- A suffixed primary, read by `r` behind its first token. -/
def tight (r : Rules) : Parser Expr := suffixed r

/-- An operand of a comma whose leading primary is read by `lead`. -/
def loose (r : Rules) (lead : Parser Expr) : Parser Expr :=
  alternatives (operation lead r.tight) r.alternative

/-- A whole filter; its leading primary is read once for the binding and for the pipe. -/
def whole (r : Rules) : Parser Expr := fun c =>
  let reply := r.tight c
  let lead : Parser Expr := fun _ => reply
  firstOf [definition r.pipe, binding lead r.pipe,
    piped (commas (r.loose lead) (r.loose r.tight)) r.pipe] c

/-- The rules one step further: what they refer to behind a token is read by `r`. -/
def step (r : Rules) : Rules := ⟨r.whole, r.loose r.tight, r.tight⟩

/-- The rules that read filters of fewer tokens than `n`. -/
def upTo : Nat → Rules
  | 0 => none
  | n + 1 => step (upTo n)

end Rules

/-- A filter and its end. -/
def wholeFilter (tokens : Nat) : Parser Expr := do
  let body ← (Rules.upTo (tokens + 1)).pipe
  token .eof
  return body

/-- The tree of a filter. -/
def parse (tokens : List Token) : Except ParseError Expr :=
  match wholeFilter tokens.length (.ofTokens tokens) with
  | .success body _ _ => .ok body
  | .failure f => .error (.ofFailure f)

end JsonFilter.Filter
