import JsonFilter.Eval.Context
import JsonFilter.Eval.Functions
import JsonFilter.Filter.Expr

/-!
# Evaluation of filters

`eval` gives the stream of results of a filter on an input.  It is recursive on the filter only: a
definition is kept as what it means, and loops unfold in the stream itself.

## Order of results

Of the two operands of an operator the right one varies slowest, of an object's entries the first
one.  A slice evaluates its end before its start.  The alternative mark needs all results of its left
side before its first output.
-/

namespace JsonFilter.Eval

open JsonFilter.Filter Json

/-- The value of a constant. -/
def literalValue : Literal → Value
  | .null => .null
  | .bool b => .bool b
  | .number x => .ofBinary64 x
  | .string s => .string s

/-- The value with the other sign. -/
def negate (v : Value) : Outcome Value :=
  match v.number? with
  | some x => .ok (.ofBinary64 x.neg)
  | none => .error (.notNegatable v)

/-- An operator applied to two values. -/
def applyOperator (op : BinaryOp) (left right : Value) : Outcome Value :=
  match op with
  | .add => left.add right
  | .sub => left.subtract right
  | .mul => left.multiply right
  | .div => left.divide right
  | .mod => left.modulo right
  | .eq => .ok (.bool (left.equals right))
  | .ne => .ok (.bool !left.equals right)
  | .lt => .ok (.bool (left.compare right == .lt))
  | .le => .ok (.bool (left.compare right != .gt))
  | .gt => .ok (.bool (left.compare right == .gt))
  | .ge => .ok (.bool (left.compare right != .lt))
  | .and => .ok (.bool (left.truthy && right.truthy))
  | .or => .ok (.bool (left.truthy || right.truthy))

/-- The values inside a value, as a stream. -/
def iterated (v : Value) : Outputs :=
  match v.iterate with
  | .ok values => .ofList values
  | .error e => .failWith e

/-- The value itself if the condition is true. -/
def selected (input condition : Value) : Outputs :=
  if condition.truthy then .single input else .done

/-! ### Object construction -/

/-- The keys of an entry must be strings. -/
def keyNames : List Value → Outcome (List String)
  | [] => .ok []
  | .string key :: rest => (keyNames rest).map (key :: ·)
  | other :: _ => .error (.keyNotString other)

/-- Every object so far with every key and every value of one more entry. -/
def extendObjects (objects : List (Members Value)) (keys : List String) (values : List Value) :
    List (Members Value) :=
  objects.flatMap fun object =>
    keys.flatMap fun key => values.map fun value => object.insert key value

/-- Goes on with the value that an entry without one takes from its key. -/
def withImpliedValue (c : Context) (input : Value) (key : ObjectKey Expr) (next : Value → Outputs) :
    Outputs :=
  match key with
  | .static name =>
    match input.field name with
    | .ok v => next v
    | .error e => .failWith e
  | .variable name _ => c.withVariable name next
  | .computed _ => c.unresolved .keyWithoutValue

/-! ### Builtins -/

/-- A builtin without arguments. -/
def callNullary (c : Context) (input : Value) : Nullary → Outputs
  | .empty => .done
  | .error => .fail (.raised input)
  | .not => .single (.bool !input.truthy)
  | .env => .single c.env
  | .infinite => .single (.ofBinary64 (.infinite false))
  | .nan => .single (.ofBinary64 .nan)
  | .recurse => .recurseWith c.budget (fun v => .ofList v.children) input
  | .first => .lift (input.index (.ofNat 0))
  | .last => .lift (input.index (.ofInt (-1)))
  | .values =>
    match input with
    | .null => .done
    | v => .single v
  | .length => .lift (length input)
  | .utf8ByteLength => .lift ((stringInput "utf8bytelength" input).map fun s => .ofNat s.utf8ByteSize)
  | .keys => .lift (keys true input)
  | .keysUnsorted => .lift (keys false input)
  | .add => .lift (sumInside input)
  | .any => .lift (anyInside input)
  | .all => .lift (allInside input)
  | .type => .single (.string input.typeName)
  | .toText => .single (.string input.toText)
  | .toNumber => .lift (toNumber input)
  | .toJson => .single (.string input.compact)
  | .fromJson => .lift (fromJson input)
  | .asciiDowncase =>
    .lift ((stringInput "ascii_downcase" input).map fun s => .string (s.map Char.toLower))
  | .asciiUpcase =>
    .lift ((stringInput "ascii_upcase" input).map fun s => .string (s.map Char.toUpper))
  | .floor => .lift ((numberInput "floor" input).map fun x => .ofBinary64 x.floor)
  | .ceil => .lift ((numberInput "ceil" input).map fun x => .ofBinary64 x.ceil)
  | .sqrt => .lift ((numberInput "sqrt" input).map fun x => .ofBinary64 x.sqrt)
  | .abs => .lift ((numberInput "abs" input).map fun x => .ofBinary64 x.abs)
  | .reverse => .lift (reverse input)
  | .sort => .lift ((sortInput input).map fun items => .array (Value.sort items))
  | .unique =>
    .lift ((sortInput input).map fun items => .array (dropEqualNeighbours (Value.sort items)))
  | .min => .lift (extremeOf "min" .lt input)
  | .max => .lift (extremeOf "max" .gt input)
  | .toEntries => .lift ((toEntries input).map .array)
  | .fromEntries => .lift (fromEntries input)

/-- The results of a filter for each of some values, in one array. -/
def mapped (f : Value → Outputs) (values : List Value) (next : List Value → Outputs) : Outputs :=
  .collectEach f (fun lists => next lists.flatten) values []

/-- Goes on with the values inside a value. -/
def withInside (input : Value) (next : List Value → Outputs) : Outputs :=
  match input.iterate with
  | .ok values => next values
  | .error e => .failWith e

/-- A builtin whose argument gives the second operand of a function. -/
def withOperand (f : Value → Outputs) (input : Value) (apply : Value → Value → Outcome Value) :
    Outputs :=
  (f input).bind fun operand => .lift (apply input operand)

/-- A builtin with one argument. -/
def callUnary (c : Context) (input : Value) (f : Value → Outputs) : Unary → Outputs
  | .map => withInside input fun values => mapped f values fun found => .single (.array found)
  | .select => (f input).bind (selected input)
  | .recurse => .recurseWith c.budget f input
  | .repeat => .recurseWith c.budget f input
  | .first => (f input).take 1
  | .last => .withLast (f input) fun
    | some v => .single v
    | none => .done
  | .range => (f input).bind fun bound =>
    match bound.number? with
    | some bound => .countUp bound c.budget .zero
    | none => .failWith .rangeBounds
  | .error => (f input).bind fun v => .fail (.raised v)
  | .any => withInside input fun values => mapped f values fun found =>
    .single (.bool (found.any Value.truthy))
  | .all => withInside input fun values => mapped f values fun found =>
    .single (.bool (found.all Value.truthy))
  | .withEntries =>
    match toEntries input with
    | .ok entries => mapped f entries fun found => .lift (insertEntries found [])
    | .error e => .failWith e
  | .sortBy =>
    match sortInput input with
    | .ok items => .collectEach f (fun keys =>
        .single (.array (sortByKeys ((keys.map .array).zip items)))) items []
    | .error e => .failWith e
  | .has => withOperand f input has
  | .contains => withOperand f input contains
  | .startsWith => withOperand f input (testStrings "startswith" List.isPrefixOf)
  | .endsWith => withOperand f input (testStrings "endswith" List.isSuffixOf)
  | .trimStart => withOperand f input fun v part => .ok (trimString Text.dropStart? v part)
  | .trimEnd => withOperand f input fun v part => .ok (trimString Text.dropEnd? v part)
  | .split => withOperand f input split
  | .join => withOperand f input join

/-- A builtin with two arguments. -/
def callBinary (c : Context) (input : Value) (f g : Value → Outputs) : Binary → Outputs
  | .limit => (f input).bind fun count =>
    match count.number? with
    | some x =>
      if Binary64.lt .zero x then (g input).settle fun out => (out.take x.toCount).checkEach
      else .done
    | none => .failWith .limitCount
  | .range => (f input).bind fun start => (g input).bind fun bound =>
    match start.number?, bound.number? with
    | some start, some bound => .countUp bound c.budget start
    | _, _ => .failWith .rangeBounds
  | .until => .pause fun _ => .untilTrue f g c.budget input
  | .while => .pause fun _ => .whileTrue f g c.budget input

/-! ### Expressions -/

mutual

/-- The results of a filter on an input. -/
def eval : Expr → Context → Value → Outputs
  | .identity, _, input => .guarded fun _ => .single input
  | .recurseAll, c, input =>
    .guarded fun _ => .recurseWith c.budget (fun v => .ofList v.children) input
  | .literal value, _, _ => .guarded fun _ => .single (literalValue value)
  | .field target name, c, input =>
    .guarded fun _ => (eval target c input).bind fun v => .lift (v.field name)
  | .index target index, c, input =>
    .guarded fun _ => (eval target c input).bind fun container =>
      (eval index c input).mapOutcome container.index
  | .slice target start stop, c, input =>
    .guarded fun _ => (eval target c input).bind fun container =>
      (evalMaybe stop c input).bind fun stop =>
        (evalMaybe start c input).mapOutcome fun start => container.slice start stop
  | .iterate target, c, input => .guarded fun _ => (eval target c input).bind iterated
  | .array body, c, input => .guarded fun _ => evalArray body c input
  | .object entries, c, input => .guarded fun _ => evalEntries entries c input [[]]
  | .neg operand, c, input => .guarded fun _ => (eval operand c input).mapOutcome negate
  | .binary op left right, c, input =>
    match op with
    | .and => .guarded fun _ => (eval left c input).bind fun l =>
        if l.truthy then (eval right c input).mapOutcome fun r => .ok (.bool r.truthy)
        else .single (.bool false)
    | .or => .guarded fun _ => (eval left c input).bind fun l =>
        if l.truthy then .single (.bool true)
        else (eval right c input).mapOutcome fun r => .ok (.bool r.truthy)
    | op => .guarded fun _ => (eval right c input).bind fun r =>
        (eval left c input).mapOutcome fun l => applyOperator op l r
  | .alternative left right, c, input =>
    .guarded fun _ => .withTruthy (eval left c input) fun found =>
      if found.isEmpty then eval right c input else .ofList found
  | .pipe left right, c, input => .guarded fun _ => (eval left c input).bind (eval right c)
  | .comma left right, c, input =>
    .guarded fun _ => (eval left c input).append fun _ => eval right c input
  | .cond test yes no, c, input =>
    .guarded fun _ => (eval test c input).bind fun t =>
      if t.truthy then eval yes c input else evalBranch no c input
  | .attempt body handler, c, input =>
    .guarded fun _ => (eval body c input).catchWith (evalHandler handler c)
  | .reduce source var init update, c, input =>
    .guarded fun _ => (eval init c input).bind fun first =>
      .fold (fun acc v => eval update (c.bind var v) acc) .single (eval source c input) first
  | .bind source var body, c, input =>
    .guarded fun _ => (eval source c input).bind fun v => eval body (c.bind var v) input
  | .define name body rest, c, input =>
    .guarded fun _ => eval rest (c.define name (eval body c)) input
  | .variable name _, c, _ => .guarded fun _ => c.withVariable name .single
  | .call name args _, c, input => .guarded fun _ => evalCall name args c input

/-- A part that may be missing; null stands for it. -/
def evalMaybe : Option Expr → Context → Value → Outputs
  | none, _, _ => .single .null
  | some e, c, input => eval e c input

/-- The branch for a false condition; without one the input passes. -/
def evalBranch : Option Expr → Context → Value → Outputs
  | none, _, input => .single input
  | some e, c, input => eval e c input

/-- The handler of a raised error; without one the error is dropped. -/
def evalHandler : Option Expr → Context → Value → Outputs
  | none, _, _ => .done
  | some e, c, v => eval e c v

/-- The array of all results. -/
def evalArray : Option Expr → Context → Value → Outputs
  | none, _, _ => .single (.array [])
  | some body, c, input => .collect (eval body c input) fun values => .single (.array values)

/-- The objects that the entries so far have built, with the entries to come. -/
def evalEntries : List (ObjectKey Expr × Option Expr) → Context → Value → List (Members Value) →
    Outputs
  | [], _, _, objects => .ofList (objects.map .object)
  | (key, value) :: rest, c, input, objects =>
    evalKey key c input fun keys =>
      evalEntryValue value key c input fun values =>
        evalEntries rest c input (extendObjects objects keys values)

/-- Goes on with the keys of an entry. -/
def evalKey : ObjectKey Expr → Context → Value → (List String → Outputs) → Outputs
  | .static name, _, _, next => next [name]
  | .variable name _, _, _, next => next [name]
  | .computed key, c, input, next =>
    .collect (eval key c input) fun values =>
      match keyNames values with
      | .ok names => next names
      | .error e => .failWith e

/-- Goes on with the values of an entry. -/
def evalEntryValue : Option Expr → ObjectKey Expr → Context → Value → (List Value → Outputs) →
    Outputs
  | some e, _, c, input, next => .collect (eval e c input) next
  | none, key, c, input, next => withImpliedValue c input key fun v => next [v]

/-- A call: a definition around it if it has no arguments, else a builtin.  A name of a builtin with
one argument is looked up only when the argument has a value. -/
def evalCall (name : String) : List Expr → Context → Value → Outputs
  | [], c, input =>
    match c.definition? name with
    | some body => body input
    | none =>
      match Nullary.ofName? name with
      | some b => callNullary c input b
      | none => c.unresolved (.undefinedFunction name 0)
  | [f], c, input =>
    match Unary.ofName? name with
    | some b => callUnary c input (eval f c) b
    | none => (eval f c input).bind fun _ => c.unresolved (.undefinedFunction name 1)
  | [f, g], c, input =>
    match Binary.ofName? name with
    | some b => callBinary c input (eval f c) (eval g c) b
    | none => c.unresolved (.undefinedFunction name 2)
  | _ :: _ :: rest, c, _ => c.unresolved (.undefinedFunction name (rest.length + 2))

end

end JsonFilter.Eval
