import JsonFilter.Filter.Lexer
import JsonFilter.Proofs.Filter.Parts
import Mathlib.Tactic.MkIffOfInductiveProp

/-!
# Printing filters

A filter as the list of tokens that it is written with.

## Levels

A `Level` is a place in the order of precedence, from the pipe to the primaries.  Every filter has one,
and every operand stands at a place that asks for one.  Parentheses are printed where a filter is looser
than its place asks for, and nowhere else.  A guarded filter has a level of its own between the minus sign
and the suffixes: it may be negated and bound, but as the target of a suffix, or inside another guarded
filter, it needs parentheses.

* `Expr.print` — the tokens of a filter; how a number is written is left open.
* `Expr.Regular` — what the grammar cannot give for any tokens is excluded.
* `Expr.eraseSpans` — a filter without the places it was written at.
-/

namespace JsonFilter

/-- Whether a number is written with a minus sign. -/
def Binary64.isNegative : Binary64 → Bool
  | .nan => false
  | .infinite negative => negative
  | .finite v => v.negative

theorem Binary64.abs_of_not_isNegative {x : Binary64} (h : x.isNegative = false) : x.abs = x := by
  cases x with
  | nan => rfl
  | infinite negative => exact congrArg Binary64.infinite h.symm
  | finite v =>
    obtain ⟨negative, significand, exponent⟩ := v
    obtain rfl : negative = false := h
    rfl

theorem Binary64.neg_abs_of_isNegative {x : Binary64} (h : x.isNegative = true) : x.abs.neg = x := by
  cases x with
  | nan => rfl
  | infinite negative => exact congrArg Binary64.infinite h.symm
  | finite v =>
    obtain ⟨negative, significand, exponent⟩ := v
    obtain rfl : negative = true := h
    rfl

namespace Filter

/-! ### Levels -/

/-- The places in the order of precedence, the loosest first. -/
inductive Level where
  | pipe | comma | alternative | disjunction | conjunction | comparison | sum | product | unary
  | attempt | suffixed | primary
deriving DecidableEq, Repr

namespace Level

/-- The number of looser levels. -/
def rank : Level → Nat
  | .pipe => 0
  | .comma => 1
  | .alternative => 2
  | .disjunction => 3
  | .conjunction => 4
  | .comparison => 5
  | .sum => 6
  | .product => 7
  | .unary => 8
  | .attempt => 9
  | .suffixed => 10
  | .primary => 11

instance : LE Level := ⟨fun a b => a.rank ≤ b.rank⟩

instance : LT Level := ⟨fun a b => a.rank < b.rank⟩

instance (a b : Level) : Decidable (a ≤ b) := inferInstanceAs (Decidable (a.rank ≤ b.rank))

instance (a b : Level) : Decidable (a < b) := inferInstanceAs (Decidable (a.rank < b.rank))

/-- The next tighter level. -/
def next : Level → Level
  | .pipe => .comma
  | .comma => .alternative
  | .alternative => .disjunction
  | .disjunction => .conjunction
  | .conjunction => .comparison
  | .comparison => .sum
  | .sum => .product
  | .product => .unary
  | .unary => .attempt
  | .attempt => .suffixed
  | .suffixed => .primary
  | .primary => .primary

end Level

namespace BinaryOp

/-- The level of a filter with the operator. -/
def level : BinaryOp → Level
  | .add | .sub => .sum
  | .mul | .div | .mod => .product
  | .eq | .ne | .lt | .le | .gt | .ge => .comparison
  | .and => .conjunction
  | .or => .disjunction

/-- The level of the left operand: comparisons do not chain, the others group to the left. -/
def leftLevel (op : BinaryOp) : Level := if op.level = .comparison then .sum else op.level

/-- The token of the operator. -/
def token : BinaryOp → TokenKind
  | .add => .mark .plus
  | .sub => .mark .minus
  | .mul => .mark .star
  | .div => .mark .slash
  | .mod => .mark .percent
  | .eq => .mark .equal
  | .ne => .mark .notEqual
  | .lt => .mark .less
  | .le => .mark .lessEqual
  | .gt => .mark .greater
  | .ge => .mark .greaterEqual
  | .and => .keyword .andWord
  | .or => .keyword .orWord

end BinaryOp

/-! ### Tokens -/

/-- Whether a text is a name. -/
def isName (text : String) : Bool :=
  match text.toList with
  | [] => false
  | c :: rest => isNameStart c && rest.all isNamePart

/-- The access to a member, a string where the name is none. -/
def fieldTokens (name : String) : List TokenKind :=
  if isName name then [.field name] else [.mark .dot, .string name]

/-- The key of an entry, a string where it is no name. -/
def keyToken (name : String) : TokenKind := if isName name then .ofWord name else .string name

/-- A filter of level `own` at a place that asks for another one. -/
def placed (place own : Level) (kinds : List TokenKind) : List TokenKind :=
  if place ≤ own then kinds else .mark .leftParen :: (kinds ++ [.mark .rightParen])

namespace Expr

/-- The level of a filter. -/
def level : Expr → Level
  | .pipe _ _ | .bind _ _ _ | .define _ _ _ => .pipe
  | .comma _ _ => .comma
  | .alternative _ _ => .alternative
  | .binary op _ _ => op.level
  | .neg _ => .unary
  | .literal (.number x) => if x.isNegative then .unary else .primary
  | .attempt _ _ => .attempt
  | .field .identity _ => .primary
  | .field _ _ | .index _ _ | .slice _ _ _ | .iterate _ => .suffixed
  | _ => .primary

/-- A leading access needs no dot of its own for the input. -/
def isIdentity : Expr → Bool
  | .identity => true
  | _ => false

section

variable (numberText : Binary64 → String)

/-- A constant; a negative number has its sign before it. -/
def literalTokens : Literal → List TokenKind
  | .null => [.keyword .nullWord]
  | .bool true => [.keyword .trueWord]
  | .bool false => [.keyword .falseWord]
  | .number x =>
    if x.isNegative then [.mark .minus, .number (numberText x.abs)] else [.number (numberText x.abs)]
  | .string value => [.string value]

mutual

/-- **The tokens of a filter.** -/
def print : Expr → List TokenKind
  | .identity => [.mark .dot]
  | .recurseAll => [.mark .doubleDot]
  | .literal value => literalTokens numberText value
  | .field target name =>
    (if target.isIdentity then [] else placed .suffixed target.level (print target)) ++ fieldTokens name
  | .index target i =>
    placed .suffixed target.level (print target) ++
      .mark .leftBracket :: (print i ++ [.mark .rightBracket])
  | .slice target start stop =>
    placed .suffixed target.level (print target) ++
      .mark .leftBracket :: (printMaybe start ++
        .mark .colon :: (printMaybe stop ++ [.mark .rightBracket]))
  | .iterate target =>
    placed .suffixed target.level (print target) ++ [.mark .leftBracket, .mark .rightBracket]
  | .array body => .mark .leftBracket :: (printMaybe body ++ [.mark .rightBracket])
  | .object entries => .mark .leftBrace :: (printEntries entries ++ [.mark .rightBrace])
  | .neg operand => .mark .minus :: placed .unary operand.level (print operand)
  | .binary op left right =>
    placed op.leftLevel left.level (print left) ++
      op.token :: placed op.level.next right.level (print right)
  | .alternative left right =>
    placed .disjunction left.level (print left) ++
      .mark .alternative :: placed .alternative right.level (print right)
  | .pipe left right => placed .comma left.level (print left) ++ .mark .pipe :: print right
  | .comma left right =>
    placed .comma left.level (print left) ++
      .mark .comma :: placed .alternative right.level (print right)
  | .cond test yes no =>
    .keyword .ifWord :: (print test ++
      .keyword .thenWord :: (print yes ++ (printBranch no ++ [.keyword .endWord])))
  | .attempt body handler =>
    .keyword .tryWord :: (placed .suffixed body.level (print body) ++ printHandler handler)
  | .reduce source var init update =>
    .keyword .reduceWord :: (placed .attempt source.level (print source) ++
      .keyword .asWord :: .variable var :: .mark .leftParen :: (print init ++
        .mark .semicolon :: (print update ++ [.mark .rightParen])))
  | .bind source var body =>
    placed .attempt source.level (print source) ++
      .keyword .asWord :: .variable var :: .mark .pipe :: print body
  | .define name body rest =>
    .keyword .defWord :: .identifier name :: .mark .colon :: (print body ++
      .mark .semicolon :: print rest)
  | .variable name _ => [.variable name]
  | .call name args _ => .identifier name :: printArgs args

/-- A filter, or nothing. -/
def printMaybe : Option Expr → List TokenKind
  | none => []
  | some e => print e

/-- The branch for a false condition. -/
def printBranch : Option Expr → List TokenKind
  | none => []
  | some e => .keyword .elseWord :: print e

/-- The handler of a guarded filter. -/
def printHandler : Option Expr → List TokenKind
  | none => []
  | some e => .keyword .catchWord :: placed .suffixed e.level (print e)

/-- The arguments of a call. -/
def printArgs : List Expr → List TokenKind
  | [] => []
  | e :: others => .mark .leftParen :: (print e ++ (printOthers others ++ [.mark .rightParen]))

/-- The arguments behind the first one. -/
def printOthers : List Expr → List TokenKind
  | [] => []
  | e :: others => .mark .semicolon :: (print e ++ printOthers others)

/-- The entries of an object construction. -/
def printEntries : List (ObjectKey Expr × Option Expr) → List TokenKind
  | [] => []
  | (key, value) :: others => printKey key ++ (printValue value ++ printOtherEntries others)

/-- The entries behind the first one. -/
def printOtherEntries : List (ObjectKey Expr × Option Expr) → List TokenKind
  | [] => []
  | (key, value) :: others =>
    .mark .comma :: (printKey key ++ (printValue value ++ printOtherEntries others))

/-- The key of an entry. -/
def printKey : ObjectKey Expr → List TokenKind
  | .static name => [keyToken name]
  | .variable name _ => [.variable name]
  | .computed key => .mark .leftParen :: (print key ++ [.mark .rightParen])

/-- The value of an entry. -/
def printValue : Option Expr → List TokenKind
  | none => []
  | some e => .mark .colon :: placed .alternative e.level (print e)

end

/-- A filter at a place. -/
def printAt (place : Level) (e : Expr) : List TokenKind := placed place e.level (e.print numberText)

/-- The text of a number reads back, a constant is not negated, and computed keys have values. -/
@[mk_iff]
structure Regular (e : Expr) : Prop where
  reads : ∀ x, e = .literal (.number x) → Binary64.ofText? (numberText x.abs) = some x.abs
  folded : ∀ x, e ≠ .neg (.literal (.number x))
  keysHaveValues : e.KeysHaveValues

end

/-! ### Spans -/

mutual

/-- The filter without the places that it was written at. -/
def eraseSpans : Expr → Expr
  | .identity => .identity
  | .recurseAll => .recurseAll
  | .literal value => .literal value
  | .field target name => .field (eraseSpans target) name
  | .index target i => .index (eraseSpans target) (eraseSpans i)
  | .slice target start stop => .slice (eraseSpans target) (eraseMaybe start) (eraseMaybe stop)
  | .iterate target => .iterate (eraseSpans target)
  | .array body => .array (eraseMaybe body)
  | .object entries => .object (eraseEntries entries)
  | .neg operand => .neg (eraseSpans operand)
  | .binary op left right => .binary op (eraseSpans left) (eraseSpans right)
  | .alternative left right => .alternative (eraseSpans left) (eraseSpans right)
  | .pipe left right => .pipe (eraseSpans left) (eraseSpans right)
  | .comma left right => .comma (eraseSpans left) (eraseSpans right)
  | .cond test yes no => .cond (eraseSpans test) (eraseSpans yes) (eraseMaybe no)
  | .attempt body handler => .attempt (eraseSpans body) (eraseMaybe handler)
  | .reduce source var init update =>
    .reduce (eraseSpans source) var (eraseSpans init) (eraseSpans update)
  | .bind source var body => .bind (eraseSpans source) var (eraseSpans body)
  | .define name body rest => .define name (eraseSpans body) (eraseSpans rest)
  | .variable name _ => .variable name (.point 0)
  | .call name args _ => .call name (eraseAll args) (.point 0)

/-- A filter that may be missing. -/
def eraseMaybe : Option Expr → Option Expr
  | none => none
  | some e => some (eraseSpans e)

/-- All filters of a list. -/
def eraseAll : List Expr → List Expr
  | [] => []
  | e :: others => eraseSpans e :: eraseAll others

/-- All entries of an object construction. -/
def eraseEntries : List (ObjectKey Expr × Option Expr) → List (ObjectKey Expr × Option Expr)
  | [] => []
  | (key, value) :: others => (eraseKey key, eraseMaybe value) :: eraseEntries others

/-- The key of an entry. -/
def eraseKey : ObjectKey Expr → ObjectKey Expr
  | .static name => .static name
  | .variable name _ => .variable name (.point 0)
  | .computed key => .computed (eraseSpans key)

end

end Expr

end Filter
end JsonFilter
