import JsonFilter.Proofs.Filter.Printing
import JsonFilter.Proofs.Filter.Readings

/-!
# Levels of the grammar

The grammar has a rule for each level.  A rule reads an operand of the next level, and then what joins
operands at its own level, so it ends where no token joins at its level or a tighter one.

## Rules read once

The rules of the grammar hand on what they have read of a leading primary.  Here each level has its plain
rule; **`whole_eq`** says that a whole filter is read as if each of its branches started over.

## Unfinished operands

`Rules.arrives` says that the rule of a level has read something and may go on at the same level.  Whatever
is read at a tighter level is a start (**`enter`**), and what may go on ends if nothing joins (**`close`**).
-/

namespace JsonFilter.Filter

open JsonFilter.Filter.Parser (Reads Needs Picks Loops Arrives chain mark keyword token firstOf
  many_nil_or_cons never bind_congr bind_success chain_congr)

variable {c : Cursor} {rest rest' : List TokenKind} {P : Expr → Prop}

/-! ### Where a rule ends -/

/-- The level at which a token joins what stands before it to what follows. -/
def TokenKind.joins : TokenKind → Option Level
  | .mark .pipe | .keyword .asWord => some .pipe
  | .mark .comma => some .comma
  | .mark .alternative => some .alternative
  | .keyword .orWord => some .disjunction
  | .keyword .andWord => some .conjunction
  | .mark .equal | .mark .notEqual | .mark .less | .mark .lessEqual | .mark .greater
  | .mark .greaterEqual => some .comparison
  | .mark .plus | .mark .minus => some .sum
  | .mark .star | .mark .slash | .mark .percent => some .product
  | .keyword .catchWord => some .attempt
  | .field _ | .mark .dot | .mark .leftBracket | .mark .question => some .suffixed
  | .mark .leftParen | .string _ => some .primary
  | _ => none

/-- The next token joins nothing at the level or a tighter one. -/
def Stops (ℓ : Level) (kinds : List TokenKind) : Prop := ∀ k ∈ kinds.head?, ∀ j ∈ k.joins, j < ℓ

namespace Stops

variable {ℓ ℓ' : Level} {k : TokenKind}

theorem cons (h : k.joins.all (· < ℓ) = true) (kinds : List TokenKind) : Stops ℓ (k :: kinds) := by
  intro k' hk' j hj
  obtain rfl : k = k' := by simpa using hk'
  rw [Option.mem_def.1 hj] at h
  simpa using h

theorem mono (h : Stops ℓ rest) (hle : ℓ ≤ ℓ') : Stops ℓ' rest :=
  fun k hk j hj => Nat.lt_of_lt_of_le (h k hk j hj) hle

theorem head_ne (h : Stops ℓ rest) {j : Level} (hk : k.joins = some j) (hle : ℓ ≤ j) :
    rest.head? ≠ some k :=
  fun hhead => Nat.not_lt.2 hle (h k hhead j hk)

end Stops

/-! ### Operators -/

/-- The operators of a level. -/
def operators : Level → Parser BinaryOp
  | .disjunction => operator .or (.keyword .orWord)
  | .conjunction => operator .and (.keyword .andWord)
  | .comparison => comparisonOperator
  | .sum => sumOperator
  | .product => productOperator
  | _ => never

namespace BinaryOp

theorem token_injective : Function.Injective token := by
  intro a b h
  cases a <;> cases b <;> first | rfl | cases h

theorem joins_token (op : BinaryOp) : op.token.joins = some op.level := by cases op <;> rfl

end BinaryOp

theorem reads_operator {op : BinaryOp} {kind : TokenKind} (hc : c.kinds = kind :: rest) :
    (operator op kind).Reads c rest fun op' => op' = op :=
  (Reads.token hc).bind fun _ _ hbehind _ => .pure hbehind rfl

theorem refuses_operator {op : BinaryOp} {kind : TokenKind} (h : c.kinds.head? ≠ some kind) :
    (operator op kind).Refuses c :=
  .bind (.token h)

/-- The operator with the token is the first one that can be read. -/
theorem picks_operator {ops : List BinaryOp} {op : BinaryOp} (hop : op ∈ ops)
    (hc : c.kinds = op.token :: rest) :
    Picks c rest (fun op' => op' = op) (ops.map fun op => operator op op.token) := by
  induction ops with
  | nil => cases hop
  | cons other ops ih =>
    rw [List.map_cons]
    by_cases heq : op = other
    · subst heq
      exact .here (reads_operator hc)
    · refine .later (refuses_operator fun hhead => heq ?_) (ih ((List.mem_cons.1 hop).resolve_left heq))
      rw [hc] at hhead
      exact BinaryOp.token_injective (Option.some.inj hhead)

/-- A choice of operators by their tokens. -/
def choiceOf (ops : List BinaryOp) : Parser BinaryOp := firstOf (ops.map fun op => operator op op.token)

theorem reads_operators {op : BinaryOp} (hc : c.kinds = op.token :: rest) :
    (operators op.level).Reads c rest fun op' => op' = op := by
  have hchoice {ops : List BinaryOp} (hop : op ∈ ops) : (choiceOf ops).Reads c rest fun op' => op' = op :=
    .firstOf (picks_operator hop hc)
  cases op with
  | add | sub => exact show (choiceOf [.add, .sub]).Reads c rest _ from hchoice (by decide)
  | mul | div | mod => exact show (choiceOf [.mul, .div, .mod]).Reads c rest _ from hchoice (by decide)
  | eq | ne | lt | le | gt | ge =>
    exact show (choiceOf [.eq, .ne, .le, .ge, .lt, .gt]).Reads c rest _ from hchoice (by decide)
  | and | or => exact reads_operator hc

theorem refuses_operators {ℓ : Level} (h : Stops ℓ c.kinds) : (operators ℓ).Refuses c := by
  have hchoice {ops : List BinaryOp} (hops : ∀ op ∈ ops, ℓ ≤ op.level) : (choiceOf ops).Refuses c := by
    refine .firstOf fun p hp => ?_
    obtain ⟨op, hop, rfl⟩ := List.mem_map.1 hp
    exact refuses_operator (h.head_ne op.joins_token (hops op hop))
  cases ℓ with
  | disjunction => exact refuses_operator (h.head_ne (BinaryOp.joins_token .or) (Nat.le_refl _))
  | conjunction => exact refuses_operator (h.head_ne (BinaryOp.joins_token .and) (Nat.le_refl _))
  | comparison =>
    exact show (choiceOf [.eq, .ne, .le, .ge, .lt, .gt]).Refuses c from hchoice (by decide)
  | sum => exact show (choiceOf [.add, .sub]).Refuses c from hchoice (by decide)
  | product => exact show (choiceOf [.mul, .div, .mod]).Refuses c from hchoice (by decide)
  | _ => exact ⟨_, rfl⟩

/-! ### Plain rules -/

/-- An operator and its right operand. -/
def operand (ops : Parser BinaryOp) (right : Parser Expr) : Parser (BinaryOp × Expr) := do
  return (← ops, ← right)

/-- What an operator and its right operand make of the left one. -/
def grouped (left : Expr) : BinaryOp × Expr → Expr
  | (op, right) => .binary op left right

namespace Rules

variable (r : Rules)

/-- Minus signs and a primary. -/
def signed : Parser Expr := unary r.tight r.tight

/-- A chain of products. -/
def products : Parser Expr := chain r.signed (operand (operators .product) r.signed) grouped

/-- A chain of sums. -/
def sums : Parser Expr := chain r.products (operand (operators .sum) r.products) grouped

/-- At most one comparison of sums. -/
def compared : Parser Expr := comparison r.sums r.sums

/-- A chain of conjunctions. -/
def conjunctions : Parser Expr := chain r.compared (operand (operators .conjunction) r.compared) grouped

/-- A chain of disjunctions. -/
def disjunctions : Parser Expr :=
  chain r.conjunctions (operand (operators .disjunction) r.conjunctions) grouped

/-- Disjunctions with alternative marks between. -/
def alternated : Parser Expr := alternatives r.disjunctions r.alternative

/-- An operand behind a comma. -/
def commaOperand : Parser Expr := do
  mark .comma
  r.alternated

/-- Alternatives with commas between. -/
def listed : Parser Expr := chain r.alternated r.commaOperand .comma

/-- **The rule of a level.** -/
def rule : Level → Parser Expr
  | .pipe => r.whole
  | .comma => r.listed
  | .alternative => r.alternated
  | .disjunction => r.disjunctions
  | .conjunction => r.conjunctions
  | .comparison => r.compared
  | .sum => r.sums
  | .product => r.products
  | .unary => r.signed
  | .attempt | .suffixed => r.tight
  | .primary => primary r

theorem loose_tight : r.loose r.tight = r.alternated := rfl

/-! ### Reading once -/

theorem unary_congr {lead operand : Parser Expr} (h : lead c = operand c) :
    unary lead operand c = unary operand operand c := by
  change Parser.bind _ _ c = Parser.bind _ _ c
  obtain ⟨furthest, hmany⟩ | ⟨sign, signs, last, furthest, hmany⟩ := many_nil_or_cons (mark .minus) c
  · simp only [Parser.bind, hmany, List.isEmpty_nil, if_true]
    rw [bind_congr h]
  · simp only [Parser.bind, hmany, List.isEmpty_cons]
    rfl

/-- What an operand of a comma is depends on its leading primary only at the cursor. -/
theorem loose_congr {lead : Parser Expr} (h : lead c = r.tight c) : r.loose lead c = r.alternated c := by
  have hsums : chain (chain (unary lead r.tight) (operand productOperator r.signed) grouped)
      (operand sumOperator r.products) grouped c = r.sums c :=
    chain_congr (chain_congr (unary_congr h) _ _) _ _
  have hdisjunctions : operation lead r.tight c = r.disjunctions c :=
    chain_congr (chain_congr (bind_congr hsums _) _ _) _ _
  exact bind_congr hdisjunctions _

/-- **Reading once changes nothing:** a whole filter is read as if each branch started over. -/
theorem whole_eq (c : Cursor) :
    r.whole c = firstOf [definition r.pipe, binding r.tight r.pipe, piped r.listed r.pipe] c := by
  have hbinding : binding (fun _ => r.tight c) r.pipe c = binding r.tight r.pipe c := bind_congr rfl _
  have hlead : r.loose (fun _ => r.tight c) c = r.alternated c := loose_congr r rfl
  have hlisted : commas (r.loose fun _ => r.tight c) r.alternated c = r.listed c :=
    chain_congr hlead _ _
  have hpiped : piped (commas (r.loose fun _ => r.tight c) r.alternated) r.pipe c =
      piped r.listed r.pipe c := bind_congr hlisted _
  simp only [whole, loose_tight, firstOf, Parser.firstOfFrom, hbinding, hpiped]

/-! ### First tokens -/

/-- The tokens that are primaries, but for names. -/
def isConstant : TokenKind → Bool
  | .keyword .nullWord | .keyword .trueWord | .keyword .falseWord | .number _ | .string _ => true
  | _ => false

def isField : TokenKind → Bool
  | .field _ => true
  | _ => false

def isVariable : TokenKind → Bool
  | .variable _ => true
  | _ => false

def isIdentifier : TokenKind → Bool
  | .identifier _ => true
  | _ => false

def isString : TokenKind → Bool
  | .string _ => true
  | _ => false

def isKeyword : TokenKind → Bool
  | .keyword _ => true
  | _ => false

theorem fieldName_needs : fieldName.Needs isField :=
  .select fun k hk => by cases k <;> first | rfl | cases hk

theorem variableName_needs : variableName.Needs isVariable :=
  .select fun k hk => by cases k <;> first | rfl | cases hk

theorem identifier_needs : identifier.Needs isIdentifier :=
  .select fun k hk => by cases k <;> first | rfl | cases hk

theorem stringText_needs : stringText.Needs isString :=
  .select fun k hk => by cases k <;> first | rfl | cases hk

theorem keywordName_needs : keywordName.Needs isKeyword :=
  .select fun k hk => by cases k <;> first | rfl | cases hk

theorem literal_needs : literal.Needs isConstant := .select fun k hk => by
  cases k with
  | keyword w => cases w <;> first | rfl | cases hk
  | number | string => cases hk
  | _ => rfl

/-- The first tokens of primaries, in the order in which the kinds of primaries are tried. -/
def primaryHeads : List (TokenKind → Bool) := [
  (· == .mark .dot), isField, (· == .mark .doubleDot), (· == .mark .dot), isConstant, isVariable,
  (· == .keyword .ifWord), (· == .keyword .tryWord), (· == .keyword .reduceWord), isIdentifier,
  (· == .mark .leftParen), (· == .mark .leftBracket), (· == .mark .leftBrace)]

/-- The kinds of primaries. -/
def primaries : List (Parser Expr) := [
  do
    mark .dot
    return .field .identity (← stringText),
  do return .field .identity (← fieldName),
  do
    mark .doubleDot
    return .recurseAll,
  do
    mark .dot
    return .identity,
  literal,
  variableUse,
  conditional r.pipe,
  guarded r.postfixed,
  reduction r.pipe r.postfixed,
  call r.pipe,
  Parser.between .leftParen r.pipe .rightParen,
  arrayConstruction r.pipe,
  objectConstruction r.pipe r.alternative]

theorem primaries_need : List.Forall₂ Needs r.primaries primaryHeads :=
  .cons (.bind (.token _) _) (.cons (fieldName_needs.bind _) (.cons (.bind (.token _) _)
    (.cons (.bind (.token _) _) (.cons literal_needs (.cons (.withSpan (variableName_needs.bind _))
      (.cons (.bind (.token _) _) (.cons (.bind (.token _) _) (.cons (.bind (.token _) _)
        (.cons (.withSpan (identifier_needs.bind _)) (.cons (.bind (.token _) _)
          (.cons (.bind (.bind (.token _) _) _) (.cons (.bind (.bind (.token _) _) _) .nil))))))))))))

/-- A primary is of the first kind that its first token allows. -/
theorem reads_primary {k : TokenKind} (hc : c.kinds = k :: rest') (i : Nat)
    (hbefore : (primaryHeads.take i).any (· k) = false) {p : Parser Expr} (hi : r.primaries[i]? = some p)
    (hp : p.Reads c rest P) : (primary r).Reads c rest P :=
  .firstOf (.ofHeads r.primaries_need hc i hbefore hi hp)

theorem tight_needs : r.tight.Needs fun k => primaryHeads.any (· k) :=
  .bind (.firstOf r.primaries_need) _

/-- The first tokens of filters that are no definitions. -/
def operandHeads (k : TokenKind) : Bool := k == .mark .minus || primaryHeads.any (· k)

theorem signed_needs : r.signed.Needs operandHeads := by
  intro c hc
  have hsign : (mark .minus).Refuses c := .token fun hhead => by
    have := hc _ hhead
    simp [operandHeads] at this
  refine .behind (Reads.many_nil rfl hsign) fun signs behind hbehind hsigns => ?_
  subst hsigns
  refine .bind (tight_needs r behind fun k hk => ?_)
  have hhead := hc k (hbehind ▸ hk)
  exact (Bool.or_eq_false_iff.1 hhead).2

theorem listed_needs : r.listed.Needs operandHeads :=
  -- A chain starts with its first operand, down to the signs.
  have hsums : r.sums.Needs operandHeads := .bind (.bind (signed_needs r) _) _
  have hdisjunctions : r.disjunctions.Needs operandHeads := .bind (.bind (.bind hsums _) _) _
  .bind (.bind hdisjunctions _) _

theorem whole_needs : r.whole.Needs fun k => k == .keyword .defWord || operandHeads k := by
  intro c hc
  have hdefinition : (definition r.pipe).Refuses c := .bind (.token fun hhead => by
    have := hc _ hhead
    simp at this)
  have hoperand : ∀ k ∈ c.kinds.head?, operandHeads k = false :=
    fun k hk => (Bool.or_eq_false_iff.1 (hc k hk)).2
  have htight : r.tight.Refuses c :=
    tight_needs r c fun k hk => (Bool.or_eq_false_iff.1 (hoperand k hk)).2
  obtain ⟨f, hf⟩ : (firstOf [definition r.pipe, binding r.tight r.pipe, piped r.listed r.pipe]).Refuses c := by
    refine .firstOf fun p hp => ?_
    simp only [List.mem_cons, List.not_mem_nil, or_false] at hp
    obtain rfl | rfl | rfl := hp
    · exact hdefinition
    · exact .bind htight
    · exact .bind (listed_needs r c hoperand)
  exact ⟨f, (whole_eq r c).trans hf⟩

/-! ### Signs -/

/-- Minus signs have been read, and the operand behind them. -/
def Signed (c : Cursor) (rest : List TokenKind) (P : Expr → Prop) : Prop :=
  ∃ signs behind operand last furthest, Loops (mark .minus) c signs behind ∧
    (mark .minus).Refuses behind ∧ r.tight behind = .success operand last furthest ∧
      last.kinds = rest ∧ P (signs.foldr (fun _ e => negate e) operand)

namespace Signed

variable {r}

theorem start (h : r.tight.Reads c rest P) : r.Signed c rest P := by
  have hsign : (mark .minus).Refuses c := .token fun hhead => h.not_refuses <|
    tight_needs r c fun k hk => by
      rw [hhead] at hk
      cases hk
      rfl
  obtain ⟨operand, last, furthest, hread, hrest, hP⟩ := h
  exact ⟨[], c, operand, last, furthest, .stop c, hsign, hread, hrest, hP⟩

theorem extend {mid : List TokenKind} {P' : Expr → Prop} (hc : c.kinds = .mark .minus :: mid)
    (h : ∀ behind : Cursor, behind.kinds = mid → r.Signed behind rest P)
    (hP : ∀ e, P e → P' (negate e)) : r.Signed c rest P' := by
  obtain ⟨_, behind, furthest, hsign, hbehind, -⟩ := Reads.token hc
  obtain ⟨signs, target, operand, last, furthest', hloops, hstop, hread, hrest, hfold⟩ := h behind hbehind
  refine ⟨() :: signs, target, operand, last, furthest', .turn hsign ?_ hloops, hstop, hread, hrest,
    hP _ hfold⟩
  rw [← behind.length_kinds, ← c.length_kinds, hc, hbehind]
  exact Nat.lt_succ_self _

theorem reads (h : r.Signed c rest P) : r.signed.Reads c rest P := by
  obtain ⟨signs, behind, operand, last, furthest, hloops, hstop, hread, hrest, hP⟩ := h
  obtain ⟨furthest', hmany⟩ := hloops.many_eq hstop
  have hoperand : (do
      let operand ← if signs.isEmpty then r.tight else r.tight
      return signs.foldr (fun _ e => negate e) operand : Parser Expr) behind = .success
        (signs.foldr (fun _ e => negate e) operand) last (ReadFailure.latest? furthest Option.none) := by
    rw [ite_self]
    exact bind_success hread rfl
  exact ⟨_, last, _, bind_success hmany hoperand, hrest, hP⟩

end Signed

end Rules

/-! ### From level to level -/

namespace Level

/-- The level that what is read as a part of a chain must end at. -/
def inner : Level → Level
  | .comma => .alternative
  | .disjunction => .conjunction
  | .conjunction => .comparison
  | .sum => .product
  | .product => .unary
  | .suffixed => .primary
  | ℓ => ℓ

theorem le_inner (ℓ : Level) : ℓ ≤ ℓ.inner := by cases ℓ <;> decide

theorem le_next (ℓ : Level) : ℓ ≤ ℓ.next := by cases ℓ <;> decide

theorem inner_le_next (ℓ : Level) : ℓ.inner ≤ ℓ.next := by cases ℓ <;> decide

theorem le_primary (ℓ : Level) : ℓ ≤ .primary := by cases ℓ <;> decide

theorem rank_next {ℓ ℓ' : Level} (h : ℓ < ℓ') : ℓ.next.rank = ℓ.rank + 1 := by
  cases ℓ with
  | primary => cases ℓ' <;> exact absurd h (by decide)
  | _ => rfl

theorem rank_injective : Function.Injective rank := by
  intro a b h
  cases a <;> cases b <;> first | rfl | cases h

/-- From a level down to a looser one, step by step. -/
theorem descend {motive : Level → Prop} {ℓ ℓ' : Level} (h : ℓ ≤ ℓ') (base : motive ℓ')
    (step : ∀ ℓ, ℓ < ℓ' → motive ℓ.next → motive ℓ) : motive ℓ := by
  induction hsteps : ℓ'.rank - ℓ.rank generalizing ℓ with
  | zero =>
    obtain rfl : ℓ = ℓ' := rank_injective (Nat.le_antisymm h (Nat.sub_eq_zero_iff_le.1 hsteps))
    exact base
  | succ steps ih =>
    have hlt : ℓ < ℓ' := Nat.lt_of_sub_pos (hsteps ▸ Nat.succ_pos steps)
    have hnext := rank_next hlt
    refine step ℓ hlt (ih ?_ ?_)
    · change ℓ.next.rank ≤ ℓ'.rank
      rw [hnext]
      exact hlt
    · rw [hnext]
      omega

end Level

namespace Rules

variable (r : Rules)

/-- The rule of a level has read something, and may go on at the same level. -/
def arrives : Level → Cursor → List TokenKind → (Expr → Prop) → Prop
  | .comma => Arrives r.alternated r.commaOperand .comma
  | .disjunction => Arrives r.conjunctions (operand (operators .disjunction) r.conjunctions) grouped
  | .conjunction => Arrives r.compared (operand (operators .conjunction) r.compared) grouped
  | .sum => Arrives r.products (operand (operators .sum) r.products) grouped
  | .product => Arrives r.signed (operand (operators .product) r.signed) grouped
  | .unary => r.Signed
  | .suffixed => Arrives (primary r) (suffix r.pipe) Suffix.apply
  | ℓ => Reads (r.rule ℓ)

variable {r} {ℓ ℓ' : Level}

/-- A suffix starts with a token that joins at its level. -/
theorem suffix_refuses (hstop : Stops .suffixed c.kinds) : (suffix r.pipe).Refuses c := by
  have hne {k : TokenKind} (hk : k.joins = some .suffixed) : c.kinds.head? ≠ some k :=
    hstop.head_ne hk (Nat.le_refl _)
  have hbracket : (bracketSuffix r.pipe).Refuses c := by
    obtain ⟨f, hf⟩ : (mark .leftBracket).Refuses c := .token (hne rfl)
    exact ⟨f, by simp only [bracketSuffix, hf]⟩
  refine .firstOf fun p hp => ?_
  simp only [List.mem_cons, List.not_mem_nil, or_false] at hp
  obtain rfl | rfl | rfl | rfl | rfl := hp
  · refine .bind (fieldName_needs c fun k hk => ?_)
    cases k with
    | field name => exact absurd hk (hne rfl)
    | _ => rfl
  · exact .bind (.token (hne rfl))
  · exact hbracket
  · exact .bind (.token (hne rfl))
  · exact .bind (.token (hne rfl))

/-- **What may go on ends** where nothing joins at the level. -/
theorem close (h : r.arrives ℓ c rest P) (hstop : Stops ℓ rest) : (r.rule ℓ).Reads c rest P := by
  have hoperand {ℓ : Level} (hstop : Stops ℓ rest) (right : Parser Expr) (last : Cursor)
      (hlast : last.kinds = rest) : (operand (operators ℓ) right).Refuses last :=
    .bind (refuses_operators (hlast ▸ hstop))
  cases ℓ with
  | comma => exact h.reads fun last hlast => .bind (.token (hlast ▸ hstop.head_ne rfl (Nat.le_refl _)))
  | disjunction => exact h.reads (hoperand hstop _)
  | conjunction => exact h.reads (hoperand hstop _)
  | sum => exact h.reads (hoperand hstop _)
  | product => exact h.reads (hoperand hstop _)
  | unary => exact h.reads
  | suffixed => exact h.reads fun last hlast => suffix_refuses (hlast ▸ hstop)
  | _ => exact h

/-- What is read of tighter filters starts every level but the loosest. -/
theorem enter_operand (hℓ : ℓ ≠ .pipe) (h : (r.rule ℓ.next).Reads c rest P) (hstop : Stops ℓ.inner rest) :
    r.arrives ℓ c rest P := by
  cases ℓ with
  | pipe => exact absurd rfl hℓ
  | comma | disjunction | conjunction | sum | product | suffixed => exact .lead_only h
  | unary => exact .start h
  | attempt | primary => exact h
  | alternative =>
    refine Reads.bind h fun left behind hbehind hleft => ?_
    have hmark : (mark .alternative).Refuses behind :=
      .token (hbehind ▸ hstop.head_ne rfl (Nat.le_refl _))
    refine (Reads.optional_none hbehind (.bind hmark)).bind fun right last hlast hright => ?_
    subst hright
    exact .pure hlast hleft
  | comparison =>
    refine Reads.bind h fun left behind hbehind hleft => ?_
    have hoperator : (operators .comparison).Refuses behind := refuses_operators (hbehind ▸ hstop)
    refine (Reads.optional_none hbehind (.bind hoperator)).bind fun right last hlast hright => ?_
    subst hright
    exact .pure hlast hleft

/-- What is read of a tight filter is read by the rule of every looser level but the loosest. -/
theorem widen_operand (hℓ : ℓ ≠ .pipe) (hle : ℓ ≤ ℓ') (h : (r.rule ℓ').Reads c rest P)
    (hstop : Stops ℓ rest) : (r.rule ℓ).Reads c rest P := by
  revert hℓ hstop
  refine Level.descend (motive := fun ℓ => ℓ ≠ .pipe → Stops ℓ rest → (r.rule ℓ).Reads c rest P) hle
    (fun _ _ => h) fun ℓ _ ih hℓ hstop => ?_
  have hnext : ℓ.next ≠ .pipe := by cases ℓ <;> decide
  have hnextstop : Stops ℓ.next rest := hstop.mono ℓ.le_next
  exact close (enter_operand hℓ (ih hnext hnextstop) (hstop.mono ℓ.le_inner)) hstop

/-- Before a list of alternatives that is not bound there is neither a definition nor a binding. -/
theorem refuses_binders (h : r.listed.Reads c rest P) (hbound : rest.head? ≠ some (.keyword .asWord)) :
    (definition r.pipe).Refuses c ∧ (binding r.tight r.pipe).Refuses c := by
  constructor
  · refine .bind (.token fun hhead => h.not_refuses (listed_needs r c fun k hk => ?_))
    rw [hhead] at hk
    cases hk
    rfl
  · cases htight : r.tight c with
    | failure f => exact .bind ⟨f, htight⟩
    | success source behind furthest =>
      have hsource : (r.rule .suffixed).Reads c behind.kinds fun _ => True :=
        ⟨source, behind, furthest, htight, rfl, trivial⟩
      refine .behind hsource fun _ last hlast _ => .bind (.token fun hhead => hbound ?_)
      -- A bound primary would be the whole list.
      rw [hlast] at hhead
      have hstop : Stops .comma behind.kinds := by
        intro k hk j hj
        rw [hhead] at hk
        cases hk
        cases hj
        decide
      have hlisted : (r.rule .comma).Reads c behind.kinds fun _ => True :=
        widen_operand (by decide) (by decide) hsource hstop
      rw [h.rest_unique hlisted]
      exact hhead

theorem reads_whole (h : Picks c rest P [definition r.pipe, binding r.tight r.pipe, piped r.listed r.pipe]) :
    r.whole.Reads c rest P := by
  obtain ⟨e, last, furthest, hread, hrest, he⟩ := Reads.firstOf h
  exact ⟨e, last, furthest, (whole_eq r c).trans hread, hrest, he⟩

/-- A list of alternatives with no pipe behind it is a whole filter. -/
theorem enter_pipe (h : r.listed.Reads c rest P) (hstop : Stops .pipe rest) :
    r.whole.Reads c rest P := by
  obtain ⟨hdefinition, hbinding⟩ := refuses_binders h (hstop.head_ne rfl (Nat.le_refl _))
  refine reads_whole (.later hdefinition (.later hbinding (.here ?_)))
  refine h.bind fun left behind hbehind hleft => ?_
  have hmark : (mark .pipe).Refuses behind := .token (hbehind ▸ hstop.head_ne rfl (Nat.le_refl _))
  refine (Reads.optional_none hbehind (.bind hmark)).bind fun right last hlast hright => ?_
  subst hright
  exact .pure hlast hleft

/-- **What is read of tighter filters is a start** at every level. -/
theorem enter (h : (r.rule ℓ.next).Reads c rest P) (hstop : Stops ℓ.inner rest) :
    r.arrives ℓ c rest P := by
  cases ℓ with
  | pipe => exact enter_pipe h hstop
  | _ => exact enter_operand (by decide) h hstop

/-- **A tight filter is read at every looser level** where nothing joins behind it. -/
theorem widen (hle : ℓ ≤ ℓ') (h : (r.rule ℓ').Reads c rest P) (hstop : Stops ℓ rest) :
    (r.rule ℓ).Reads c rest P := by
  revert hstop
  refine Level.descend (motive := fun ℓ => Stops ℓ rest → (r.rule ℓ).Reads c rest P) hle (fun _ => h)
    fun ℓ _ ih hstop => ?_
  have hnextstop : Stops ℓ.next rest := hstop.mono ℓ.le_next
  exact close (enter (ih hnextstop) (hstop.mono ℓ.le_inner)) hstop

end Rules

end JsonFilter.Filter
