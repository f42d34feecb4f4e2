import JsonFilter.Filter.ParseError

/-!
# Readings of a token list

A `Parser` reads a value from the tokens at a cursor.  A success also remembers the furthest failure
met on the way, so that an error reported later can name everything that could have stood at its
place.

## Which failure is reported

In a sequence the failure of a later part wins over one remembered from an earlier part unless the
earlier one lies further to the right.  A choice takes the first branch that succeeds and forgets
the failures of the branches before it.  An optional part that fails, and the part that ends a
repetition, leave their failure behind as the remembered one.
-/

namespace JsonFilter.Filter

/-- The tokens not yet read, the index of the first of them, and where the last token read ends. -/
structure Cursor where
  tokens : List Token
  index : Nat
  lastStop : Nat
deriving Repr

/-- The outcome of a reading. -/
inductive Reply (α : Type) where
  | success (value : α) (rest : Cursor) (furthest : Option ReadFailure)
  | failure (f : ReadFailure)

/-- A reading of a value from the tokens at a cursor. -/
def Parser (α : Type) := Cursor → Reply α

namespace Cursor

/-- Before the first token. -/
def ofTokens (tokens : List Token) : Cursor := ⟨tokens, 0, 0⟩

/-- The span of the next token; past the last token, one place after its end. -/
def nextSpan (c : Cursor) : Span :=
  match c.tokens with
  | t :: _ => t.span
  | [] => ⟨c.lastStop, c.lastStop + 1⟩

/-- The failure at the next token. -/
def failure (c : Cursor) (expected : List TokenKind) : ReadFailure :=
  ⟨c.index, c.nextSpan, c.tokens.head?.map Token.kind, .unexpected, expected⟩

end Cursor

namespace Parser

variable {α β : Type}

/-- Reads nothing. -/
protected def pure (value : α) : Parser α := fun c => .success value c none

/-- One reading, then one that depends on its value. -/
protected def bind (p : Parser α) (f : α → Parser β) : Parser β := fun c =>
  match p c with
  | .failure e => .failure e
  | .success a c before =>
    match f a c with
    | .failure e => .failure (e.furtherThan? before)
    | .success b c after => .success b c (ReadFailure.latest? before after)

instance : Monad Parser where
  pure := Parser.pure
  bind := Parser.bind

/-- Reads nothing and fails without expecting anything. -/
def never : Parser α := fun c => .failure (c.failure [])

/-- Reads one token of a class. -/
def select (f : TokenKind → Option α) : Parser α := fun c =>
  match c.tokens with
  | t :: rest =>
    match f t.kind with
    | some value => .success value ⟨rest, c.index + 1, t.span.stop⟩ none
    | none => .failure (c.failure [])
  | [] => .failure (c.failure [])

/-- Reads one given token. -/
def token (kind : TokenKind) : Parser Unit := fun c =>
  match c.tokens with
  | t :: rest =>
    if t.kind = kind then .success () ⟨rest, c.index + 1, t.span.stop⟩ none
    else .failure (c.failure [kind])
  | [] => .failure (c.failure [kind])

/-- Reads a mark. -/
def mark (m : Mark) : Parser Unit := token (.mark m)

/-- Reads a reserved word. -/
def keyword (word : Keyword) : Parser Unit := token (.keyword word)

/-- The first branch that succeeds, given the failure of the branches before. -/
def firstOfFrom (failed : Option ReadFailure) : List (Parser α) → Parser α
  | [], c => .failure (failed.getD (c.failure []))
  | p :: rest, c =>
    match p c with
    | .success a c furthest => .success a c furthest
    | .failure e => firstOfFrom (ReadFailure.latest? failed (some e)) rest c

/-- The first branch that succeeds; the failures of the branches before it are forgotten. -/
def firstOf (branches : List (Parser α)) : Parser α := firstOfFrom none branches

/-- A part that may be missing. -/
def optional (p : Parser α) : Parser (Option α) := fun c =>
  match p c with
  | .success a c furthest => .success (some a) c furthest
  | .failure e => .success none c (some e)

/-- Repeats a reading at most `budget` times. -/
def manyFrom (p : Parser α) : Nat → List α → Option ReadFailure → Parser (List α)
  | 0, values, furthest => fun c => .success values.reverse c furthest
  | budget + 1, values, furthest => fun c =>
    match p c with
    | .success a c after =>
      manyFrom p budget (a :: values) (ReadFailure.latest? furthest after) c
    | .failure e => .success values.reverse c (ReadFailure.latest? furthest (some e))

/-- Repeats a reading while it succeeds.  Each one reads a token, so the tokens bound their
number. -/
def many (p : Parser α) : Parser (List α) := fun c => manyFrom p (c.tokens.length + 1) [] none c

/-- The items after the first one, each behind a separator: the items, the cursor after the last
one, what is remembered and the failure that ended the list. -/
def itemsFrom (item : Parser α) (separator : Parser Unit) :
    Nat → List α → Cursor → Option ReadFailure →
      List α × Cursor × Option ReadFailure × Option ReadFailure
  | 0, values, c, furthest => (values.reverse, c, furthest, none)
  | budget + 1, values, c, furthest =>
    match separator c with
    | .failure e => (values.reverse, c, furthest, some e)
    | .success _ behind after =>
      let furthest := ReadFailure.latest? furthest after
      match item behind with
      | .failure e => (values.reverse, c, furthest, some e)
      | .success a next after =>
        itemsFrom item separator budget (a :: values) next (ReadFailure.latest? furthest after)

/-- At least one item, with separators between. -/
def separated (item : Parser α) (separator : Parser Unit) : Parser (List α) := fun c =>
  match item c with
  | .failure e => .failure e
  | .success a next furthest =>
    let (values, rest, furthest, ended) :=
      itemsFrom item separator (c.tokens.length + 1) [a] next furthest
    .success values rest (ReadFailure.latest? furthest ended)

/-- Any number of items with separators between, and one more separator after the last. -/
def separatedTrailing (item : Parser α) (separator : Parser Unit) : Parser (List α) := fun c =>
  match item c with
  | .failure e => .success [] c (some e)
  | .success a next furthest =>
    let (values, rest, furthest, ended) :=
      itemsFrom item separator (c.tokens.length + 1) [a] next furthest
    match separator rest with
    | .success _ behind after =>
      .success values behind
        (ReadFailure.latest? (ReadFailure.latest? furthest after) ended)
    | .failure e =>
      .success values rest (ReadFailure.latest? (ReadFailure.latest? furthest (some e)) ended)

/-- A part between two marks. -/
def between (left : Mark) (p : Parser α) (right : Mark) : Parser α := do
  mark left
  let value ← p
  mark right
  return value

/-- A part with the span of its tokens. -/
def withSpan (p : Parser (Span → α)) : Parser α := fun c =>
  match p c with
  | .success f rest furthest => .success (f ⟨c.nextSpan.start, rest.lastStop⟩) rest furthest
  | .failure e => .failure e

/-- A part whose value must pass a test; a value that fails it is reported behind the part, over the
part's span. -/
def ensure (p : Parser α) (test : α → Bool) (message : String) : Parser α := fun c =>
  match p c with
  | .success a rest furthest =>
    if test a then .success a rest furthest
    else .failure ⟨rest.index, ⟨c.nextSpan.start, rest.lastStop⟩, none, .custom message, []⟩
  | .failure e => .failure e

end Parser
end JsonFilter.Filter
