import JsonFilter.Filter.Parser
import Mathlib.Data.List.Forall2

/-!
# What a reading does with given tokens

`Reads p c rest P` says that `p` succeeds at the cursor `c`, leaves the tokens `rest`, and gives a value
with the property `P`; `Refuses p c` says that it fails.  Where a token was read from, and which failure is
remembered, does not matter to either.

## Choices and repetitions

A choice takes the first branch that succeeds, so a branch is taken where those before it refuse.  Most
branches need not be run for that: `Needs p heads` says which tokens `p` can start with.

A repetition goes on while its item succeeds.  `Loops` is a part of a repetition, with nothing said about
what follows, so that a chain of operands can be put together from the left.

* **`Arrives.reads`** — a chain ends where its item refuses.
* **`reads_separated`**, **`reads_separatedTrailing`** — lists with marks between their items.
-/

namespace JsonFilter.Filter

/-- The kinds of the tokens not yet read. -/
def Cursor.kinds (c : Cursor) : List TokenKind := c.tokens.map Token.kind

theorem Cursor.length_kinds (c : Cursor) : c.kinds.length = c.tokens.length := List.length_map _

namespace Parser

variable {α β : Type} {p : Parser α} {c : Cursor} {rest : List TokenKind} {P : α → Prop} {Q : β → Prop}

/-- The reading succeeds, leaves these tokens and gives a value with the property. -/
def Reads (p : Parser α) (c : Cursor) (rest : List TokenKind) (P : α → Prop) : Prop :=
  ∃ a behind furthest, p c = .success a behind furthest ∧ behind.kinds = rest ∧ P a

/-- The reading fails. -/
def Refuses (p : Parser α) (c : Cursor) : Prop := ∃ f, p c = .failure f

theorem Reads.not_refuses (h : p.Reads c rest P) : ¬ p.Refuses c := by
  rintro ⟨f, hf⟩
  obtain ⟨a, behind, furthest, hread, -, -⟩ := h
  rw [hread] at hf
  cases hf

theorem Reads.imp {P' : α → Prop} (h : p.Reads c rest P) (himp : ∀ a, P a → P' a) :
    p.Reads c rest P' := by
  obtain ⟨a, behind, furthest, hread, hrest, ha⟩ := h
  exact ⟨a, behind, furthest, hread, hrest, himp a ha⟩

/-- What is left is determined by the cursor. -/
theorem Reads.rest_unique {P' : α → Prop} {rest' : List TokenKind} (h : p.Reads c rest P)
    (h' : p.Reads c rest' P') : rest = rest' := by
  obtain ⟨a, behind, furthest, hread, rfl, -⟩ := h
  obtain ⟨a', behind', furthest', hread', rfl, -⟩ := h'
  rw [hread] at hread'
  cases hread'
  rfl

/-! ### Single tokens -/

theorem exists_token {k : TokenKind} (h : c.kinds = k :: rest) :
    ∃ t tokens, c.tokens = t :: tokens ∧ t.kind = k ∧ tokens.map Token.kind = rest :=
  List.map_eq_cons_iff.1 h

theorem Reads.token {k : TokenKind} (h : c.kinds = k :: rest) :
    (token k).Reads c rest fun _ => True := by
  obtain ⟨t, tokens, htokens, hkind, hrest⟩ := exists_token h
  refine ⟨(), ⟨tokens, c.index + 1, t.span.stop⟩, none, ?_, hrest, trivial⟩
  simp only [Parser.token, htokens, if_pos hkind]

theorem Reads.select {f : TokenKind → Option α} {k : TokenKind} {a : α} (h : c.kinds = k :: rest)
    (hf : f k = some a) : (select f).Reads c rest fun b => b = a := by
  obtain ⟨t, tokens, htokens, hkind, hrest⟩ := exists_token h
  refine ⟨a, ⟨tokens, c.index + 1, t.span.stop⟩, none, ?_, hrest, rfl⟩
  simp only [Parser.select, htokens, hkind, hf]

theorem Refuses.token {k : TokenKind} (h : c.kinds.head? ≠ some k) : (token k).Refuses c := by
  refine ⟨c.failure [k], ?_⟩
  cases htokens : c.tokens with
  | nil => simp only [Parser.token, htokens]
  | cons t tokens =>
    have hkind : t.kind ≠ k := fun hkind => h (by simp [Cursor.kinds, htokens, hkind])
    simp only [Parser.token, htokens, if_neg hkind]

/-! ### Sequences -/

theorem Reads.pure {a : α} (h : c.kinds = rest) (ha : P a) : (pure a : Parser α).Reads c rest P :=
  ⟨a, c, none, rfl, h, ha⟩

theorem bind_success {f : α → Parser β} {a : α} {b : β} {behind last : Cursor}
    {before after : Option ReadFailure} (hp : p c = .success a behind before)
    (hf : f a behind = .success b last after) :
    (p >>= f) c = .success b last (ReadFailure.latest? before after) := by
  change Parser.bind p f c = _
  simp only [Parser.bind, hp, hf]

theorem Reads.bind {f : α → Parser β} {mid : List TokenKind} (hp : p.Reads c mid P)
    (hf : ∀ a behind, behind.kinds = mid → P a → (f a).Reads behind rest Q) :
    (p >>= f).Reads c rest Q := by
  obtain ⟨a, behind, before, hread, hmid, ha⟩ := hp
  obtain ⟨b, last, after, hread', hrest, hb⟩ := hf a behind hmid ha
  exact ⟨b, last, _, bind_success hread hread', hrest, hb⟩

theorem Refuses.bind {f : α → Parser β} (h : p.Refuses c) : (p >>= f).Refuses c := by
  obtain ⟨e, he⟩ := h
  refine ⟨e, ?_⟩
  change Parser.bind p f c = _
  simp only [Parser.bind, he]

theorem Refuses.behind {f : α → Parser β} {mid : List TokenKind} (hp : p.Reads c mid P)
    (hf : ∀ a behind, behind.kinds = mid → P a → (f a).Refuses behind) : (p >>= f).Refuses c := by
  obtain ⟨a, behind, before, hread, hmid, ha⟩ := hp
  obtain ⟨e, he⟩ := hf a behind hmid ha
  refine ⟨e.furtherThan? before, ?_⟩
  change Parser.bind p f c = _
  simp only [Parser.bind, hread, he]

/-- What a sequence does at a cursor depends only on what its first part does there. -/
theorem bind_congr {q : Parser α} (h : p c = q c) (f : α → Parser β) : (p >>= f) c = (q >>= f) c := by
  change Parser.bind p f c = Parser.bind q f c
  simp only [Parser.bind, h]

theorem Reads.optional_some (h : p.Reads c rest P) :
    (optional p).Reads c rest fun o => ∃ a, o = some a ∧ P a := by
  obtain ⟨a, behind, furthest, hread, hrest, ha⟩ := h
  exact ⟨some a, behind, furthest, by simp only [optional, hread], hrest, a, rfl, ha⟩

theorem Reads.optional_none (hc : c.kinds = rest) (h : p.Refuses c) :
    (optional p).Reads c rest fun o => o = none := by
  obtain ⟨f, hf⟩ := h
  exact ⟨none, c, some f, by simp only [optional, hf], hc, rfl⟩

theorem Reads.between {left right : Mark} {inner : List TokenKind}
    (hc : c.kinds = .mark left :: inner)
    (hp : ∀ behind : Cursor, behind.kinds = inner → p.Reads behind (.mark right :: rest) P) :
    (between left p right).Reads c rest P := by
  refine (Reads.token hc).bind fun _ behind hbehind _ => (hp behind hbehind).bind fun a after hafter ha => ?_
  exact (Reads.token hafter).bind fun _ last hlast _ => .pure hlast ha

theorem Reads.withSpan {p : Parser (Span → α)}
    (h : p.Reads c rest fun f => ∀ span, P (f span)) : (withSpan p).Reads c rest P := by
  obtain ⟨f, behind, furthest, hread, hrest, hf⟩ := h
  exact ⟨f ⟨c.nextSpan.start, behind.lastStop⟩, behind, furthest,
    by simp only [Parser.withSpan, hread], hrest, hf _⟩

theorem Reads.ensure {test : α → Bool} {message : String}
    (h : p.Reads c rest fun a => P a ∧ test a = true) : (ensure p test message).Reads c rest P := by
  obtain ⟨a, behind, furthest, hread, hrest, ha, htest⟩ := h
  exact ⟨a, behind, furthest, by simp only [Parser.ensure, hread, htest, if_true], hrest, ha⟩

theorem Refuses.ensure {test : α → Bool} {message : String} (h : p.Refuses c) :
    (ensure p test message).Refuses c := by
  obtain ⟨f, hf⟩ := h
  exact ⟨f, by simp only [Parser.ensure, hf]⟩

/-! ### Heads -/

/-- The reading can start only with some tokens. -/
def Needs (p : Parser α) (heads : TokenKind → Bool) : Prop :=
  ∀ c, (∀ k ∈ c.kinds.head?, heads k = false) → p.Refuses c

namespace Needs

variable {heads : TokenKind → Bool}

theorem refuses (h : p.Needs heads) {k : TokenKind} (hc : c.kinds = k :: rest) (hk : heads k = false) :
    p.Refuses c := by
  refine h c fun k' hk' => ?_
  rw [hc] at hk'
  cases hk'
  exact hk

theorem token (k : TokenKind) : (token k).Needs (· == k) := by
  refine fun c h => .token fun hk => ?_
  have := h k hk
  simp at this

theorem select {f : TokenKind → Option α} (hf : ∀ k, heads k = false → f k = none) :
    (select f).Needs heads := by
  refine fun c h => ⟨c.failure [], ?_⟩
  cases htokens : c.tokens with
  | nil => simp only [Parser.select, htokens]
  | cons t tokens =>
    have hnone : f t.kind = none := hf t.kind (h t.kind (by simp [Cursor.kinds, htokens]))
    simp only [Parser.select, htokens, hnone]

theorem bind (h : p.Needs heads) (f : α → Parser β) : (p >>= f).Needs heads :=
  fun c hc => .bind (h c hc)

theorem withSpan {p : Parser (Span → α)} (h : p.Needs heads) : (withSpan p).Needs heads := by
  intro c hc
  obtain ⟨f, hf⟩ := h c hc
  exact ⟨f, by simp only [Parser.withSpan, hf]⟩

end Needs

/-! ### Choices -/

/-- A branch reads, and those before it refuse. -/
inductive Picks (c : Cursor) (rest : List TokenKind) (P : α → Prop) : List (Parser α) → Prop
  | here {p : Parser α} {ps : List (Parser α)} : p.Reads c rest P → Picks c rest P (p :: ps)
  | later {p : Parser α} {ps : List (Parser α)} : p.Refuses c → Picks c rest P ps →
    Picks c rest P (p :: ps)

theorem Reads.firstOf {ps : List (Parser α)} (h : Picks c rest P ps) : (firstOf ps).Reads c rest P := by
  have hfrom : ∀ failed, (firstOfFrom failed ps).Reads c rest P := by
    induction h with
    | here hp =>
      obtain ⟨a, behind, furthest, hread, hrest, ha⟩ := hp
      exact fun failed => ⟨a, behind, furthest, by simp only [firstOfFrom, hread], hrest, ha⟩
    | later hp _ ih =>
      obtain ⟨f, hf⟩ := hp
      intro failed
      obtain ⟨a, behind, furthest, hread, hrest, ha⟩ := ih (ReadFailure.latest? failed (some f))
      exact ⟨a, behind, furthest, by simp only [firstOfFrom, hf, hread], hrest, ha⟩
  exact hfrom none

theorem Refuses.firstOf {ps : List (Parser α)} (h : ∀ p ∈ ps, p.Refuses c) : (firstOf ps).Refuses c := by
  have hfrom : ∀ failed, (firstOfFrom failed ps).Refuses c := by
    induction ps with
    | nil => exact fun failed => ⟨_, rfl⟩
    | cons p ps ih =>
      intro failed
      obtain ⟨f, hf⟩ := h p List.mem_cons_self
      obtain ⟨f', hf'⟩ := ih (fun q hq => h q (List.mem_cons_of_mem p hq))
        (ReadFailure.latest? failed (some f))
      exact ⟨f', by simp only [firstOfFrom, hf, hf']⟩
  exact hfrom none

/-- The first branch whose heads the next token is among. -/
theorem Picks.ofHeads {ps : List (Parser α)} {heads : List (TokenKind → Bool)}
    (hneeds : List.Forall₂ Needs ps heads) {k : TokenKind} {more : List TokenKind}
    (hc : c.kinds = k :: more) (i : Nat) (hbefore : (heads.take i).any (· k) = false)
    (hi : ps[i]? = some p) (hp : p.Reads c rest P) : Picks c rest P ps := by
  induction hneeds generalizing i with
  | nil => cases hi
  | cons hneed _ ih =>
    cases i with
    | zero =>
      cases hi
      exact .here hp
    | succ i =>
      simp only [List.take_succ_cons, List.any_cons, Bool.or_eq_false_iff] at hbefore
      exact .later (hneed.refuses hc hbefore.1) (ih i hbefore.2 hi)

theorem Needs.firstOf {ps : List (Parser α)} {heads : List (TokenKind → Bool)}
    (h : List.Forall₂ Needs ps heads) : (firstOf ps).Needs fun k => heads.any (· k) := by
  refine fun c hc => .firstOf ?_
  induction h with
  | nil => exact fun p hp => by cases hp
  | cons hneed _ ih =>
    simp only [List.any_cons, Bool.or_eq_false_iff] at hc
    exact List.forall_mem_cons.2 ⟨hneed c fun k hk => (hc k hk).1, ih fun k hk => (hc k hk).2⟩

/-! ### Repetitions -/

/-- A repetition succeeds, with what it had read before in front. -/
theorem manyFrom_success (p : Parser α) (budget : Nat) (before : List α)
    (remembered : Option ReadFailure) (c : Cursor) :
    ∃ values last furthest, manyFrom p budget before remembered c =
      .success (before.reverse ++ values) last furthest := by
  induction budget generalizing before remembered c with
  | zero => exact ⟨[], c, remembered, by simp only [manyFrom, List.append_nil]⟩
  | succ budget ih =>
    cases hread : p c with
    | success a behind after =>
      obtain ⟨values, last, furthest, hmany⟩ :=
        ih (a :: before) (ReadFailure.latest? remembered after) behind
      exact ⟨a :: values, last, furthest, by simp only [manyFrom, hread, hmany, List.reverse_cons,
        List.append_assoc, List.cons_append, List.nil_append]⟩
    | failure f =>
      exact ⟨[], c, ReadFailure.latest? remembered (some f),
        by simp only [manyFrom, hread, List.append_nil]⟩

/-- A repetition without a value stays where it is. -/
theorem many_nil_or_cons (p : Parser α) (c : Cursor) :
    (∃ furthest, many p c = .success [] c furthest) ∨
      ∃ a values last furthest, many p c = .success (a :: values) last furthest := by
  cases hread : p c with
  | success a behind after =>
    obtain ⟨values, last, furthest, hmany⟩ :=
      manyFrom_success p c.tokens.length [a] (ReadFailure.latest? none after) behind
    refine .inr ⟨a, values, last, furthest, ?_⟩
    simp only [many, manyFrom, hread, hmany, List.reverse_singleton, List.singleton_append]
  | failure f =>
    exact .inl ⟨ReadFailure.latest? none (some f),
      by simp only [many, manyFrom, hread, List.reverse_nil]⟩

/-- The item succeeds some times in a row, each time with a token read. -/
inductive Loops (item : Parser α) : Cursor → List α → Cursor → Prop
  | stop (c : Cursor) : Loops item c [] c
  | turn {c behind last : Cursor} {a : α} {values : List α} {furthest : Option ReadFailure} :
    item c = .success a behind furthest → behind.tokens.length < c.tokens.length →
      Loops item behind values last → Loops item c (a :: values) last

namespace Loops

variable {item : Parser α} {last : Cursor} {values : List α}

theorem snoc (h : Loops item c values last) {a : α} {behind : Cursor} {furthest : Option ReadFailure}
    (hread : item last = .success a behind furthest)
    (hlength : behind.tokens.length < last.tokens.length) : Loops item c (values ++ [a]) behind := by
  induction h with
  | stop c => exact .turn hread hlength (.stop behind)
  | turn hfirst hfewer _ ih => exact .turn hfirst hfewer (ih hread hlength)

theorem manyFrom_eq (h : Loops item c values last) (hstop : item.Refuses last) (budget : Nat)
    (hbudget : c.tokens.length < budget) (before : List α) (remembered : Option ReadFailure) :
    ∃ furthest, manyFrom item budget before remembered c =
      .success (before.reverse ++ values) last furthest := by
  induction h generalizing budget before remembered with
  | stop c =>
    obtain ⟨f, hf⟩ := hstop
    cases budget with
    | zero => cases hbudget
    | succ budget =>
      exact ⟨ReadFailure.latest? remembered (some f), by simp only [manyFrom, hf, List.append_nil]⟩
  | turn hread hlength _ ih =>
    cases budget with
    | zero => cases hbudget
    | succ budget =>
      rename_i a _ after _
      obtain ⟨furthest, hmany⟩ :=
        ih hstop budget (by omega) (a :: before) (ReadFailure.latest? remembered after)
      exact ⟨furthest, by simp only [manyFrom, hread, hmany, List.reverse_cons, List.append_assoc,
        List.cons_append, List.nil_append]⟩

theorem many_eq (h : Loops item c values last) (hstop : item.Refuses last) :
    ∃ furthest, many item c = .success values last furthest :=
  h.manyFrom_eq hstop _ (Nat.lt_succ_self _) [] none

end Loops

theorem Reads.many_nil {item : Parser α} (hc : c.kinds = rest) (h : item.Refuses c) :
    (many item).Reads c rest fun values => values = [] := by
  obtain ⟨furthest, hmany⟩ := (Loops.stop c).many_eq h
  exact ⟨[], c, furthest, hmany, hc, rfl⟩

/-! ### Chains -/

/-- An operand, then any number of items, each of which extends what was read before it. -/
def chain (lead : Parser α) (item : Parser β) (step : α → β → α) : Parser α := do
  let first ← lead
  let others ← many item
  return others.foldl step first

theorem chain_congr {lead lead' : Parser α} (h : lead c = lead' c) (item : Parser β)
    (step : α → β → α) : chain lead item step c = chain lead' item step c :=
  bind_congr h _

/-- A chain has come so far; whether it goes on is open. -/
def Arrives (lead : Parser α) (item : Parser β) (step : α → β → α) (c : Cursor)
    (rest : List TokenKind) (P : α → Prop) : Prop :=
  ∃ first others behind last furthest, lead c = .success first behind furthest ∧
    Loops item behind others last ∧ last.kinds = rest ∧ P (others.foldl step first)

namespace Arrives

variable {lead : Parser α} {item : Parser β} {step : α → β → α}

/-- The first operand. -/
theorem lead_only (h : lead.Reads c rest P) : Arrives lead item step c rest P := by
  obtain ⟨a, behind, furthest, hread, hrest, ha⟩ := h
  exact ⟨a, [], behind, behind, furthest, hread, .stop behind, hrest, ha⟩

/-- One more item. -/
theorem extend {mid : List TokenKind} {P' : α → Prop} (h : Arrives lead item step c mid P)
    (hitem : ∀ last : Cursor, last.kinds = mid → item.Reads last rest Q)
    (hlength : rest.length < mid.length) (hstep : ∀ a b, P a → Q b → P' (step a b)) :
    Arrives lead item step c rest P' := by
  obtain ⟨first, others, behind, last, furthest, hread, hloops, hmid, hfirst⟩ := h
  obtain ⟨b, after, furthest', hread', hrest, hb⟩ := hitem last hmid
  refine ⟨first, others ++ [b], behind, after, furthest, hread, hloops.snoc hread' ?_, hrest, ?_⟩
  · rw [← after.length_kinds, ← last.length_kinds, hrest, hmid]
    exact hlength
  · rw [List.foldl_append]
    exact hstep _ b hfirst hb

/-- **A chain ends where its item refuses.** -/
theorem reads (h : Arrives lead item step c rest P)
    (hstop : ∀ last : Cursor, last.kinds = rest → item.Refuses last) :
    (chain lead item step).Reads c rest P := by
  obtain ⟨first, others, behind, last, furthest, hread, hloops, hrest, hP⟩ := h
  obtain ⟨furthest', hmany⟩ := hloops.many_eq (hstop last hrest)
  have hfold : (do return (← many item).foldl step first : Parser α) behind =
      .success (others.foldl step first) last (ReadFailure.latest? furthest' none) :=
    bind_success hmany rfl
  exact ⟨others.foldl step first, last, _, bind_success hread hfold, hrest, hP⟩

end Arrives

/-! ### Lists -/

section

variable {ι : Type} {item : Parser α} {sep : Mark} {written : ι → List TokenKind}
  {meaning : ι → α → Prop} {ends : List TokenKind → Prop} {n : Nat}

/-- There is a token for every item. -/
theorem length_le_length_marked (sep : Mark) (written : ι → List TokenKind) (xs : List ι) :
    xs.length ≤ (xs.flatMap fun x => TokenKind.mark sep :: written x).length := by
  induction xs with
  | nil => exact Nat.zero_le _
  | cons x xs ih =>
    simp only [List.flatMap_cons, List.length_append, List.length_cons]
    omega

/-- Items behind marks; an item reads what is written for it if what follows may end an item. -/
theorem itemsFrom_eq (hsep : ∀ more, ends (.mark sep :: more)) (hrest : ends rest)
    (hstop : rest.head? ≠ some (.mark sep)) {xs : List ι}
    (hitem : ∀ x ∈ xs, ∀ (c : Cursor) (tail : List TokenKind), c.kinds.length < n →
      c.kinds = written x ++ tail → ends tail → item.Reads c tail (meaning x))
    {budget : Nat} (hbudget : xs.length ≤ budget)
    (hc : c.kinds = xs.flatMap (fun x => .mark sep :: written x) ++ rest) (hn : c.kinds.length ≤ n)
    (before : List α) (remembered : Option ReadFailure) :
    ∃ values last furthest ended, itemsFrom item (mark sep) budget before c remembered =
        (before.reverse ++ values, last, furthest, ended) ∧
      last.kinds = rest ∧ List.Forall₂ meaning xs values := by
  induction xs generalizing budget c before remembered with
  | nil =>
    obtain ⟨f, hf⟩ : (mark sep).Refuses c := .token (by rwa [hc])
    cases budget with
    | zero =>
      exact ⟨[], c, remembered, none, by simp only [itemsFrom, List.append_nil], hc, .nil⟩
    | succ budget =>
      exact ⟨[], c, remembered, some f, by simp only [itemsFrom, hf, List.append_nil], hc, .nil⟩
  | cons x xs ih =>
    cases budget with
    | zero => cases hbudget
    | succ budget =>
      rw [List.flatMap_cons, List.cons_append, List.cons_append, List.append_assoc] at hc
      obtain ⟨_, behind, after, hmark, hbehind, -⟩ := Reads.token hc
      have hbehindn : behind.kinds.length < n := by
        rw [hc, List.length_cons, ← hbehind] at hn
        exact hn
      have htail : ends (xs.flatMap (fun x => .mark sep :: written x) ++ rest) := by
        cases xs with
        | nil => exact hrest
        | cons y ys => exact hsep _
      obtain ⟨a, next, after', hread, hnext, ha⟩ :=
        hitem x List.mem_cons_self behind _ hbehindn hbehind htail
      have hnextn : next.kinds.length ≤ n := by
        rw [hbehind, List.length_append, ← hnext] at hbehindn
        omega
      obtain ⟨values, last, furthest, ended, heq, hlast, hvalues⟩ :=
        ih (fun y hy => hitem y (List.mem_cons_of_mem x hy)) (Nat.le_of_succ_le_succ hbudget) hnext hnextn
          (a :: before) (ReadFailure.latest? (ReadFailure.latest? remembered after) after')
      refine ⟨a :: values, last, furthest, ended, ?_, hlast, .cons ha hvalues⟩
      change mark sep c = _ at hmark
      simp only [itemsFrom, hmark, hread, heq, List.reverse_cons, List.append_assoc, List.cons_append,
        List.nil_append]

variable (hsep : ∀ more, ends (.mark sep :: more)) (hrest : ends rest)
  (hstop : rest.head? ≠ some (.mark sep)) {x : ι} {xs : List ι}
  (hitem : ∀ y ∈ x :: xs, ∀ (c : Cursor) (tail : List TokenKind), c.kinds.length < n →
    c.kinds = written y ++ tail → ends tail → item.Reads c tail (meaning y))
  (hc : c.kinds = written x ++ (xs.flatMap (fun x => .mark sep :: written x) ++ rest))
  (hn : c.kinds.length < n)
include hsep hrest hstop hitem hc hn

/-- The first item, and the items behind marks. -/
theorem exists_items : ∃ a next furthest, item c = .success a next furthest ∧
    ∃ values last furthest' ended, itemsFrom item (mark sep) (c.tokens.length + 1) [a] next furthest =
        (a :: values, last, furthest', ended) ∧
      last.kinds = rest ∧ List.Forall₂ meaning (x :: xs) (a :: values) := by
  have htail : ends (xs.flatMap (fun x => .mark sep :: written x) ++ rest) := by
    cases xs with
    | nil => exact hrest
    | cons y ys => exact hsep _
  obtain ⟨a, next, furthest, hread, hnext, ha⟩ := hitem x List.mem_cons_self c _ hn hc htail
  have hnextn : next.kinds.length ≤ n := by
    rw [hc, List.length_append, ← hnext] at hn
    omega
  have hbudget : xs.length ≤ c.tokens.length + 1 := by
    have hmarks := length_le_length_marked sep written xs
    rw [← c.length_kinds, hc]
    simp only [List.length_append]
    omega
  obtain ⟨values, last, furthest', ended, heq, hlast, hvalues⟩ := itemsFrom_eq hsep hrest hstop
    (fun y hy => hitem y (List.mem_cons_of_mem x hy)) hbudget hnext hnextn [a] furthest
  exact ⟨a, next, furthest, hread, values, last, furthest', ended, heq, hlast, .cons ha hvalues⟩

theorem reads_separated :
    (separated item (mark sep)).Reads c rest (List.Forall₂ meaning (x :: xs)) := by
  obtain ⟨a, next, furthest, hread, values, last, furthest', ended, heq, hlast, hvalues⟩ :=
    exists_items hsep hrest hstop hitem hc hn
  exact ⟨a :: values, last, ReadFailure.latest? furthest' ended,
    by simp only [separated, hread, heq], hlast, hvalues⟩

theorem reads_separatedTrailing :
    (separatedTrailing item (mark sep)).Reads c rest (List.Forall₂ meaning (x :: xs)) := by
  obtain ⟨a, next, furthest, hread, values, last, furthest', ended, heq, hlast, hvalues⟩ :=
    exists_items hsep hrest hstop hitem hc hn
  obtain ⟨f, hf⟩ : (mark sep).Refuses last := .token (by rwa [hlast])
  exact ⟨a :: values, last, ReadFailure.latest? (ReadFailure.latest? furthest' (some f)) ended,
    by simp only [separatedTrailing, hread, heq, hf], hlast, hvalues⟩

end

theorem reads_separatedTrailing_nil {item : Parser α} {sep : Mark} (hc : c.kinds = rest)
    (h : item.Refuses c) : (separatedTrailing item (mark sep)).Reads c rest fun values => values = [] := by
  obtain ⟨f, hf⟩ := h
  exact ⟨[], c, some f, by simp only [separatedTrailing, hf], hc, rfl⟩

end Parser
end JsonFilter.Filter
