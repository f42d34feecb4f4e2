import JsonFilter.Proofs.Filter.Precedence

/-!
# Reading printed primaries

What `Expr.print` writes for a primary or a suffix is read back, if the rules behind its first token read
what is printed for its parts.

## The hypotheses

The rules of the grammar refer to one another behind a token.  `Rules.Handles` says that those which a
rule refers to read every printed filter that is short enough, each at its place and where nothing that
follows would be taken.  `ArrivesPrinted` says that the rule of a filter's own level reads it and may go
on: the left operand of an operator stands at the same cursor as the whole, so it is no shorter.

* **`arrives_operand`**, **`reads_operand`** — a filter is read at its place, in parentheses or without.
* `reads_field`, `reads_index`, `reads_slice`, `reads_iterate` — the suffixes.
* `reads_guarded`, `reads_conditional`, `reads_reduction`, `reads_call`, `reads_array`, `reads_object` —
  the primaries that have parts.
-/

namespace JsonFilter.Filter

open JsonFilter.Filter.Rules (isConstant isString isKeyword fieldName_needs variableName_needs identifier_needs
  stringText_needs keywordName_needs)
open JsonFilter.Filter.Parser (Reads Needs mark keyword firstOf optional between bind_congr separated
  separatedTrailing)

namespace Expr

/-- The same filter, up to spans. -/
abbrev Same (e e' : Expr) : Prop := e'.eraseSpans = e.eraseSpans

theorem printAt_pipe (numberText : Binary64 → String) (e : Expr) :
    e.printAt numberText .pipe = e.print numberText := by
  rw [printAt, placed, if_pos (show Level.pipe ≤ e.level from Nat.zero_le _)]

end Expr

open JsonFilter.Filter.Expr (Same Regular printMaybe eraseMaybe eraseKey eraseEntries)

variable {numberText : Binary64 → String}

/-- A reading of printed filters at a place, of fewer tokens than `n` with all that follows. -/
def ReadsPrinted (numberText : Binary64 → String) (n : Nat) (p : Parser Expr) (place : Level) : Prop :=
  ∀ ⦃e : Expr⦄, e.Everywhere (Regular numberText) → ∀ ⦃c : Cursor⦄ ⦃rest : List TokenKind⦄,
    c.kinds = e.printAt numberText place ++ rest → (e.printAt numberText place ++ rest).length < n →
      Stops place rest → p.Reads c rest (Same e)

/-- **The rules that others refer to read printed filters** of fewer tokens than `n`. -/
structure Rules.Handles (numberText : Binary64 → String) (r : Rules) (n : Nat) : Prop where
  pipe : ReadsPrinted numberText n r.pipe .pipe
  alternative : ReadsPrinted numberText n r.alternative .alternative
  /-- The source of a reduction: a word that no handler starts with follows. -/
  attempt : ReadsPrinted numberText n r.postfixed .attempt
  /-- The body and the handler of a guarded filter. -/
  suffixed : ReadsPrinted numberText n r.postfixed .suffixed
  /-- A part that may be missing is missing where no filter starts. -/
  heads : r.pipe.Needs fun k => k == .keyword .defWord || Rules.operandHeads k

/-! ### Names -/

section

variable {c : Cursor} {rest : List TokenKind} {name : String}

theorem reads_fieldName (hc : c.kinds = .field name :: rest) :
    fieldName.Reads c rest fun name' => name' = name := .select hc rfl

theorem reads_stringText (hc : c.kinds = .string name :: rest) :
    stringText.Reads c rest fun name' => name' = name := .select hc rfl

theorem reads_identifier (hc : c.kinds = .identifier name :: rest) :
    identifier.Reads c rest fun name' => name' = name := .select hc rfl

theorem reads_variableName (hc : c.kinds = .variable name :: rest) :
    variableName.Reads c rest fun name' => name' = name := .select hc rfl

end

/-! ### Operands -/

section

variable {r : Rules} {n : Nat} (H : r.Handles numberText n) {c : Cursor} {rest : List TokenKind}
  {e : Expr}

include H

theorem Rules.Handles.reads_pipe (he : e.Everywhere (Regular numberText))
    (hc : c.kinds = e.print numberText ++ rest) (hn : (e.print numberText ++ rest).length < n)
    (hstop : Stops .pipe rest) : r.pipe.Reads c rest (Same e) := by
  rw [← e.printAt_pipe numberText] at hc hn
  exact H.pipe he hc hn hstop

/-- A filter between parentheses is a primary. -/
theorem reads_parenthesized (he : e.Everywhere (Regular numberText)) (hn : c.kinds.length ≤ n)
    (hc : c.kinds = .mark .leftParen :: (e.print numberText ++ .mark .rightParen :: rest)) :
    (primary r).Reads c rest (Same e) := by
  rw [hc] at hn
  refine Rules.reads_primary r hc 10 rfl rfl (.between hc fun behind hbehind => ?_)
  exact H.reads_pipe he hbehind hn (.cons rfl _)

/-- The rule of its own level reads the filter, and may go on. -/
def ArrivesPrinted (numberText : Binary64 → String) (r : Rules) (n : Nat) (e : Expr) : Prop :=
  ∀ (c : Cursor) (rest : List TokenKind), c.kinds.length ≤ n → c.kinds = e.print numberText ++ rest →
    Stops e.level.inner rest → r.arrives e.level c rest (Same e)

/-- **An operand at its place** is read there, and the rule may go on. -/
theorem arrives_operand (he : e.Everywhere (Regular numberText)) (hown : ArrivesPrinted numberText r n e)
    {place : Level} (hn : c.kinds.length ≤ n) (hc : c.kinds = e.printAt numberText place ++ rest)
    (hstop : Stops place.inner rest) : r.arrives place c rest (Same e) := by
  have hnext : Stops place.next rest := hstop.mono place.inner_le_next
  by_cases hle : place ≤ e.level
  · rw [Expr.printAt, placed, if_pos hle] at hc
    by_cases heq : place = e.level
    · subst heq
      exact hown c rest hn hc hstop
    · -- A tighter filter is a start at the place.
      have hlt : place < e.level := Nat.lt_of_le_of_ne hle fun h => heq (Level.rank_injective h)
      have hle' : place.next ≤ e.level := by
        change place.next.rank ≤ e.level.rank
        rw [Level.rank_next hlt]
        exact hlt
      have hown' := hown c rest hn hc (hnext.mono (Nat.le_trans hle' e.level.le_inner))
      exact Rules.enter (Rules.widen hle' (Rules.close hown' (hnext.mono hle')) hnext) hstop
  · rw [Expr.printAt, placed, if_neg hle, List.cons_append, List.append_assoc] at hc
    have hprimary : (r.rule .primary).Reads c rest (Same e) := reads_parenthesized H he hn hc
    exact Rules.enter (Rules.widen place.next.le_primary hprimary hnext) hstop

theorem reads_operand (he : e.Everywhere (Regular numberText)) (hown : ArrivesPrinted numberText r n e)
    {place : Level} (hn : c.kinds.length ≤ n) (hc : c.kinds = e.printAt numberText place ++ rest)
    (hstop : Stops place rest) : (r.rule place).Reads c rest (Same e) :=
  Rules.close (arrives_operand H he hown hn hc (hstop.mono place.le_inner)) hstop

/-! ### Parts that may be missing -/

/-- A filter that may be missing, before a token that starts none. -/
theorem reads_maybe {o : Option Expr} (ho : ∀ e ∈ o, e.Everywhere (Regular numberText))
    {k : TokenKind} (hc : c.kinds = printMaybe numberText o ++ k :: rest)
    (hn : (printMaybe numberText o ++ k :: rest).length < n) (hjoins : k.joins = none)
    (hhead : (k == .keyword .defWord || Rules.operandHeads k) = false) :
    (optional r.pipe).Reads c (k :: rest) fun o' => eraseMaybe o' = eraseMaybe o := by
  cases o with
  | none =>
    refine (Reads.optional_none hc (H.heads.refuses hc hhead)).imp fun o' ho' => ?_
    rw [ho']
  | some e =>
    have hstop : Stops .pipe (k :: rest) := .cons (by rw [hjoins]; rfl) rest
    refine (Reads.optional_some (H.reads_pipe (ho e rfl) hc hn hstop)).imp fun o' ho' => ?_
    obtain ⟨e', rfl, he'⟩ := ho'
    exact congrArg some he'

/-! ### Suffixes -/

omit H in
theorem between_congr {α : Type} {left right : Mark} {p q : Parser α} {u : Unit} {behind : Cursor}
    {furthest : Option ReadFailure} (hleft : mark left c = .success u behind furthest)
    (h : p behind = q behind) : between left p right c = between left q right c := by
  change Parser.bind _ _ c = Parser.bind _ _ c
  simp only [Parser.bind, hleft]
  rw [bind_congr h]

omit H in
/-- What stands between the brackets is read as if each kind of suffix started over. -/
theorem bracketSuffix_eq (pipe : Parser Expr) {mid : List TokenKind}
    (hc : c.kinds = .mark .leftBracket :: mid) : bracketSuffix pipe c = bracketed pipe pipe c := by
  obtain ⟨u, behind, furthest, hleft, -, -⟩ := Reads.token hc
  change mark .leftBracket c = _ at hleft
  let lead : Parser Expr := fun _ => pipe behind
  have hslice : between .leftBracket (do
        let start ← optional lead
        mark .colon
        let stop ← optional pipe
        return Suffix.slice start stop) .rightBracket c =
      between .leftBracket (do
        let start ← optional pipe
        mark .colon
        let stop ← optional pipe
        return Suffix.slice start stop) .rightBracket c :=
    between_congr hleft (bind_congr rfl _)
  have hindex : between .leftBracket (do return Suffix.index (← lead)) .rightBracket c =
      between .leftBracket (do return Suffix.index (← pipe)) .rightBracket c :=
    between_congr hleft (bind_congr rfl _)
  have hread : bracketSuffix pipe c = bracketed lead pipe c := by
    simp only [bracketSuffix, hleft]
    rfl
  rw [hread]
  simp only [bracketed, firstOf, Parser.firstOfFrom, hslice, hindex]

omit H in
theorem reads_field {name : String} (hc : c.kinds = fieldTokens name ++ rest) :
    (suffix r.pipe).Reads c rest fun s => s = .field name := by
  unfold fieldTokens at hc
  split at hc
  · refine .firstOf (.here ((reads_fieldName hc).bind fun name' _ hbehind hname => ?_))
    exact .pure hbehind (congrArg Suffix.field hname)
  · have hfield : (do return Suffix.field (← fieldName) : Parser Suffix).Refuses c :=
      (fieldName_needs.bind _).refuses hc rfl
    refine .firstOf (.later hfield (.here ((Reads.token hc).bind fun _ behind hbehind _ => ?_)))
    refine (reads_stringText hbehind).bind fun name' _ hlast hname => ?_
    exact .pure hlast (congrArg Suffix.field hname)

omit H in
/-- A suffix between brackets is one of the kinds that stand there. -/
theorem reads_bracketed {P : Suffix → Prop} {mid : List TokenKind}
    (hc : c.kinds = .mark .leftBracket :: mid) (h : (bracketed r.pipe r.pipe).Reads c rest P) :
    (suffix r.pipe).Reads c rest P := by
  have hfield : (do return Suffix.field (← fieldName) : Parser Suffix).Refuses c :=
    (fieldName_needs.bind _).refuses hc rfl
  have hstring : (do
      mark .dot
      return Suffix.field (← stringText) : Parser Suffix).Refuses c :=
    ((Needs.token _).bind _).refuses hc rfl
  refine .firstOf (.later hfield (.later hstring (.here ?_)))
  obtain ⟨s, last, furthest, hread, hrest, hs⟩ := h
  exact ⟨s, last, furthest, (bracketSuffix_eq r.pipe hc).trans hread, hrest, hs⟩

omit H in
theorem reads_iterate (hc : c.kinds = .mark .leftBracket :: .mark .rightBracket :: rest) :
    (suffix r.pipe).Reads c rest fun s => s = .iterate := by
  refine reads_bracketed hc (.firstOf (.here ((Reads.token hc).bind fun _ behind hbehind _ => ?_)))
  exact (Reads.token hbehind).bind fun _ last hlast _ => .pure hlast rfl

omit H in
/-- Brackets with something between them are not empty. -/
theorem refuses_iterate {mid : List TokenKind} (hc : c.kinds = .mark .leftBracket :: mid)
    (hmid : ∀ behind : Cursor, behind.kinds = mid → behind.kinds.head? ≠ some (.mark .rightBracket)) :
    (do
      mark .leftBracket
      mark .rightBracket
      return Suffix.iterate : Parser Suffix).Refuses c :=
  .behind (Reads.token hc) fun _ behind hbehind _ => .bind (.token (hmid behind hbehind))

theorem pipe_refuses_bracket (hhead : c.kinds.head? = some (.mark .rightBracket)) : r.pipe.Refuses c :=
  H.heads c fun k hk => by
    rw [hhead] at hk
    cases hk
    rfl

theorem reads_index {i : Expr} (hi : i.Everywhere (Regular numberText)) (hn : c.kinds.length ≤ n)
    (hc : c.kinds = .mark .leftBracket :: (i.print numberText ++ .mark .rightBracket :: rest)) :
    (suffix r.pipe).Reads c rest fun s => ∃ i', s = .index i' ∧ Same i i' := by
  have hpipe (behind : Cursor)
      (hbehind : behind.kinds = i.print numberText ++ .mark .rightBracket :: rest) :
      r.pipe.Reads behind (.mark .rightBracket :: rest) (Same i) := by
    rw [hc] at hn
    exact H.reads_pipe hi hbehind hn (.cons rfl rest)
  have hiterate := refuses_iterate hc fun behind hbehind hhead =>
    (hpipe behind hbehind).not_refuses (pipe_refuses_bracket H hhead)
  have hslice : (between .leftBracket (do
      let start ← optional r.pipe
      mark .colon
      let stop ← optional r.pipe
      return Suffix.slice start stop) .rightBracket).Refuses c := by
    refine .behind (Reads.token hc) fun _ behind hbehind _ => .bind ?_
    refine .behind (Reads.optional_some (hpipe behind hbehind)) fun _ last hlast _ => .bind (.token ?_)
    rw [hlast]
    simp
  refine reads_bracketed hc (.firstOf (.later hiterate (.later hslice (.here ?_))))
  refine .between hc fun behind hbehind => (hpipe behind hbehind).bind fun i' last hlast hi' => ?_
  exact .pure hlast ⟨i', rfl, hi'⟩

theorem reads_slice {start stop : Option Expr} (hstart : ∀ e ∈ start, e.Everywhere (Regular numberText))
    (hstop : ∀ e ∈ stop, e.Everywhere (Regular numberText)) (hn : c.kinds.length ≤ n)
    (hc : c.kinds = .mark .leftBracket :: (printMaybe numberText start ++
      .mark .colon :: (printMaybe numberText stop ++ .mark .rightBracket :: rest))) :
    (suffix r.pipe).Reads c rest fun s => ∃ start' stop', s = .slice start' stop' ∧
      eraseMaybe start' = eraseMaybe start ∧ eraseMaybe stop' = eraseMaybe stop := by
  have hlength := hn
  rw [hc] at hlength
  simp only [List.length_append, List.length_cons] at hlength
  have hstart' (behind : Cursor) (hbehind : behind.kinds = printMaybe numberText start ++
      .mark .colon :: (printMaybe numberText stop ++ .mark .rightBracket :: rest)) :
      (optional r.pipe).Reads behind (.mark .colon :: (printMaybe numberText stop ++
        .mark .rightBracket :: rest)) fun o => eraseMaybe o = eraseMaybe start := by
    rw [hc] at hn
    exact reads_maybe H hstart hbehind hn rfl rfl
  have hiterate := refuses_iterate hc fun behind hbehind hhead => by
    have hnone := Reads.optional_none rfl (pipe_refuses_bracket H hhead)
    rw [← (hstart' behind hbehind).rest_unique hnone] at hhead
    cases hhead
  refine reads_bracketed hc (.firstOf (.later hiterate (.here (.between hc fun behind hbehind => ?_))))
  refine (hstart' behind hbehind).bind fun start' last hlast hs => (Reads.token hlast).bind
    fun _ next hnext _ => ?_
  have hstop' : (optional r.pipe).Reads next (.mark .rightBracket :: rest)
      fun o => eraseMaybe o = eraseMaybe stop := by
    refine reads_maybe H hstop hnext ?_ rfl rfl
    simp only [List.length_append, List.length_cons]
    omega
  exact hstop'.bind fun stop' after hafter hs' => .pure hafter ⟨start', stop', rfl, hs, hs'⟩

/-! ### Primaries without parts -/

omit H in
theorem reads_identity (hc : c.kinds = .mark .dot :: rest) (hstop : Stops .primary rest) :
    (primary r).Reads c rest (Same .identity) := by
  have hmember : (do
      mark .dot
      return Expr.field .identity (← stringText) : Parser Expr).Refuses c := by
    refine .behind (Reads.token hc) fun _ behind hbehind _ => .bind (stringText_needs behind fun k hk => ?_)
    rw [hbehind] at hk
    cases k with
    | string value => exact absurd hk (hstop.head_ne rfl (Nat.le_refl _))
    | _ => rfl
  have hname : (do return Expr.field .identity (← fieldName) : Parser Expr).Refuses c :=
    (fieldName_needs.bind _).refuses hc rfl
  have hdots : (do
      mark .doubleDot
      return Expr.recurseAll : Parser Expr).Refuses c :=
    ((Needs.token _).bind _).refuses hc rfl
  refine .firstOf (.later hmember (.later hname (.later hdots (.here ?_))))
  exact (Reads.token hc).bind fun _ _ hbehind _ => .pure hbehind rfl

omit H in
theorem reads_recurseAll (hc : c.kinds = .mark .doubleDot :: rest) :
    (primary r).Reads c rest (Same .recurseAll) :=
  Rules.reads_primary r hc 2 rfl rfl ((Reads.token hc).bind fun _ _ hbehind _ => .pure hbehind rfl)

omit H in
theorem reads_leading_field {name : String} (hc : c.kinds = fieldTokens name ++ rest) :
    (primary r).Reads c rest (Same (.field .identity name)) := by
  unfold fieldTokens at hc
  split at hc
  · refine Rules.reads_primary r hc 1 rfl rfl ((reads_fieldName hc).bind fun name' _ hbehind hname => ?_)
    exact .pure hbehind (hname ▸ rfl)
  · refine .firstOf (.here ((Reads.token hc).bind fun _ behind hbehind _ => ?_))
    exact (reads_stringText hbehind).bind fun name' _ hlast hname => .pure hlast (hname ▸ rfl)

omit H in
/-- A constant that is written without a sign. -/
theorem reads_constant {value : Literal} {k : TokenKind} (hc : c.kinds = k :: rest)
    (hk : isConstant k = true)
    (hvalue : literal.Reads c rest fun e => e = .literal value) :
    (primary r).Reads c rest fun e => e = .literal value := by
  have hbefore : (Rules.primaryHeads.take 4).any (· k) = false := by
    cases k with
    | keyword | number | string => rfl
    | _ => cases hk
  exact Rules.reads_primary r hc 4 hbefore rfl hvalue

omit H in
theorem reads_number {x : Binary64} (hx : Binary64.ofText? (numberText x) = some x)
    (hc : c.kinds = .number (numberText x) :: rest) :
    (primary r).Reads c rest fun e => e = .literal (.number x) := by
  refine reads_constant hc rfl (Reads.select hc ?_)
  simp only [hx, Option.getD_some]

omit H in
theorem reads_variable {name : String} {span : Span} (hc : c.kinds = .variable name :: rest) :
    (primary r).Reads c rest (Same (.variable name span)) := by
  refine Rules.reads_primary r hc 5 rfl rfl (.withSpan ?_)
  refine (reads_variableName hc).bind fun name' _ hbehind hname => .pure hbehind fun span' => ?_
  subst hname
  rfl

/-! ### Primaries with parts

The parts of a primary stand behind a token, and the rules that read them are those that it refers to. -/

theorem reads_array {body : Option Expr} (hbody : ∀ e ∈ body, e.Everywhere (Regular numberText))
    (hn : c.kinds.length ≤ n)
    (hc : c.kinds = .mark .leftBracket :: (printMaybe numberText body ++ .mark .rightBracket :: rest)) :
    (primary r).Reads c rest (Same (.array body)) := by
  have hbrackets : (between .leftBracket (optional r.pipe) .rightBracket).Reads c rest
      fun o => eraseMaybe o = eraseMaybe body := by
    rw [hc] at hn
    exact .between hc fun behind hbehind => reads_maybe H hbody hbehind hn rfl rfl
  refine Rules.reads_primary r hc 11 rfl rfl (hbrackets.bind fun body' _ hbehind hbody' => ?_)
  exact .pure hbehind (congrArg Expr.array hbody')

/-- The branch for a false condition. -/
theorem reads_branch {no : Option Expr} (hno : ∀ e ∈ no, e.Everywhere (Regular numberText))
    (hc : c.kinds = Expr.printBranch numberText no ++ .keyword .endWord :: rest)
    (hn : (Expr.printBranch numberText no ++ .keyword .endWord :: rest).length ≤ n) :
    (optional do
      keyword .elseWord
      r.pipe).Reads c (.keyword .endWord :: rest) fun o => eraseMaybe o = eraseMaybe no := by
  cases no with
  | none =>
    have helse : (keyword .elseWord).Refuses c := .token (by simp [hc, Expr.printBranch])
    refine (Reads.optional_none hc (.bind helse)).imp fun o ho => ?_
    rw [ho]
  | some e =>
    rw [Expr.printBranch, List.cons_append] at hc hn
    refine (Reads.optional_some ((Reads.token hc).bind fun _ behind hbehind _ =>
      H.reads_pipe (hno e rfl) hbehind hn (.cons rfl _))).imp fun o ho => ?_
    obtain ⟨e', rfl, he'⟩ := ho
    exact congrArg some he'

theorem reads_conditional {test yes : Expr} {no : Option Expr}
    (htest : test.Everywhere (Regular numberText)) (hyes : yes.Everywhere (Regular numberText))
    (hno : ∀ e ∈ no, e.Everywhere (Regular numberText)) (hn : c.kinds.length ≤ n)
    (hc : c.kinds = .keyword .ifWord :: (test.print numberText ++
      .keyword .thenWord :: (yes.print numberText ++ (Expr.printBranch numberText no ++
        .keyword .endWord :: rest)))) :
    (primary r).Reads c rest (Same (.cond test yes no)) := by
  have hlength := hn
  rw [hc] at hlength
  simp only [List.length_append, List.length_cons] at hlength
  have hstop : Stops .pipe (Expr.printBranch numberText no ++ .keyword .endWord :: rest) := by
    cases no with
    | none => exact .cons rfl _
    | some e => exact .cons rfl _
  refine Rules.reads_primary r hc 6 rfl rfl ((Reads.token hc).bind fun _ c₁ h₁ _ => ?_)
  refine (H.reads_pipe htest h₁ ?_ (.cons rfl _)).bind fun test' c₂ h₂ htest' => ?_
  · simp only [List.length_append, List.length_cons]
    omega
  refine (Reads.token h₂).bind fun _ c₃ h₃ _ => ?_
  refine (H.reads_pipe hyes h₃ ?_ hstop).bind fun yes' c₄ h₄ hyes' => ?_
  · simp only [List.length_append, List.length_cons]
    omega
  have helif : (keyword .elifWord).Refuses c₄ := .token (by
    rw [h₄]
    cases no <;> simp [Expr.printBranch])
  refine (Reads.many_nil h₄ (.bind helif)).bind fun further c₅ h₅ hfurther => ?_
  subst hfurther
  refine (reads_branch H hno h₅ ?_).bind fun no' c₆ h₆ hno' =>
    (Reads.token h₆).bind fun _ c₇ h₇ _ => .pure h₇ ?_
  · simp only [List.length_append, List.length_cons]
    omega
  · simp only [List.foldr_nil, Same, Expr.eraseSpans, htest', hyes', hno']

/-- A guarded filter may be followed by nothing that its parts would take. -/
theorem reads_guarded {body : Expr} {handler : Option Expr}
    (hbody : body.Everywhere (Regular numberText))
    (hhandler : ∀ e ∈ handler, e.Everywhere (Regular numberText)) (hn : c.kinds.length ≤ n)
    (hc : c.kinds = .keyword .tryWord :: (body.printAt numberText .suffixed ++
      (Expr.printHandler numberText handler ++ rest))) (hstop : Stops .attempt rest) :
    (primary r).Reads c rest (Same (.attempt body handler)) := by
  have hlength := hn
  rw [hc, List.length_cons] at hlength
  have hbehind : Stops .suffixed (Expr.printHandler numberText handler ++ rest) := by
    cases handler with
    | none => exact hstop.mono (by decide)
    | some e => exact .cons rfl _
  refine Rules.reads_primary r hc 7 rfl rfl ((Reads.token hc).bind fun _ c₁ h₁ _ => ?_)
  refine (H.suffixed hbody h₁ hlength hbehind).bind fun body' c₂ h₂ hbody' => ?_
  have hcatch : (optional do
      keyword .catchWord
      r.postfixed).Reads c₂ rest fun o => eraseMaybe o = eraseMaybe handler := by
    cases handler with
    | none =>
      have hkeyword : (keyword .catchWord).Refuses c₂ :=
        .token (h₂ ▸ hstop.head_ne rfl (Nat.le_refl _))
      refine (Reads.optional_none h₂ (.bind hkeyword)).imp fun o ho => ?_
      rw [ho]
    | some e =>
      simp only [Expr.printHandler, List.cons_append, List.length_append, List.length_cons] at h₂ hlength
      refine (Reads.optional_some ((Reads.token h₂).bind fun _ c₃ h₃ _ =>
        H.suffixed (hhandler e rfl) h₃ ?_ (hstop.mono (by decide)))).imp fun o ho => ?_
      · simp only [Expr.printAt, List.length_append]
        omega
      · obtain ⟨e', rfl, he'⟩ := ho
        exact congrArg some he'
  refine hcatch.bind fun handler' c₃ h₃ hhandler' => .pure h₃ ?_
  simp only [Same, Expr.eraseSpans, hbody', hhandler']

theorem reads_reduction {source init update : Expr} {var : String}
    (hsource : source.Everywhere (Regular numberText)) (hinit : init.Everywhere (Regular numberText))
    (hupdate : update.Everywhere (Regular numberText)) (hn : c.kinds.length ≤ n)
    (hc : c.kinds = .keyword .reduceWord :: (source.printAt numberText .attempt ++
      .keyword .asWord :: .variable var :: .mark .leftParen :: (init.print numberText ++
        .mark .semicolon :: (update.print numberText ++ .mark .rightParen :: rest)))) :
    (primary r).Reads c rest (Same (.reduce source var init update)) := by
  have hlength := hn
  rw [hc] at hlength
  simp only [List.length_append, List.length_cons] at hlength
  refine Rules.reads_primary r hc 8 rfl rfl ((Reads.token hc).bind fun _ c₁ h₁ _ => ?_)
  refine (H.attempt hsource h₁ ?_ (.cons rfl _)).bind fun source' c₂ h₂ hsource' => ?_
  · simp only [List.length_append, List.length_cons]
    omega
  refine (Reads.token h₂).bind fun _ c₃ h₃ _ => (reads_variableName h₃).bind fun var' c₄ h₄ hvar => ?_
  refine (Reads.token h₄).bind fun _ c₅ h₅ _ => ?_
  refine (H.reads_pipe hinit h₅ ?_ (.cons rfl _)).bind fun init' c₆ h₆ hinit' => ?_
  · simp only [List.length_append, List.length_cons]
    omega
  refine (Reads.token h₆).bind fun _ c₇ h₇ _ => ?_
  refine (H.reads_pipe hupdate h₇ ?_ (.cons rfl _)).bind fun update' c₈ h₈ hupdate' => ?_
  · simp only [List.length_append, List.length_cons]
    omega
  refine (Reads.token h₈).bind fun _ c₉ h₉ _ => .pure h₉ ?_
  simp only [Same, Expr.eraseSpans, hsource', hvar, hinit', hupdate']

/-! ### Calls -/

omit H in
theorem printOthers_eq (others : List Expr) : Expr.printOthers numberText others =
    others.flatMap fun e => .mark .semicolon :: e.print numberText := by
  induction others with
  | nil => rfl
  | cons e others ih => rw [Expr.printOthers, ih, List.flatMap_cons, List.cons_append]

omit H in
theorem eraseAll_of_forall₂ {args args' : List Expr} (h : List.Forall₂ Same args args') :
    Expr.eraseAll args' = Expr.eraseAll args := by
  induction h with
  | nil => rfl
  | cons he _ ih => simp only [Expr.eraseAll, he, ih]

theorem reads_args {others : List Expr} (hargs : ∀ x ∈ e :: others, x.Everywhere (Regular numberText))
    (hc : c.kinds = .mark .leftParen :: (e.print numberText ++
      (others.flatMap (fun x => .mark .semicolon :: x.print numberText) ++ .mark .rightParen :: rest)))
    (hn : c.kinds.length ≤ n) :
    (between .leftParen (separated r.pipe (mark .semicolon)) .rightParen).Reads c rest
      (List.Forall₂ Same (e :: others)) := by
  rw [hc] at hn
  refine .between hc fun behind hbehind => ?_
  have hitem : ∀ x ∈ e :: others, ∀ (c : Cursor) (tail : List TokenKind), c.kinds.length < n →
      c.kinds = x.print numberText ++ tail → Stops .pipe tail → r.pipe.Reads c tail (Same x) :=
    fun x hx c tail hn hc hstop => H.reads_pipe (hargs x hx) hc (hc ▸ hn) hstop
  exact Parser.reads_separated (fun _ => .cons rfl _) (.cons rfl _) (by simp) hitem hbehind
    (hbehind ▸ hn)

theorem reads_call {name : String} {args : List Expr} {span : Span}
    (hargs : ∀ e ∈ args, e.Everywhere (Regular numberText)) (hn : c.kinds.length ≤ n)
    (hc : c.kinds = .identifier name :: (Expr.printArgs numberText args ++ rest))
    (hstop : Stops .primary rest) : (primary r).Reads c rest (Same (.call name args span)) := by
  have hlength := hn
  rw [hc, List.length_cons] at hlength
  refine Rules.reads_primary r hc 9 rfl rfl (.withSpan ?_)
  refine (reads_identifier hc).bind fun name' c₁ h₁ hname => ?_
  have hlist : (optional (between .leftParen (separated r.pipe (mark .semicolon)) .rightParen)).Reads c₁ rest
      fun o => Expr.eraseAll (o.getD []) = Expr.eraseAll args := by
    cases args with
    | nil =>
      have hparen : (mark .leftParen).Refuses c₁ := .token (h₁ ▸ hstop.head_ne rfl (Nat.le_refl _))
      refine (Reads.optional_none h₁ (.bind hparen)).imp fun o ho => ?_
      rw [ho]
      rfl
    | cons e others =>
      rw [← h₁] at hlength
      simp only [Expr.printArgs, List.cons_append, List.append_assoc, List.nil_append,
        printOthers_eq] at h₁
      refine (Reads.optional_some (reads_args H hargs h₁ (Nat.le_of_succ_le hlength))).imp fun o ho => ?_
      obtain ⟨args', rfl, hargs'⟩ := ho
      exact eraseAll_of_forall₂ hargs'
  refine hlist.bind fun args' c₂ h₂ hargs' => .pure h₂ fun span' => ?_
  simp only [Same, Expr.eraseSpans, hname, hargs']

/-! ### Objects -/

omit H in
/-- The tokens that a key starts with, in the order in which the kinds of keys are tried. -/
def keyHeads : List (TokenKind → Bool) :=
  [Rules.isVariable, Rules.isIdentifier, isKeyword, isString, (· == .mark .leftParen)]

omit H in
/-- The kinds of keys. -/
def keys (pipe : Parser Expr) : List (Parser (ObjectKey Expr)) := [
  Parser.withSpan do return .variable (← variableName),
  do return .static (← identifier),
  do return .static (← keywordName),
  do return .static (← stringText),
  do return .computed (← between .leftParen pipe .rightParen)]

omit H in
theorem keys_need (pipe : Parser Expr) : List.Forall₂ Needs (keys pipe) keyHeads :=
  .cons (.withSpan (variableName_needs.bind _)) (.cons (identifier_needs.bind _)
    (.cons (keywordName_needs.bind _) (.cons (stringText_needs.bind _)
      (.cons (.bind (.bind (.token _) _) _) .nil))))

omit H in
theorem objectKey_needs (pipe : Parser Expr) : (objectKey pipe).Needs fun k => keyHeads.any (· k) :=
  .firstOf (keys_need pipe)

omit H in
/-- A name that is a reserved word is read as one, any other as a name. -/
theorem reads_static {name : String} (hc : c.kinds = keyToken name :: rest) :
    (objectKey r.pipe).Reads c rest fun key => key = .static name := by
  have hpick {k : TokenKind} (hc : c.kinds = k :: rest) (i : Nat)
      (hbefore : (keyHeads.take i).any (· k) = false) {p : Parser (ObjectKey Expr)}
      (hi : (keys r.pipe)[i]? = some p) (hp : p.Reads c rest fun key => key = .static name) :
      (objectKey r.pipe).Reads c rest fun key => key = .static name :=
    .firstOf (.ofHeads (keys_need r.pipe) hc i hbefore hi hp)
  unfold keyToken at hc
  split at hc
  · unfold TokenKind.ofWord at hc
    cases hword : Keyword.ofText? name with
    | some w =>
      simp only [hword] at hc
      have htext : w.text = name := by simpa using List.find?_some hword
      have hkeyword : keywordName.Reads c rest fun text => text = w.text := .select hc rfl
      refine hpick hc 2 rfl rfl (hkeyword.bind fun text _ hbehind hw => .pure hbehind ?_)
      rw [hw, htext]
    | none =>
      simp only [hword] at hc
      refine hpick hc 1 rfl rfl ((reads_identifier hc).bind fun name' _ hbehind hname => ?_)
      exact .pure hbehind (congrArg ObjectKey.static hname)
  · refine hpick hc 3 rfl rfl ((reads_stringText hc).bind fun name' _ hbehind hname => ?_)
    exact .pure hbehind (congrArg ObjectKey.static hname)

theorem reads_key {key : ObjectKey Expr} (hkey : ∀ e ∈ key.filter?, e.Everywhere (Regular numberText))
    (hc : c.kinds = Expr.printKey numberText key ++ rest)
    (hn : (Expr.printKey numberText key ++ rest).length ≤ n) :
    (objectKey r.pipe).Reads c rest fun key' => eraseKey key' = eraseKey key := by
  cases key with
  | static name => exact (reads_static hc).imp fun key' hkey' => by rw [hkey']
  | «variable» name span =>
    refine .firstOf (.here (.withSpan ((reads_variableName hc).bind fun name' _ hbehind hname => ?_)))
    exact .pure hbehind fun span' => by simp only [eraseKey, hname]
  | computed e =>
    simp only [Expr.printKey, List.cons_append, List.append_assoc, List.nil_append] at hc hn
    have hparens : (between .leftParen r.pipe .rightParen).Reads c rest (Same e) :=
      .between hc fun behind hbehind => H.reads_pipe (hkey e rfl) hbehind hn (.cons rfl rest)
    refine .firstOf (.ofHeads (keys_need r.pipe) hc 4 rfl rfl (hparens.bind fun e' _ hbehind he' => ?_))
    exact .pure hbehind (congrArg ObjectKey.computed he')

omit H in
/-- Whether a value is lacking does not depend on spans. -/
theorem lacksValue_of_erase {entry entry' : ObjectEntry} (hkey : eraseKey entry'.1 = eraseKey entry.1)
    (hvalue : eraseMaybe entry'.2 = eraseMaybe entry.2) : lacksValue entry' = lacksValue entry := by
  obtain ⟨key, value⟩ := entry
  obtain ⟨key', value'⟩ := entry'
  cases key <;> cases key' <;> cases value <;> cases value' <;> first | rfl | cases hkey | cases hvalue

/-- What ends an entry: a comma or the brace that closes the object. -/
def EndsEntry (kinds : List TokenKind) : Prop :=
  ∃ more, kinds = .mark .comma :: more ∨ kinds = .mark .rightBrace :: more

/-- The value of an entry, up to what ends the entry. -/
theorem reads_value {value : Option Expr} (hvalue : ∀ e ∈ value, e.Everywhere (Regular numberText))
    (hc : c.kinds = Expr.printValue numberText value ++ rest)
    (hn : (Expr.printValue numberText value ++ rest).length ≤ n) (hends : EndsEntry rest) :
    (optional do
      mark .colon
      objectValue r.alternative).Reads c rest fun value' => eraseMaybe value' = eraseMaybe value := by
  have hstop : Stops .alternative rest := by
    obtain ⟨more, rfl | rfl⟩ := hends
    · exact .cons rfl _
    · exact .cons rfl _
  have hhead {m : Mark} (hcomma : m ≠ .comma) (hbrace : m ≠ .rightBrace) :
      rest.head? ≠ some (.mark m) := by
    obtain ⟨more, rfl | rfl⟩ := hends <;> simp [hcomma.symm, hbrace.symm]
  cases value with
  | none =>
    have hcolon : (mark .colon).Refuses c := .token (hc ▸ hhead (by decide) (by decide))
    refine (Reads.optional_none hc (.bind hcolon)).imp fun value' hvalue' => ?_
    rw [hvalue']
  | some e =>
    simp only [Expr.printValue, List.cons_append] at hc hn
    -- An alternative with no pipe behind it is a whole value.
    have hvalue' (behind : Cursor) (hbehind : behind.kinds = e.printAt numberText .alternative ++ rest) :
        (objectValue r.alternative).Reads behind rest (Same e) := by
      refine (H.alternative (hvalue e rfl) hbehind hn hstop).bind fun first last hlast hfirst => ?_
      have hpipe : (mark .pipe).Refuses last := .token (hlast ▸ hhead (by decide) (by decide))
      refine (Reads.many_nil hlast (.bind hpipe)).bind fun others after hafter hothers => ?_
      subst hothers
      exact .pure hafter hfirst
    refine (Reads.optional_some ((Reads.token hc).bind fun _ behind hbehind _ =>
      hvalue' behind hbehind)).imp fun value' hvalue' => ?_
    obtain ⟨e', rfl, he'⟩ := hvalue'
    exact congrArg some he'

/-- The tokens of an entry. -/
def printEntry (numberText : Binary64 → String) (entry : ObjectEntry) : List TokenKind :=
  Expr.printKey numberText entry.1 ++ Expr.printValue numberText entry.2

/-- The same entry, up to spans. -/
def SameEntry (entry entry' : ObjectEntry) : Prop :=
  eraseKey entry'.1 = eraseKey entry.1 ∧ eraseMaybe entry'.2 = eraseMaybe entry.2

theorem reads_entry {entry : ObjectEntry}
    (hparts : ∀ e ∈ Expr.entryParts entry, e.Everywhere (Regular numberText))
    (hlacks : lacksValue entry = false) (hc : c.kinds = printEntry numberText entry ++ rest)
    (hn : c.kinds.length ≤ n) (hends : EndsEntry rest) :
    (objectEntry r.pipe r.alternative).Reads c rest (SameEntry entry) := by
  rw [hc] at hn
  rw [printEntry, List.append_assoc] at hc hn
  have hkey : ∀ e ∈ entry.1.filter?, e.Everywhere (Regular numberText) :=
    fun e he => hparts e (List.mem_append_left _ (Option.mem_toList.2 he))
  have hvalue : ∀ e ∈ entry.2, e.Everywhere (Regular numberText) :=
    fun e he => hparts e (List.mem_append_right _ (Option.mem_toList.2 he))
  refine .ensure ((reads_key H hkey hc hn).bind fun key' behind hbehind hkey' => ?_)
  have hvaluen : (Expr.printValue numberText entry.2 ++ rest).length ≤ n := by
    rw [List.length_append] at hn
    omega
  refine (reads_value H hvalue hbehind hvaluen hends).bind fun value' last hlast hvalue' => ?_
  refine .pure hlast ⟨⟨hkey', hvalue'⟩, ?_⟩
  rw [lacksValue_of_erase hkey' hvalue', hlacks]
  rfl

omit H in
theorem printOtherEntries_eq (entries : List ObjectEntry) : Expr.printOtherEntries numberText entries =
    entries.flatMap fun entry => .mark .comma :: printEntry numberText entry := by
  induction entries with
  | nil => rfl
  | cons entry entries ih =>
    obtain ⟨key, value⟩ := entry
    rw [Expr.printOtherEntries, ih, List.flatMap_cons, printEntry, List.cons_append, List.append_assoc]

omit H in
theorem eraseEntries_of_forall₂ {entries entries' : List ObjectEntry}
    (h : List.Forall₂ SameEntry entries entries') : eraseEntries entries' = eraseEntries entries := by
  induction h with
  | nil => rfl
  | cons hentry _ ih => simp only [eraseEntries, hentry.1, hentry.2, ih]

theorem reads_object {entries : List ObjectEntry}
    (hparts : ∀ entry ∈ entries, ∀ e ∈ Expr.entryParts entry, e.Everywhere (Regular numberText))
    (hlacks : ∀ entry ∈ entries, lacksValue entry = false) (hn : c.kinds.length ≤ n)
    (hc : c.kinds = .mark .leftBrace :: (Expr.printEntries numberText entries ++
      .mark .rightBrace :: rest)) : (primary r).Reads c rest (Same (.object entries)) := by
  have hitem : ∀ entry ∈ entries, ∀ (c : Cursor) (tail : List TokenKind), c.kinds.length < n →
      c.kinds = printEntry numberText entry ++ tail → EndsEntry tail →
        (objectEntry r.pipe r.alternative).Reads c tail (SameEntry entry) :=
    fun entry hentry c tail hn hc hends =>
      reads_entry H (hparts entry hentry) (hlacks entry hentry) hc (Nat.le_of_lt hn) hends
  have hentries : (between .leftBrace (separatedTrailing (objectEntry r.pipe r.alternative) (mark .comma))
      .rightBrace).Reads c rest (List.Forall₂ SameEntry entries) := by
    refine .between hc fun behind hbehind => ?_
    have hbehindn : behind.kinds.length < n := by
      rw [hc, List.length_cons, ← hbehind] at hn
      exact hn
    cases entries with
    | nil =>
      have hkey : (objectKey r.pipe).Refuses behind := (objectKey_needs r.pipe).refuses hbehind rfl
      have hentry : (objectEntry r.pipe r.alternative).Refuses behind := .ensure (.bind hkey)
      refine (Parser.reads_separatedTrailing_nil hbehind hentry).imp fun values hvalues => ?_
      rw [hvalues]
      exact .nil
    | cons entry others =>
      obtain ⟨key, value⟩ := entry
      rw [Expr.printEntries, printOtherEntries_eq, ← List.append_assoc, List.append_assoc] at hbehind
      exact Parser.reads_separatedTrailing (fun more => ⟨more, .inl rfl⟩) ⟨rest, .inr rfl⟩ (by simp)
        hitem hbehind hbehindn
  refine Rules.reads_primary r hc 12 rfl rfl (hentries.bind fun entries' _ hbehind hentries' => ?_)
  exact .pure hbehind (congrArg Expr.object (eraseEntries_of_forall₂ hentries'))

end

end JsonFilter.Filter
