import JsonFilter.Proofs.Filter.PrintedPrimaries

/-!
# Parsing undoes printing

What `Expr.print` writes is read back: the grammar groups operands as their levels say, and no branch of
the grammar takes what another one was printed for.

## The induction

The rules of the grammar refer to one another behind a token, so there is an induction on the number of
tokens, which says that the rules that a rule refers to read what is printed (`Rules.Handles`).  Inside it
there is one on the filter: an operator stands behind its left operand, which the same rule has to read.

* **`arrives_print`** — if the rules behind a token read printed filters, then the rule of a filter's own
  level reads it.
* **`Rules.upTo_handles`** — so the rules for fewer than `n` tokens read printed filters of fewer tokens.
* **`parse_print`** — the tree of a printed filter is the filter, up to spans.
-/

namespace JsonFilter.Filter

open JsonFilter.Filter.Parser (Reads Arrives mark)

open JsonFilter.Filter.Expr (Same Everywhere Regular print printMaybe)

variable {numberText : Binary64 → String}

/-! ### Tokens behind others -/

section

variable {c : Cursor} {n : Nat} {written tail : List TokenKind} {k : TokenKind}

theorem tail_length_le (hn : c.kinds.length ≤ n) (hc : c.kinds = written ++ tail) : tail.length ≤ n := by
  rw [hc, List.length_append] at hn
  omega

theorem tail_length_lt (hn : c.kinds.length ≤ n) (hc : c.kinds = written ++ k :: tail) :
    tail.length < n :=
  tail_length_le hn hc

end

section

variable {r : Rules} {n : Nat} (H : r.Handles numberText n) {c : Cursor} {rest : List TokenKind}
include H

/-! ### Signs -/

omit H in
/-- Constants are written with their sign, so a negated filter is none. -/
theorem same_negate {operand e' : Expr} (hfolded : ∀ x, operand ≠ .literal (.number x))
    (h : Same operand e') : Same (.neg operand) (negate e') := by
  have hneg : Same (.neg operand) (.neg e') := congrArg Expr.neg h
  cases e' with
  | literal value =>
    cases value with
    | number x =>
      -- The operand would be the same constant.
      cases operand with
      | literal value =>
        cases h
        exact absurd rfl (hfolded x)
      | _ => cases h
    | _ => exact hneg
  | _ => exact hneg

theorem arrives_neg {operand : Expr} (he : operand.Everywhere (Regular numberText))
    (hown : ArrivesPrinted numberText r n operand)
    (hfolded : ∀ x, operand ≠ .literal (.number x)) (hn : c.kinds.length ≤ n)
    (hc : c.kinds = .mark .minus :: (operand.printAt numberText .unary ++ rest))
    (hstop : Stops .unary rest) : r.arrives .unary c rest (Same (.neg operand)) := by
  refine Rules.Signed.extend hc (fun behind hbehind => ?_) fun e' he' => same_negate hfolded he'
  have hbehindn : behind.kinds.length ≤ n := by
    rw [hc, List.length_cons, ← hbehind] at hn
    exact Nat.le_of_succ_le hn
  exact arrives_operand H he hown hbehindn hbehind hstop

omit H in
theorem arrives_literal {value : Literal}
    (hreads : ∀ x, value = .number x → Binary64.ofText? (numberText x.abs) = some x.abs)
    (hc : c.kinds = Expr.literalTokens numberText value ++ rest)
    (hstop : Stops (Expr.literal value).level.inner rest) :
    r.arrives (Expr.literal value).level c rest (Same (.literal value)) := by
  have hsame (value : Literal) (e' : Expr) (h : e' = .literal value) : Same (.literal value) e' := by
    rw [h]
  cases value with
  | null => exact (reads_constant hc rfl (.select hc rfl)).imp (hsame .null)
  | bool value =>
    cases value with
    | false => exact (reads_constant hc rfl (.select hc rfl)).imp (hsame (.bool false))
    | true => exact (reads_constant hc rfl (.select hc rfl)).imp (hsame (.bool true))
  | string value => exact (reads_constant hc rfl (.select hc rfl)).imp (hsame (.string value))
  | number x =>
    cases hx : x.isNegative with
    | false =>
      have habs : x.abs = x := Binary64.abs_of_not_isNegative hx
      have hread := hreads x rfl
      simp only [Expr.literalTokens, hx, habs] at hc hread
      simp only [Expr.level, hx]
      exact (reads_number hread hc).imp (hsame (.number x))
    | true =>
      simp only [Expr.literalTokens, hx, if_true] at hc
      simp only [Expr.level, hx, if_true] at hstop ⊢
      have htight (behind : Cursor) (hbehind : behind.kinds = .number (numberText x.abs) :: rest) :
          r.tight.Reads behind rest fun e' => e' = .literal (.number x.abs) := by
        have hprimary : (r.rule .primary).Reads behind rest fun e' => e' = .literal (.number x.abs) :=
          reads_number (hreads x rfl) hbehind
        exact Rules.widen (show Level.attempt ≤ .primary by decide) hprimary (hstop.mono (by decide))
      refine Rules.Signed.extend hc (fun behind hbehind => .start (htight behind hbehind))
        fun e' he' => hsame (.number x) _ ?_
      rw [he', negate, Binary64.neg_abs_of_isNegative hx]

/-! ### Suffixes -/

/-- A suffix behind a target. -/
theorem arrives_suffix {target e : Expr} {written : List TokenKind} {Q : Suffix → Prop}
    (he : target.Everywhere (Regular numberText)) (hown : ArrivesPrinted numberText r n target)
    (hn : c.kinds.length ≤ n) (hc : c.kinds = target.printAt numberText .suffixed ++ (written ++ rest))
    (hstart : Stops .primary (written ++ rest)) (hwritten : 0 < written.length)
    (hsuffix : ∀ last : Cursor, last.kinds = written ++ rest → last.kinds.length ≤ n →
      (suffix r.pipe).Reads last rest Q)
    (happly : ∀ target' s, Same target target' → Q s → Same e (s.apply target')) :
    r.arrives .suffixed c rest (Same e) := by
  refine Arrives.extend (arrives_operand H he hown hn hc hstart) (fun last hlast => ?_) ?_ happly
  · exact hsuffix last hlast (hlast ▸ tail_length_le hn hc)
  · rw [List.length_append]
    omega

section

variable {target : Expr} (he : target.Everywhere (Regular numberText))
  (hown : ArrivesPrinted numberText r n target)
include he hown

/-- The access to a member; that of the input needs no target. -/
theorem arrives_field {name : String} : ArrivesPrinted numberText r n (.field target name) := by
  intro c rest hn hc hstop
  by_cases hidentity : target.isIdentity = true
  · obtain rfl : target = .identity := by
      cases target with
      | identity => rfl
      | _ => cases hidentity
    exact reads_leading_field hc
  · have hlevel : (Expr.field target name).level = .suffixed := by
      cases target with
      | identity => exact absurd rfl hidentity
      | _ => rfl
    have hwritten : 0 < (fieldTokens name).length := by
      unfold fieldTokens
      split <;> exact Nat.succ_pos _
    have hstart : Stops .primary (fieldTokens name ++ rest) := by
      unfold fieldTokens
      split <;> exact .cons rfl _
    rw [print, if_neg hidentity, List.append_assoc] at hc
    rw [hlevel]
    refine arrives_suffix H he hown hn hc hstart hwritten (fun last hlast _ => reads_field hlast)
      fun target' s hsame hs => ?_
    rw [hs, Suffix.apply, Same, Expr.eraseSpans, hsame, Expr.eraseSpans]

theorem arrives_index {i : Expr} (hi : i.Everywhere (Regular numberText)) (hn : c.kinds.length ≤ n)
    (hc : c.kinds = target.printAt numberText .suffixed ++
      ((.mark .leftBracket :: (i.print numberText ++ [.mark .rightBracket])) ++ rest)) :
    r.arrives .suffixed c rest (Same (.index target i)) := by
  refine arrives_suffix H he hown hn hc (.cons rfl _) (Nat.succ_pos _)
    (fun last hlast hlastn => reads_index H hi hlastn (by simpa using hlast)) fun target' s hsame hs => ?_
  obtain ⟨i', rfl, hi'⟩ := hs
  simp only [Suffix.apply, Same, Expr.eraseSpans, hsame, hi']

theorem arrives_slice {start stop : Option Expr}
    (hstart : ∀ e ∈ start, e.Everywhere (Regular numberText))
    (hstop : ∀ e ∈ stop, e.Everywhere (Regular numberText)) (hn : c.kinds.length ≤ n)
    (hc : c.kinds = target.printAt numberText .suffixed ++ ((.mark .leftBracket :: (printMaybe numberText start
      ++ .mark .colon :: (printMaybe numberText stop ++ [.mark .rightBracket]))) ++ rest)) :
    r.arrives .suffixed c rest (Same (.slice target start stop)) := by
  refine arrives_suffix H he hown hn hc (.cons rfl _) (Nat.succ_pos _)
    (fun last hlast hlastn => reads_slice H hstart hstop hlastn (by simpa using hlast))
    fun target' s hsame hs => ?_
  obtain ⟨start', stop', rfl, hstart', hstop'⟩ := hs
  simp only [Suffix.apply, Same, Expr.eraseSpans, hsame, hstart', hstop']

theorem arrives_iterate (hn : c.kinds.length ≤ n) (hc : c.kinds = target.printAt numberText .suffixed ++
      ([.mark .leftBracket, .mark .rightBracket] ++ rest)) :
    r.arrives .suffixed c rest (Same (.iterate target)) := by
  refine arrives_suffix H he hown hn hc (.cons rfl _) (Nat.succ_pos _)
    (fun last hlast _ => reads_iterate hlast) fun target' s hsame hs => ?_
  simp only [hs, Suffix.apply, Same, Expr.eraseSpans, hsame]

end

/-! ### Operators -/

/-- An operator that chains extends its left operand. -/
theorem arrives_chained {op : BinaryOp} {left right : Expr}
    (hop : op.level ∈ [Level.disjunction, .conjunction, .sum, .product])
    (hleft : left.Everywhere (Regular numberText)) (hleft' : ArrivesPrinted numberText r n left)
    (hright : right.Everywhere (Regular numberText)) (hright' : ArrivesPrinted numberText r n right)
    (hn : c.kinds.length ≤ n) (hc : c.kinds = left.printAt numberText op.level ++
      op.token :: (right.printAt numberText op.level.next ++ rest))
    (hstop : Stops op.level.inner rest) : r.arrives op.level c rest (Same (.binary op left right)) := by
  have hinner : op.level < op.level.inner ∧ op.level.inner ≤ op.level.next := by
    cases op <;> first | exact ⟨by decide, by decide⟩ | exact absurd hop (by decide)
  have hlevel : r.arrives op.level =
      Arrives (r.rule op.level.next) (operand (operators op.level) (r.rule op.level.next)) grouped := by
    cases op <;> first | rfl | exact absurd hop (by decide)
  have hstart : Stops op.level.inner (op.token :: (right.printAt numberText op.level.next ++ rest)) :=
    .cons (by rw [op.joins_token]; simpa using hinner.1) _
  have hbegun := arrives_operand H hleft hleft' hn hc hstart
  rw [hlevel] at hbegun ⊢
  have hitem (last : Cursor) (hlast : last.kinds =
      op.token :: (right.printAt numberText op.level.next ++ rest)) :
      (operand (operators op.level) (r.rule op.level.next)).Reads last rest
        fun item => item.1 = op ∧ Same right item.2 := by
    refine (reads_operators hlast).bind fun op' behind hbehind hop' => ?_
    have hbehindn : behind.kinds.length ≤ n := hbehind ▸ Nat.le_of_lt (tail_length_lt hn hc)
    refine (reads_operand H hright hright' hbehindn hbehind (hstop.mono hinner.2)).bind
      fun right' _ hlast' hsame => ?_
    exact .pure hlast' ⟨hop', hsame⟩
  refine Arrives.extend hbegun hitem ?_ fun left' item hsame hitem' => ?_
  · simp only [List.length_cons, List.length_append]
    omega
  · simp only [grouped, Same, Expr.eraseSpans, hitem'.1, hsame, hitem'.2]

/-- A comparison has a sum on each side. -/
theorem reads_compared {op : BinaryOp} {left right : Expr} (hop : op.level = .comparison)
    (hleft : left.Everywhere (Regular numberText)) (hleft' : ArrivesPrinted numberText r n left)
    (hright : right.Everywhere (Regular numberText)) (hright' : ArrivesPrinted numberText r n right)
    (hn : c.kinds.length ≤ n) (hc : c.kinds = left.printAt numberText .sum ++
      op.token :: (right.printAt numberText .sum ++ rest))
    (hstop : Stops .comparison rest) : r.compared.Reads c rest (Same (.binary op left right)) := by
  have hstart : Stops .sum (op.token :: (right.printAt numberText .sum ++ rest)) :=
    .cons (by rw [op.joins_token, hop]; rfl) _
  refine Reads.bind (reads_operand H hleft hleft' hn hc hstart) fun left' behind hbehind hsame => ?_
  have hoperator := reads_operators hbehind
  rw [hop] at hoperator
  have hoperand : (operand (operators .comparison) r.sums).Reads behind rest
      fun item => item.1 = op ∧ Same right item.2 := by
    refine hoperator.bind fun op' last hlast hop' => ?_
    have hlastn : last.kinds.length ≤ n := hlast ▸ Nat.le_of_lt (tail_length_lt hn hc)
    refine Reads.bind (reads_operand H hright hright' hlastn hlast (hstop.mono (by decide)))
      fun right' _ hafter hsame' => ?_
    exact .pure hafter ⟨hop', hsame'⟩
  refine hoperand.optional_some.bind fun compared last hlast hcompared => ?_
  obtain ⟨⟨op', right'⟩, rfl, hop', hsame'⟩ := hcompared
  obtain rfl : op' = op := hop'
  refine .pure hlast ?_
  simp only [Same, Expr.eraseSpans, hsame, hsame']

theorem arrives_binary {op : BinaryOp} {left right : Expr}
    (hleft : left.Everywhere (Regular numberText)) (hleft' : ArrivesPrinted numberText r n left)
    (hright : right.Everywhere (Regular numberText)) (hright' : ArrivesPrinted numberText r n right)
    (hn : c.kinds.length ≤ n) (hc : c.kinds = left.printAt numberText op.leftLevel ++
      op.token :: (right.printAt numberText op.level.next ++ rest))
    (hstop : Stops op.level.inner rest) : r.arrives op.level c rest (Same (.binary op left right)) := by
  by_cases hop : op.level = .comparison
  · rw [BinaryOp.leftLevel, if_pos hop, hop] at hc
    rw [hop] at hstop ⊢
    exact reads_compared H hop hleft hleft' hright hright' hn hc hstop
  · rw [BinaryOp.leftLevel, if_neg hop] at hc
    refine arrives_chained H ?_ hleft hleft' hright hright' hn hc hstop
    cases op <;> first | decide | exact absurd rfl hop

/-- An alternative mark has an operation on its left, and groups to the right. -/
theorem reads_alternated {left right : Expr}
    (hleft : left.Everywhere (Regular numberText)) (hleft' : ArrivesPrinted numberText r n left)
    (hright : right.Everywhere (Regular numberText)) (hn : c.kinds.length ≤ n)
    (hc : c.kinds = left.printAt numberText .disjunction ++
      .mark .alternative :: (right.printAt numberText .alternative ++ rest))
    (hstop : Stops .alternative rest) : r.alternated.Reads c rest (Same (.alternative left right)) := by
  refine Reads.bind (reads_operand H hleft hleft' hn hc (.cons rfl _)) fun left' behind hbehind hsame => ?_
  have hright' : (do
      mark .alternative
      r.alternative).Reads behind rest (Same right) :=
    (Reads.token hbehind).bind fun _ last hlast _ => H.alternative hright hlast (tail_length_lt hn hc) hstop
  refine hright'.optional_some.bind fun o last hlast ho => ?_
  obtain ⟨right', rfl, hsame'⟩ := ho
  refine .pure hlast ?_
  simp only [Same, Expr.eraseSpans, hsame, hsame']

/-- A comma extends the list on its left. -/
theorem arrives_comma {left right : Expr}
    (hleft : left.Everywhere (Regular numberText)) (hleft' : ArrivesPrinted numberText r n left)
    (hright : right.Everywhere (Regular numberText)) (hright' : ArrivesPrinted numberText r n right)
    (hn : c.kinds.length ≤ n) (hc : c.kinds = left.printAt numberText .comma ++
      .mark .comma :: (right.printAt numberText .alternative ++ rest))
    (hstop : Stops .alternative rest) : r.arrives .comma c rest (Same (.comma left right)) := by
  have hbegun := arrives_operand H hleft hleft' hn hc (.cons rfl _)
  have hitem (last : Cursor) (hlast : last.kinds =
      .mark .comma :: (right.printAt numberText .alternative ++ rest)) :
      r.commaOperand.Reads last rest (Same right) := by
    refine (Reads.token hlast).bind fun _ behind hbehind _ => ?_
    have hbehindn : behind.kinds.length ≤ n := hbehind ▸ Nat.le_of_lt (tail_length_lt hn hc)
    exact reads_operand H hright hright' hbehindn hbehind hstop
  refine Arrives.extend hbegun hitem ?_ fun left' right' hsame hsame' => ?_
  · simp only [List.length_cons, List.length_append]
    omega
  · simp only [Same, Expr.eraseSpans, hsame, hsame']

/-! ### Whole filters -/

/-- A pipe has a list of alternatives on its left, and groups to the right. -/
theorem reads_piped {left right : Expr}
    (hleft : left.Everywhere (Regular numberText)) (hleft' : ArrivesPrinted numberText r n left)
    (hright : right.Everywhere (Regular numberText)) (hn : c.kinds.length ≤ n)
    (hc : c.kinds = left.printAt numberText .comma ++ .mark .pipe :: (right.print numberText ++ rest))
    (hstop : Stops .pipe rest) : r.whole.Reads c rest (Same (.pipe left right)) := by
  have hlisted : r.listed.Reads c (.mark .pipe :: (right.print numberText ++ rest)) (Same left) :=
    reads_operand H hleft hleft' hn hc (.cons rfl _)
  obtain ⟨hdefinition, hbinding⟩ := Rules.refuses_binders hlisted (by simp)
  refine Rules.reads_whole (.later hdefinition (.later hbinding (.here ?_)))
  refine hlisted.bind fun left' behind hbehind hsame => ?_
  have hright' : (do
      mark .pipe
      r.pipe).Reads behind rest (Same right) :=
    (Reads.token hbehind).bind fun _ last hlast _ =>
      H.reads_pipe hright hlast (tail_length_lt hn hc) hstop
  refine hright'.optional_some.bind fun o last hlast ho => ?_
  obtain ⟨right', rfl, hsame'⟩ := ho
  refine .pure hlast ?_
  simp only [Same, Expr.eraseSpans, hsame, hsame']

/-- A binding extends to the end. -/
theorem reads_binding {source body : Expr} {var : String}
    (hsource : source.Everywhere (Regular numberText)) (hsource' : ArrivesPrinted numberText r n source)
    (hbody : body.Everywhere (Regular numberText)) (hn : c.kinds.length ≤ n)
    (hc : c.kinds = source.printAt numberText .attempt ++
      .keyword .asWord :: .variable var :: .mark .pipe :: (body.print numberText ++ rest))
    (hstop : Stops .pipe rest) : r.whole.Reads c rest (Same (.bind source var body)) := by
  have htight : r.tight.Reads c
      (.keyword .asWord :: .variable var :: .mark .pipe :: (body.print numberText ++ rest)) (Same source) :=
    reads_operand H hsource hsource' hn hc (.cons rfl _)
  have hdefinition : (definition r.pipe).Refuses c := by
    refine .bind (.token fun hhead => htight.not_refuses (r.tight_needs c fun k hk => ?_))
    rw [hhead] at hk
    cases hk
    rfl
  have hlength := tail_length_lt hn hc
  simp only [List.length_cons] at hlength
  refine Rules.reads_whole (.later hdefinition (.here ?_))
  refine htight.bind fun source' c₁ h₁ hsame => (Reads.token h₁).bind fun _ c₂ h₂ _ => ?_
  refine (reads_variableName h₂).bind fun var' c₃ h₃ hvar => (Reads.token h₃).bind fun _ c₄ h₄ _ => ?_
  refine (H.reads_pipe hbody h₄ (by omega) hstop).bind fun body' c₅ h₅ hsame' => .pure h₅ ?_
  simp only [Same, Expr.eraseSpans, hsame, hvar, hsame']

/-- A definition extends to the end. -/
theorem reads_definition {name : String} {body scope : Expr}
    (hbody : body.Everywhere (Regular numberText)) (hscope : scope.Everywhere (Regular numberText))
    (hn : c.kinds.length ≤ n)
    (hc : c.kinds = .keyword .defWord :: .identifier name :: .mark .colon :: (body.print numberText ++
      .mark .semicolon :: (scope.print numberText ++ rest)))
    (hstop : Stops .pipe rest) : r.whole.Reads c rest (Same (.define name body scope)) := by
  have hlength := hn
  rw [hc] at hlength
  simp only [List.length_append, List.length_cons] at hlength
  refine Rules.reads_whole (.here ?_)
  refine (Reads.token hc).bind fun _ c₁ h₁ _ => (reads_identifier h₁).bind fun name' c₂ h₂ hname => ?_
  refine (Reads.token h₂).bind fun _ c₃ h₃ _ => ?_
  refine (H.reads_pipe hbody h₃ ?_ (.cons rfl _)).bind fun body' c₄ h₄ hsame => ?_
  · simp only [List.length_append, List.length_cons]
    omega
  refine (Reads.token h₄).bind fun _ c₅ h₅ _ => ?_
  refine (H.reads_pipe hscope h₅ ?_ hstop).bind fun scope' c₆ h₆ hsame' => .pure h₆ ?_
  · simp only [List.length_append]
    omega
  · simp only [Same, Expr.eraseSpans, hname, hsame, hsame']

/-! ### Every filter -/

/-- **The rule of its own level reads every filter.** -/
theorem arrives_print (e : Expr) :
    e.Everywhere (Regular numberText) → ArrivesPrinted numberText r n e := by
  induction e using Expr.induction with
  | step e ih =>
    intro he
    have hown {x : Expr} (hx : x ∈ e.parts) : ArrivesPrinted numberText r n x := ih x hx (he.part hx)
    have hpart {x : Expr} (hx : x ∈ e.parts) : x.Everywhere (Regular numberText) := he.part hx
    have hmaybe {o : Option Expr} (ho : ∀ x ∈ o.toList, x ∈ e.parts) :
        ∀ x ∈ o, x.Everywhere (Regular numberText) :=
      fun x hx => he.part (ho x (Option.mem_toList.2 hx))
    intro c rest hn hc hstop
    cases e with
    | identity => exact reads_identity hc hstop
    | recurseAll => exact reads_recurseAll hc
    | literal value =>
      exact arrives_literal (fun x hx => he.self.reads x (hx ▸ rfl)) hc hstop
    | field target name =>
      exact arrives_field H (hpart List.mem_cons_self) (hown List.mem_cons_self) c rest hn hc hstop
    | index target i =>
      rw [print, List.append_assoc] at hc
      exact arrives_index H (hpart List.mem_cons_self) (hown List.mem_cons_self)
        (hpart (by simp [Expr.parts])) hn hc
    | slice target start stop =>
      rw [print, List.append_assoc] at hc
      exact arrives_slice H (hpart List.mem_cons_self) (hown List.mem_cons_self)
        (hmaybe fun x hx => by simp [Expr.parts, Option.mem_toList.1 hx])
        (hmaybe fun x hx => by simp [Expr.parts, Option.mem_toList.1 hx]) hn hc
    | iterate target =>
      rw [print, List.append_assoc] at hc
      exact arrives_iterate H (hpart List.mem_cons_self) (hown List.mem_cons_self) hn hc
    | array body =>
      rw [print, List.cons_append, List.append_assoc] at hc
      exact reads_array H (hmaybe fun x hx => hx) hn hc
    | object entries =>
      rw [print, List.cons_append, List.append_assoc] at hc
      have hparts : ∀ entry ∈ entries, ∀ x ∈ Expr.entryParts entry, x.Everywhere (Regular numberText) :=
        fun entry hentry x hx => hpart (List.mem_flatMap.2 ⟨entry, hentry, hx⟩)
      exact reads_object H hparts he.self.keysHaveValues hn hc
    | neg operand =>
      have hfolded : ∀ x, operand ≠ .literal (.number x) :=
        fun x hx => he.self.folded x (congrArg Expr.neg hx)
      exact arrives_neg H (hpart List.mem_cons_self) (hown List.mem_cons_self) hfolded hn hc hstop
    | binary op left right =>
      rw [print, List.append_assoc] at hc
      exact arrives_binary H (hpart List.mem_cons_self) (hown List.mem_cons_self) (hpart (by simp [Expr.parts])) (hown (by simp [Expr.parts])) hn hc hstop
    | alternative left right =>
      rw [print, List.append_assoc] at hc
      exact reads_alternated H (hpart List.mem_cons_self) (hown List.mem_cons_self) (hpart (by simp [Expr.parts])) hn hc hstop
    | pipe left right =>
      rw [print, List.append_assoc] at hc
      exact reads_piped H (hpart List.mem_cons_self) (hown List.mem_cons_self) (hpart (by simp [Expr.parts])) hn hc hstop
    | comma left right =>
      rw [print, List.append_assoc] at hc
      exact arrives_comma H (hpart List.mem_cons_self) (hown List.mem_cons_self) (hpart (by simp [Expr.parts])) (hown (by simp [Expr.parts])) hn hc hstop
    | cond test yes no =>
      simp only [print, List.cons_append, List.append_assoc, List.nil_append] at hc
      exact reads_conditional H (hpart (by simp [Expr.parts])) (hpart (by simp [Expr.parts]))
        (hmaybe fun x hx => by simp [Expr.parts, Option.mem_toList.1 hx]) hn hc
    | attempt body handler =>
      rw [print, List.cons_append, List.append_assoc] at hc
      have hprimary : (r.rule .primary).Reads c rest (Same (.attempt body handler)) :=
        reads_guarded H (hpart List.mem_cons_self)
          (hmaybe fun x hx => by simp [Expr.parts, Option.mem_toList.1 hx]) hn hc hstop
      exact Rules.widen (show Level.attempt ≤ .primary by decide) hprimary hstop
    | reduce source var init update =>
      simp only [print, List.cons_append, List.append_assoc, List.nil_append] at hc
      exact reads_reduction H (hpart (by simp [Expr.parts])) (hpart (by simp [Expr.parts]))
        (hpart (by simp [Expr.parts])) hn hc
    | bind source var body =>
      rw [print, List.append_assoc] at hc
      exact reads_binding H (hpart List.mem_cons_self) (hown List.mem_cons_self) (hpart (by simp [Expr.parts])) hn hc hstop
    | define name body scope =>
      simp only [print, List.cons_append, List.append_assoc] at hc
      exact reads_definition H (hpart (by simp [Expr.parts])) (hpart (by simp [Expr.parts])) hn hc hstop
    | «variable» name span => exact reads_variable hc
    | call name args span => exact reads_call H (fun x hx => hpart hx) hn hc hstop

end

/-- **The rules for fewer than `n` tokens read printed filters** of fewer tokens. -/
theorem Rules.upTo_handles (n : Nat) : (Rules.upTo n).Handles numberText n := by
  induction n with
  | zero =>
    have hnone (p : Parser Expr) (place : Level) : ReadsPrinted numberText 0 p place :=
      fun _ _ _ _ _ hn _ => absurd hn (Nat.not_lt_zero _)
    exact ⟨hnone _ _, hnone _ _, hnone _ _, hnone _ _, fun c _ => ⟨c.failure [], rfl⟩⟩
  | succ n ih =>
    have hrule (place : Level) : ReadsPrinted numberText (n + 1) ((Rules.upTo n).rule place) place := by
      intro e he c rest hc hn hstop
      exact reads_operand ih he (arrives_print ih e he) (hc ▸ Nat.le_of_lt_succ hn) hc hstop
    exact ⟨hrule .pipe, hrule .alternative, hrule .attempt, hrule .suffixed, Rules.whole_needs _⟩

/-- **Parsing undoes printing.**  The tokens of a filter with an end behind them are read as the filter, up
to spans. -/
theorem parse_print {e : Expr} (he : e.Everywhere (Regular numberText)) {tokens : List Token}
    (htokens : tokens.map Token.kind = e.print numberText ++ [.eof]) :
    ∃ e', parse tokens = .ok e' ∧ e'.eraseSpans = e.eraseSpans := by
  have hc : (Cursor.ofTokens tokens).kinds = e.print numberText ++ [.eof] := htokens
  have hn : (e.print numberText ++ [TokenKind.eof]).length < tokens.length + 1 := by
    rw [← htokens, List.length_map]
    exact Nat.lt_succ_self _
  have hpipe := (Rules.upTo_handles (tokens.length + 1)).reads_pipe he hc hn (.cons rfl [])
  have hwhole : (wholeFilter tokens.length).Reads (.ofTokens tokens) [] (Same e) :=
    hpipe.bind fun e' _ hbehind hsame => (Reads.token hbehind).bind fun _ _ hlast _ => .pure hlast hsame
  obtain ⟨e', last, furthest, hread, -, hsame⟩ := hwhole
  exact ⟨e', by rw [parse, hread], hsame⟩

/-- Guarded filters inside one another and under suffixes, operators that group against their habit, chained
comparisons, a negative constant before a minus sign, pipes and commas inside values, a reserved word as a
key. -/
theorem parse_print_nested :
    let e : Expr :=
      .bind (.attempt (.attempt (.iterate .identity) none) (some (.field (.field .identity "a") "not a name")))
        "x" (.pipe
          (.alternative
            (.alternative
              (.binary .sub (.literal (.number (.ofInt (-2))))
                (.binary .sub (.literal (.number .one)) (.variable "x" (.point 0)))) .recurseAll)
            (.slice (.attempt (.neg .identity) none) none (some (.comma .identity .identity))))
          (.object [
            (.static "if", some (.pipe (.binary .lt (.binary .lt .identity .identity) .identity)
              (.call "f" [.identity, .array none] (.point 0)))),
            (.computed .identity, some (.comma .identity (.define "g" .identity .identity))),
            (.variable "x" (.point 0), none)]))
    e.Everywhere (Regular Binary64.plainText) ∧
      ∃ e', parse ((e.print Binary64.plainText ++ [TokenKind.eof]).map (Token.mk · (.point 0))) = .ok e' ∧
        e'.eraseSpans = e.eraseSpans := by
  intro e
  have he : e.Everywhere (Regular Binary64.plainText) := by
    simp [e, Everywhere.iff_forall_parts, Expr.regular_iff, Expr.parts, Expr.entryParts,
      ObjectKey.filter?, Expr.KeysHaveValues, lacksValue]
    -- What is left is that the two numbers read back.
    decide +kernel
  have hkinds : ((e.print Binary64.plainText ++ [TokenKind.eof]).map (Token.mk · (.point 0))).map
      Token.kind = e.print Binary64.plainText ++ [.eof] := by
    rw [List.map_map]
    exact List.map_id _
  exact ⟨he, parse_print he hkinds⟩

end JsonFilter.Filter
