import JsonFilter.Proofs.Filter.Readings

/-!
# What a reading takes

`Takes p P` says of every success of `p` that the tokens it takes and the value it gives are related by `P`.
The tokens of a sequence are those of its parts one behind the other, so each way to put readings together has
a rule that appends.  The cursor knows where the last of them ends, and so does the span of a part.

`Reads` is about one reading from known tokens.  Here the tokens are not known; they are what is to be told about.
-/

namespace JsonFilter.Filter

/-- Where tokens end that come behind one that ends at `stop`. -/
def stopAfter (stop : Nat) : List Token → Nat
  | [] => stop
  | t :: tokens => stopAfter t.span.stop tokens

theorem stopAfter_append (stop : Nat) (s t : List Token) :
    stopAfter stop (s ++ t) = stopAfter (stopAfter stop s) t := by
  induction s generalizing stop with
  | nil => rfl
  | cons u s ih => exact ih u.span.stop

/-- From a cursor, over some tokens, to another one. -/
structure Cursor.Passes (c : Cursor) (taken : List Token) (rest : Cursor) : Prop where
  tokens : c.tokens = taken ++ rest.tokens
  stop : rest.lastStop = stopAfter c.lastStop taken

namespace Cursor.Passes

variable {c d e : Cursor} {s t : List Token}

theorem refl (c : Cursor) : c.Passes [] c := ⟨rfl, rfl⟩

theorem trans (h : c.Passes s d) (h' : d.Passes t e) : c.Passes (s ++ t) e :=
  ⟨by rw [h.tokens, h'.tokens, List.append_assoc], by rw [h'.stop, h.stop, stopAfter_append]⟩

theorem kinds (h : c.Passes s d) : c.kinds = s.map Token.kind ++ d.kinds := by
  rw [Cursor.kinds, h.tokens, List.map_append]
  rfl

end Cursor.Passes

namespace Parser

variable {α β : Type} {p : Parser α} {P : List Token → α → Prop} {Q : List Token → β → Prop}

/-- **The tokens that `p` takes and the value that it gives are related.** -/
def Takes (p : Parser α) (P : List Token → α → Prop) : Prop :=
  ∀ ⦃c a rest furthest⦄, p c = .success a rest furthest → ∃ taken, c.Passes taken rest ∧ P taken a

namespace Takes

theorem imp (hp : Takes p P) {P' : List Token → α → Prop} (h : ∀ taken a, P taken a → P' taken a) :
    Takes p P' := by
  intro c a rest furthest hread
  obtain ⟨taken, htaken, ha⟩ := hp hread
  exact ⟨taken, htaken, h taken a ha⟩

theorem never : Takes (never : Parser α) P := by
  intro c a rest furthest h
  cases h

protected theorem pure {a : α} (h : P [] a) : Takes (pure a) P := by
  intro c b rest furthest hb
  cases hb
  exact ⟨[], .refl c, h⟩

protected theorem bind (hp : Takes p P) {f : α → Parser β}
    (hf : ∀ taken a, P taken a → Takes (f a) fun taken' b => Q (taken ++ taken') b) : Takes (p >>= f) Q := by
  intro c b rest furthest h
  change Parser.bind p f c = _ at h
  unfold Parser.bind at h
  cases hread : p c with
  | failure e =>
    rw [hread] at h
    cases h
  | success a behind before =>
    rw [hread] at h
    dsimp only at h
    cases hnext : f a behind with
    | failure e =>
      rw [hnext] at h
      cases h
    | success b' behind' after =>
      rw [hnext] at h
      cases h
      obtain ⟨taken, htaken, ha⟩ := hp hread
      obtain ⟨taken', htaken', hb⟩ := hf taken a ha hnext
      exact ⟨taken ++ taken', htaken.trans htaken', hb⟩

theorem token (kind : TokenKind) : Takes (token kind) fun taken _ => ∃ t, taken = [t] ∧ t.kind = kind := by
  intro c a rest furthest h
  unfold Parser.token at h
  split at h
  · next t tokens htokens =>
    split at h
    · next hkind =>
      cases h
      exact ⟨[t], ⟨htokens, rfl⟩, t, rfl, hkind⟩
    · cases h
  · cases h

theorem kinds_of_token {kind : TokenKind} {c rest : Cursor} {u : Unit} {furthest : Option ReadFailure}
    (h : Parser.token kind c = .success u rest furthest) : c.kinds = kind :: rest.kinds := by
  obtain ⟨_, htaken, t, rfl, hkind⟩ := Takes.token kind h
  rw [htaken.kinds, List.map_singleton, hkind]
  rfl

theorem select (f : TokenKind → Option α) : Takes (select f) fun taken a => ∃ t, taken = [t] ∧ f t.kind = some a := by
  intro c a rest furthest h
  unfold Parser.select at h
  split at h
  · next t tokens htokens =>
    split at h
    · next value hvalue =>
      cases h
      exact ⟨[t], ⟨htokens, rfl⟩, t, rfl, hvalue⟩
    · cases h
  · cases h

theorem firstOfFrom {ps : List (Parser α)} (h : ∀ p ∈ ps, Takes p P) (failed : Option ReadFailure) :
    Takes (Parser.firstOfFrom failed ps) P := by
  induction ps generalizing failed with
  | nil =>
    intro c a rest furthest hread
    cases hread
  | cons p ps ih =>
    intro c a rest furthest hread
    unfold Parser.firstOfFrom at hread
    cases hp : p c with
    | success a' behind after =>
      rw [hp] at hread
      cases hread
      exact h p List.mem_cons_self hp
    | failure e =>
      rw [hp] at hread
      exact ih (fun q hq => h q (List.mem_cons_of_mem p hq)) _ hread

theorem firstOf {ps : List (Parser α)} (h : ps.Forall fun p => Takes p P) : Takes (firstOf ps) P :=
  firstOfFrom (List.forall_iff_forall_mem.1 h) none

protected theorem optional (hp : Takes p P) {R : List Token → Option α → Prop} (hnone : R [] none)
    (hsome : ∀ taken a, P taken a → R taken (some a)) : Takes (optional p) R := by
  intro c o rest furthest h
  unfold Parser.optional at h
  cases hread : p c with
  | success a behind after =>
    rw [hread] at h
    cases h
    obtain ⟨taken, htaken, ha⟩ := hp hread
    exact ⟨taken, htaken, hsome taken a ha⟩
  | failure e =>
    rw [hread] at h
    cases h
    exact ⟨[], .refl c, hnone⟩

/-! ### Lists

`R` relates the tokens of a list to its items.  It is passed on from the items read so far to one more. -/

section

variable {R : List Token → List α → Prop}

theorem manyFrom (hp : Takes p P)
    (hmore : ∀ taken as taken' a, R taken as → P taken' a → R (taken ++ taken') (as ++ [a]))
    (budget : Nat) {before : List Token} {values : List α} (hvalues : R before values.reverse)
    (furthest : Option ReadFailure) :
    Takes (Parser.manyFrom p budget values furthest) fun taken as => R (before ++ taken) as := by
  have hstop : R (before ++ []) values.reverse := by rwa [List.append_nil]
  induction budget generalizing before values furthest with
  | zero =>
    intro c as rest after h
    cases h
    exact ⟨[], .refl c, hstop⟩
  | succ budget ih =>
    intro c as rest after h
    unfold Parser.manyFrom at h
    cases hread : p c with
    | success a behind further =>
      rw [hread] at h
      obtain ⟨taken, htaken, ha⟩ := hp hread
      have hvalues' : R (before ++ taken) (a :: values).reverse := by
        rw [List.reverse_cons]
        exact hmore _ _ _ _ hvalues ha
      obtain ⟨taken', htaken', has⟩ := ih hvalues' _ (by rwa [List.append_nil]) h
      rw [List.append_assoc] at has
      exact ⟨taken ++ taken', htaken.trans htaken', has⟩
    | failure e =>
      rw [hread] at h
      cases h
      exact ⟨[], .refl c, hstop⟩

protected theorem many (hp : Takes p P) (hnil : R [] [])
    (hmore : ∀ taken as taken' a, R taken as → P taken' a → R (taken ++ taken') (as ++ [a])) :
    Takes (many p) R :=
  fun _ _ _ _ h => manyFrom hp hmore _ (show R [] [].reverse from hnil) none h

variable {separator : Parser Unit} {S : List Token → Unit → Prop}

theorem itemsFrom (hp : Takes p P) (hseparator : Takes separator S)
    (hmore : ∀ taken as between u taken' a, R taken as → S between u → P taken' a →
      R (taken ++ (between ++ taken')) (as ++ [a]))
    (budget : Nat) {before : List Token} {values : List α} (hvalues : R before values.reverse)
    (c : Cursor) (furthest : Option ReadFailure) :
    let read := Parser.itemsFrom p separator budget values c furthest
    ∃ taken, c.Passes taken read.2.1 ∧ R (before ++ taken) read.1 := by
  have hstop : ∃ taken, c.Passes taken c ∧ R (before ++ taken) values.reverse :=
    ⟨[], .refl c, by rwa [List.append_nil]⟩
  induction budget generalizing before values c furthest with
  | zero => exact hstop
  | succ budget ih =>
    unfold Parser.itemsFrom
    cases hsep : separator c with
    | failure e => exact hstop
    | success u behind after =>
      dsimp only
      cases hitem : p behind with
      | failure e => exact hstop
      | success a next after =>
        obtain ⟨between, hbetween, hu⟩ := hseparator hsep
        obtain ⟨taken, htaken, ha⟩ := hp hitem
        have hvalues' : R (before ++ (between ++ taken)) (a :: values).reverse := by
          rw [List.reverse_cons]
          exact hmore _ _ _ _ _ _ hvalues hu ha
        obtain ⟨taken', htaken', has⟩ := ih hvalues' next _ ⟨[], .refl next, by rwa [List.append_nil]⟩
        refine ⟨between ++ taken ++ taken', (hbetween.trans htaken).trans htaken', ?_⟩
        rwa [← List.append_assoc]

protected theorem separated (hp : Takes p P) (hseparator : Takes separator S)
    (hfirst : ∀ taken a, P taken a → R taken [a])
    (hmore : ∀ taken as between u taken' a, R taken as → S between u → P taken' a →
      R (taken ++ (between ++ taken')) (as ++ [a])) : Takes (separated p separator) R := by
  intro c as rest furthest h
  unfold Parser.separated at h
  cases hread : p c with
  | failure e =>
    rw [hread] at h
    cases h
  | success a behind after =>
    rw [hread] at h
    obtain ⟨taken, htaken, ha⟩ := hp hread
    obtain ⟨taken', htaken', has⟩ := itemsFrom hp hseparator hmore (c.tokens.length + 1)
      (show R taken [a].reverse from hfirst taken a ha) behind after
    dsimp only at h
    cases h
    exact ⟨taken ++ taken', htaken.trans htaken', has⟩

protected theorem separatedTrailing (hp : Takes p P) (hseparator : Takes separator S) (hnil : R [] [])
    (hfirst : ∀ taken a, P taken a → R taken [a])
    (hmore : ∀ taken as between u taken' a, R taken as → S between u → P taken' a →
      R (taken ++ (between ++ taken')) (as ++ [a]))
    (htrailing : ∀ taken as between u, R taken as → S between u → R (taken ++ between) as) :
    Takes (separatedTrailing p separator) R := by
  intro c as rest furthest h
  unfold Parser.separatedTrailing at h
  cases hread : p c with
  | failure e =>
    rw [hread] at h
    cases h
    exact ⟨[], .refl c, hnil⟩
  | success a behind after =>
    rw [hread] at h
    obtain ⟨taken, htaken, ha⟩ := hp hread
    obtain ⟨taken', htaken', has⟩ := itemsFrom hp hseparator hmore (c.tokens.length + 1)
      (show R taken [a].reverse from hfirst taken a ha) behind after
    dsimp only at h
    split at h
    · next u next after' hsep =>
      cases h
      obtain ⟨between, hbetween, hu⟩ := hseparator hsep
      exact ⟨taken ++ taken' ++ between, (htaken.trans htaken').trans hbetween, htrailing _ _ _ _ has hu⟩
    · cases h
      exact ⟨taken ++ taken', htaken.trans htaken', has⟩

end

protected theorem between (hp : Takes p P) (left right : Mark) {P' : List Token → α → Prop}
    (h : ∀ taken a l r, P taken a → l.kind = .mark left → r.kind = .mark right → P' (l :: (taken ++ [r])) a) :
    Takes (between left p right) P' := by
  refine (token _).bind fun _ _ hleft => hp.bind fun taken a ha => (token _).bind fun _ _ hright => .pure ?_
  obtain ⟨l, rfl, hl⟩ := hleft
  obtain ⟨r, rfl, hr⟩ := hright
  exact h taken a l r ha hl hr

/-- A part that takes tokens has the span from the first of them to the last. -/
protected theorem withSpan {p : Parser (Span → α)} (hp : Takes p fun taken f =>
    ∃ t more, taken = t :: more ∧ P taken (f ⟨t.span.start, stopAfter t.span.stop more⟩)) :
    Takes (withSpan p) P := by
  intro c a rest furthest h
  unfold Parser.withSpan at h
  cases hread : p c with
  | failure e =>
    rw [hread] at h
    cases h
  | success f behind after =>
    rw [hread] at h
    cases h
    obtain ⟨taken, htaken, t, more, rfl, hf⟩ := hp hread
    have hstart : c.nextSpan.start = t.span.start := by
      unfold Cursor.nextSpan
      rw [htaken.tokens]
      rfl
    rw [hstart, htaken.stop]
    exact ⟨t :: more, htaken, hf⟩

/-- What is let through has passed the test. -/
protected theorem ensure (hp : Takes p P) (test : α → Bool) (message : String) :
    Takes (ensure p test message) fun taken a => test a = true ∧ P taken a := by
  intro c a rest furthest h
  unfold Parser.ensure at h
  cases hread : p c with
  | failure e =>
    rw [hread] at h
    cases h
  | success a' behind after =>
    rw [hread] at h
    dsimp only at h
    split at h
    · next htest =>
      cases h
      obtain ⟨taken, htaken, ha⟩ := hp hread
      exact ⟨taken, htaken, htest, ha⟩
    · cases h

end Takes
end Parser
end JsonFilter.Filter
