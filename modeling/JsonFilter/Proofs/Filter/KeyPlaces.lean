import JsonFilter.Proofs.Filter.Readings

/-!
# Places of object keys

A reserved word is the key of an object behind the brace that opens it, and behind a comma directly inside of
it.  Which commas these are depends on everything in front of them: a comma between brackets, among arguments or
inside of a conditional stands between filters.  `Scene` keeps what is open, so that the places of keys are told
from the tokens alone.

## Two readings at once

`KeysQuoted` says that two lists of tokens are the same, but for keys that are reserved words in the first one and
strings in the second.  `Abreast` compares what a reading does with two such lists: it refuses both, or it reads
both as far, and gives related values.  There is one rule for each way to put readings together.  A rule names the
scene that a reading starts in and the one that it arrives in; only what may read a key starts at the place of one.
-/

namespace JsonFilter.Filter

/-! ### Scenes -/

/-- What can be open around a place. -/
inductive Frame where
  | paren | bracket | brace
  /-- A conditional, from its first word on. -/
  | cond
deriving DecidableEq, Repr

/-- A place between tokens: what is open around it, the innermost first, and whether the key of an object may
follow. -/
structure Scene where
  frames : List Frame
  keyed : Bool
deriving DecidableEq, Repr

/-- What stays open behind the end of a frame, if it is the innermost one. -/
def Frame.leave (f : Frame) : List Frame → List Frame
  | [] => []
  | g :: frames => if g = f then frames else g :: frames

namespace Scene

/-- Nothing is open. -/
def start : Scene := ⟨[], false⟩

/-- The scene behind a token.  A reserved word that is a key opens and closes nothing. -/
def after (σ : Scene) : TokenKind → Scene
  | .mark .leftParen => ⟨.paren :: σ.frames, false⟩
  | .mark .leftBracket => ⟨.bracket :: σ.frames, false⟩
  | .mark .leftBrace => ⟨.brace :: σ.frames, true⟩
  | .mark .rightParen => ⟨Frame.paren.leave σ.frames, false⟩
  | .mark .rightBracket => ⟨Frame.bracket.leave σ.frames, false⟩
  | .mark .rightBrace => ⟨Frame.brace.leave σ.frames, false⟩
  | .mark .comma => ⟨σ.frames, σ.frames.head? == some .brace⟩
  | .keyword .ifWord => ⟨if σ.keyed then σ.frames else .cond :: σ.frames, false⟩
  | .keyword .endWord => ⟨if σ.keyed then σ.frames else Frame.cond.leave σ.frames, false⟩
  | _ => ⟨σ.frames, false⟩

/-- A key leaves open what is open. -/
theorem after_keyword_of_keyed {σ : Scene} (h : σ.keyed = true) (word : Keyword) :
    σ.after (.keyword word) = ⟨σ.frames, false⟩ := by
  cases word with
  | ifWord => exact congrArg (Scene.mk · false) (if_pos h)
  | endWord => exact congrArg (Scene.mk · false) (if_pos h)
  | _ => rfl

/-- A comma that does not stand directly inside of an object stands between filters. -/
theorem after_comma {frames : List Frame} (h : frames.head? ≠ some .brace) :
    (Scene.mk frames false).after (.mark .comma) = ⟨frames, false⟩ :=
  congrArg (Scene.mk frames) (beq_eq_false_iff_ne.2 h)

end Scene

/-- The second list has some keys of the first one, which are reserved words there, as strings. -/
inductive KeysQuoted : Scene → List TokenKind → List TokenKind → Prop
  | nil {σ : Scene} : KeysQuoted σ [] []
  | same {σ : Scene} {k : TokenKind} {kinds kinds' : List TokenKind} :
    KeysQuoted (σ.after k) kinds kinds' → KeysQuoted σ (k :: kinds) (k :: kinds')
  | key {σ : Scene} {word : Keyword} {kinds kinds' : List TokenKind} : σ.keyed = true →
    KeysQuoted ⟨σ.frames, false⟩ kinds kinds' →
      KeysQuoted σ (.keyword word :: kinds) (.string word.text :: kinds')

namespace KeysQuoted

variable {σ : Scene} {kinds kinds' : List TokenKind}

theorem length_eq (h : KeysQuoted σ kinds kinds') : kinds'.length = kinds.length := by
  induction h with
  | nil => rfl
  | same _ ih => exact congrArg (· + 1) ih
  | key _ _ ih => exact congrArg (· + 1) ih

theorem refl (σ : Scene) (kinds : List TokenKind) : KeysQuoted σ kinds kinds := by
  induction kinds generalizing σ with
  | nil => exact .nil
  | cons k kinds ih => exact .same (ih _)

/-- A key behind some tokens is quoted. -/
theorem of_key {front back : List TokenKind} {word : Keyword} (h : (front.foldl Scene.after σ).keyed = true) :
    KeysQuoted σ (front ++ .keyword word :: back) (front ++ .string word.text :: back) := by
  induction front generalizing σ with
  | nil => exact .key h (.refl _ _)
  | cons k front ih => exact .same (ih h)

end KeysQuoted

/-! ### Replies side by side -/

namespace Parser

variable {α β : Type} {σ ν : Scene} {p p' : Parser α} {Q : Scene → α → α → Prop} {R : α → α → Prop}
  {Q' : Scene → β → β → Prop} {R' : β → β → Prop}

/-- Both replies are failures, or both are successes in front of tokens that differ in keys only. -/
inductive Matches (Q : Scene → α → α → Prop) : Reply α → Reply α → Prop
  | failure {f f' : ReadFailure} : Matches Q (.failure f) (.failure f')
  | success {τ : Scene} {a a' : α} {rest rest' : Cursor} {furthest furthest' : Option ReadFailure} :
    KeysQuoted τ rest.kinds rest'.kinds → Q τ a a' →
      Matches Q (.success a rest furthest) (.success a' rest' furthest')

/-- **Two readings do the same** with tokens that differ in keys only. -/
def Abreast (σ : Scene) (p p' : Parser α) (Q : Scene → α → α → Prop) : Prop :=
  ∀ ⦃c c' : Cursor⦄, KeysQuoted σ c.kinds c'.kinds → Matches Q (p c) (p' c')

/-- A scene that is arrived in with related values. -/
def Arriving (ν : Scene) (R : α → α → Prop) : Scene → α → α → Prop := fun τ a a' => τ = ν ∧ R a a'

theorem Matches.imp {reply reply' : Reply α} (h : Matches Q reply reply') {P : Scene → α → α → Prop}
    (himp : ∀ τ a a', Q τ a a' → P τ a a') : Matches P reply reply' := by
  cases h with
  | failure => exact .failure
  | success hrest ha => exact .success hrest (himp _ _ _ ha)

/-- What comes first is compared at two cursors, what comes behind it in any scene. -/
theorem Matches.bind {c c' : Cursor} (hp : Matches Q (p c) (p' c')) {f f' : α → Parser β}
    (hf : ∀ τ a a', Q τ a a' → Abreast τ (f a) (f' a') Q') : Matches Q' ((p >>= f) c) ((p' >>= f') c') := by
  show Matches Q' (Parser.bind p f c) (Parser.bind p' f' c')
  unfold Parser.bind
  generalize p c = reply at hp ⊢
  generalize p' c' = reply' at hp ⊢
  cases hp with
  | failure => exact .failure
  | @success τ a a' behind behind' before before' hbehind ha =>
    have hnext := hf τ a a' ha hbehind
    dsimp only
    generalize f a behind = reply at hnext ⊢
    generalize f' a' behind' = reply' at hnext ⊢
    cases hnext with
    | failure => exact .failure
    | success hrest hb => exact .success hrest hb

theorem Matches.firstOf {c c' : Cursor} {ps : List (Parser α)} (h : ∀ p ∈ ps, Matches Q (p c) (p c')) :
    Matches Q (firstOf ps c) (firstOf ps c') := by
  have hfrom : ∀ failed failed', Matches Q (firstOfFrom failed ps c) (firstOfFrom failed' ps c') := by
    induction ps with
    | nil => exact fun _ _ => .failure
    | cons p ps ih =>
      intro failed failed'
      have hp := h p List.mem_cons_self
      unfold firstOfFrom
      generalize p c = reply at hp ⊢
      generalize p c' = reply' at hp ⊢
      cases hp with
      | failure => exact ih (fun q hq => h q (List.mem_cons_of_mem p hq)) _ _
      | success hrest ha => exact .success hrest ha
  exact hfrom none none

/-- The same token is read in both lists. -/
theorem Matches.select {c c' : Cursor} {k : TokenKind} {kinds kinds' : List TokenKind} {f : TokenKind → Option α}
    (hc : c.kinds = k :: kinds) (hc' : c'.kinds = k :: kinds') (hrest : KeysQuoted (σ.after k) kinds kinds') :
    Matches (fun τ a a' => τ = σ.after k ∧ f k = some a ∧ a' = a) (select f c) (select f c') := by
  obtain ⟨t, tokens, htokens, hkind, hkinds⟩ := exists_token hc
  obtain ⟨t', tokens', htokens', hkind', hkinds'⟩ := exists_token hc'
  unfold Parser.select
  rw [htokens, htokens']
  dsimp only
  rw [hkind, hkind']
  cases hf : f k with
  | none => exact .failure
  | some a => exact .success (by rwa [Cursor.kinds, Cursor.kinds, hkinds, hkinds']) ⟨rfl, rfl, rfl⟩

namespace Abreast

theorem imp (h : Abreast σ p p' Q) {P : Scene → α → α → Prop} (himp : ∀ τ a a', Q τ a a' → P τ a a') :
    Abreast σ p p' P := fun _ _ hc => (h hc).imp himp

/-- Related values are related in another way, too. -/
theorem mono (h : Abreast σ p p' (Arriving ν R)) {S : α → α → Prop} (himp : ∀ a a', R a a' → S a a') :
    Abreast σ p p' (Arriving ν S) := h.imp fun _ a a' ha => ⟨ha.1, himp a a' ha.2⟩

theorem never : Abreast σ (never : Parser α) never Q := fun _ _ _ => .failure

protected theorem pure {a a' : α} (h : R a a') : Abreast σ (pure a) (pure a') (Arriving σ R) :=
  fun _ _ hc => .success hc ⟨rfl, h⟩

protected theorem bind (hp : Abreast σ p p' (Arriving ν R)) {f f' : α → Parser β}
    (hf : ∀ a a', R a a' → Abreast ν (f a) (f' a') Q') : Abreast σ (p >>= f) (p' >>= f') Q' := by
  refine fun c c' hc => (hp hc).bind ?_
  rintro τ a a' ⟨rfl, ha⟩
  exact hf a a' ha

/-! ### Single tokens -/

/-- A reading of one token that takes no keys. -/
theorem select {f : TokenKind → Option α}
    (hkeyed : σ.keyed = true → ∀ word : Keyword, f (.keyword word) = none ∧ f (.string word.text) = none)
    (hafter : ∀ k a, f k = some a → σ.after k = ν) : Abreast σ (select f) (select f) (Arriving ν Eq) := by
  intro c c' hc
  generalize hkinds : c.kinds = kinds at hc
  generalize hkinds' : c'.kinds = kinds' at hc
  cases hc with
  | nil =>
    have htokens := List.map_eq_nil_iff.1 hkinds
    have htokens' := List.map_eq_nil_iff.1 hkinds'
    unfold Parser.select
    rw [htokens, htokens']
    exact .failure
  | same hrest =>
    refine (Matches.select hkinds hkinds' hrest).imp fun τ a a' ha => ?_
    obtain ⟨rfl, ha, rfl⟩ := ha
    exact ⟨hafter _ _ ha, rfl⟩
  | key hkey _ =>
    obtain ⟨t, tokens, htokens, hkind, -⟩ := exists_token hkinds
    obtain ⟨t', tokens', htokens', hkind', -⟩ := exists_token hkinds'
    have hnone := hkeyed hkey
    unfold Parser.select
    rw [htokens, htokens']
    dsimp only
    rw [hkind, hkind', (hnone _).1, (hnone _).2]
    exact .failure

/-- A given token that is no key. -/
theorem token {k : TokenKind} (hkeyed : σ.keyed = true → ∀ word : Keyword, .keyword word ≠ k ∧ .string word.text ≠ k) :
    Abreast σ (token k) (token k) (Arriving (σ.after k) Eq) := by
  intro c c' hc
  generalize hkinds : c.kinds = kinds at hc
  generalize hkinds' : c'.kinds = kinds' at hc
  have hfailure (h : c.kinds.head? ≠ some k) (h' : c'.kinds.head? ≠ some k) :
      Matches (Arriving (σ.after k) Eq) (Parser.token k c) (Parser.token k c') := by
    obtain ⟨f, hf⟩ := Refuses.token h
    obtain ⟨f', hf'⟩ := Refuses.token h'
    rw [hf, hf']
    exact .failure
  cases hc with
  | nil => exact hfailure (by simp [hkinds]) (by simp [hkinds'])
  | @same _ k' _ _ hrest =>
    by_cases hk : k' = k
    · subst hk
      obtain ⟨_, behind, furthest, hread, hbehind, -⟩ := Reads.token hkinds
      obtain ⟨_, behind', furthest', hread', hbehind', -⟩ := Reads.token hkinds'
      rw [hread, hread']
      exact .success (by rwa [hbehind, hbehind']) ⟨rfl, rfl⟩
    · exact hfailure (by simp [hkinds, hk]) (by simp [hkinds', hk])
  | key hkey _ =>
    have hne := hkeyed hkey
    exact hfailure (by simp [hkinds, (hne _).1]) (by simp [hkinds', (hne _).2])

/-- A mark is no key. -/
theorem mark (m : Mark) : Abreast σ (mark m) (mark m) (Arriving (σ.after (.mark m)) Eq) :=
  token fun _ _ => ⟨nofun, nofun⟩

/-- Where no key may stand, a reserved word is none. -/
theorem unkeyed (h : σ.keyed = false) (k : TokenKind) :
    Abreast σ (Parser.token k) (Parser.token k) (Arriving (σ.after k) Eq) :=
  token fun hkeyed => absurd hkeyed (by rw [h]; exact Bool.false_ne_true)

/-! ### Choices and parts -/

theorem firstOf {ps : List (Parser α)} (h : ps.Forall fun p => Abreast σ p p Q) :
    Abreast σ (firstOf ps) (firstOf ps) Q :=
  fun _ _ hc => .firstOf fun p hp => List.forall_iff_forall_mem.1 h p hp hc

protected theorem optional (hp : Abreast σ p p' (Arriving σ R)) {S : Option α → Option α → Prop}
    (hnone : S none none) (hsome : ∀ a a', R a a' → S (some a) (some a')) :
    Abreast σ (optional p) (optional p') (Arriving σ S) := by
  intro c c' hc
  have hreplies := hp hc
  unfold Parser.optional
  generalize p c = reply at hreplies ⊢
  generalize p' c' = reply' at hreplies ⊢
  cases hreplies with
  | failure => exact .success hc ⟨rfl, hnone⟩
  | success hrest ha => exact .success hrest ⟨ha.1, hsome _ _ ha.2⟩

/-- What stands between two marks, the second of which closes what the first one opens. -/
theorem between {left right : Mark} (hp : Abreast (σ.after (.mark left)) p p' (Arriving (σ.after (.mark left)) R))
    (hright : (σ.after (.mark left)).after (.mark right) = ⟨σ.frames, false⟩) :
    Abreast σ (between left p right) (between left p' right) (Arriving ⟨σ.frames, false⟩ R) := by
  rw [← hright]
  exact (mark left).bind fun _ _ _ => hp.bind fun _ _ ha => (mark right).bind fun _ _ _ => .pure ha

theorem parens (σ : Scene) (hp : Abreast ⟨.paren :: σ.frames, false⟩ p p' (Arriving ⟨.paren :: σ.frames, false⟩ R)) :
    Abreast σ (Parser.between .leftParen p .rightParen) (Parser.between .leftParen p' .rightParen)
      (Arriving ⟨σ.frames, false⟩ R) := between hp rfl

theorem brackets (σ : Scene)
    (hp : Abreast ⟨.bracket :: σ.frames, false⟩ p p' (Arriving ⟨.bracket :: σ.frames, false⟩ R)) :
    Abreast σ (Parser.between .leftBracket p .rightBracket) (Parser.between .leftBracket p' .rightBracket)
      (Arriving ⟨σ.frames, false⟩ R) := between hp rfl

/-- Between braces a reading may end where a key may follow, and where none may. -/
theorem braces (σ : Scene)
    (hp : Abreast ⟨.brace :: σ.frames, true⟩ p p' fun τ a a' => τ.frames = .brace :: σ.frames ∧ R a a') :
    Abreast σ (Parser.between .leftBrace p .rightBrace) (Parser.between .leftBrace p' .rightBrace)
      (Arriving ⟨σ.frames, false⟩ R) := by
  refine (mark .leftBrace).bind fun _ _ _ c c' hc => (hp hc).bind ?_
  rintro τ a a' ⟨hτ, ha⟩
  have hclosed : τ.after (.mark .rightBrace) = ⟨σ.frames, false⟩ := by
    show Scene.mk (Frame.brace.leave τ.frames) false = _
    rw [hτ]
    rfl
  refine (mark .rightBrace).bind fun _ _ _ => ?_
  rw [hclosed]
  exact .pure ha

theorem withSpan {p p' : Parser (Span → α)}
    (hp : Abreast σ p p' (Arriving ν fun f f' => ∀ span span', R (f span) (f' span'))) :
    Abreast σ (withSpan p) (withSpan p') (Arriving ν R) := by
  intro c c' hc
  have hreplies := hp hc
  unfold Parser.withSpan
  generalize p c = reply at hreplies ⊢
  generalize p' c' = reply' at hreplies ⊢
  cases hreplies with
  | failure => exact .failure
  | success hrest ha => exact .success hrest ⟨ha.1, ha.2 _ _⟩

theorem ensure (hp : Abreast σ p p' (Arriving ν R)) {test : α → Bool} (htest : ∀ a a', R a a' → test a' = test a)
    (message : String) : Abreast σ (ensure p test message) (ensure p' test message) (Arriving ν R) := by
  intro c c' hc
  have hreplies := hp hc
  unfold Parser.ensure
  generalize p c = reply at hreplies ⊢
  generalize p' c' = reply' at hreplies ⊢
  cases hreplies with
  | failure => exact .failure
  | success hrest ha =>
    dsimp only
    rw [htest _ _ ha.2]
    split
    · exact .success hrest ha
    · exact .failure

/-! ### Lists -/

theorem manyFrom (hp : Abreast σ p p' (Arriving σ R)) (budget : Nat) {values values' : List α}
    (hvalues : List.Forall₂ R values.reverse values'.reverse) (furthest furthest' : Option ReadFailure) :
    Abreast σ (manyFrom p budget values furthest) (manyFrom p' budget values' furthest')
      (Arriving σ (List.Forall₂ R)) := by
  induction budget generalizing values values' furthest furthest' with
  | zero => exact fun c c' hc => .success hc ⟨rfl, hvalues⟩
  | succ budget ih =>
    intro c c' hc
    have hreplies := hp hc
    unfold Parser.manyFrom
    generalize p c = reply at hreplies ⊢
    generalize p' c' = reply' at hreplies ⊢
    cases hreplies with
    | failure => exact .success hc ⟨rfl, hvalues⟩
    | success hrest ha =>
      obtain ⟨rfl, ha⟩ := ha
      refine ih ?_ _ _ hrest
      rw [List.reverse_cons, List.reverse_cons]
      exact List.rel_append hvalues (.cons ha .nil)

/-- Both lists have as many tokens, so a repetition goes on as long. -/
protected theorem many (hp : Abreast σ p p' (Arriving σ R)) :
    Abreast σ (many p) (many p') (Arriving σ (List.Forall₂ R)) := by
  intro c c' hc
  have hlength := hc.length_eq
  rw [Cursor.length_kinds, Cursor.length_kinds] at hlength
  unfold Parser.many
  rw [hlength]
  exact manyFrom hp _ .nil none none hc

variable {separator : Parser Unit}

/-- Items behind separators end in front of one, or where there is none. -/
theorem itemsFrom (hseparator : Abreast ν separator separator (Arriving σ Eq))
    (hp : Abreast σ p p' (Arriving ν R)) (budget : Nat) {values values' : List α}
    (hvalues : List.Forall₂ R values.reverse values'.reverse) {c c' : Cursor} (hc : KeysQuoted ν c.kinds c'.kinds)
    (furthest furthest' : Option ReadFailure) :
    let read := itemsFrom p separator budget values c furthest
    let read' := itemsFrom p' separator budget values' c' furthest'
    List.Forall₂ R read.1 read'.1 ∧ KeysQuoted ν read.2.1.kinds read'.2.1.kinds := by
  induction budget generalizing values values' c c' furthest furthest' with
  | zero => exact ⟨hvalues, hc⟩
  | succ budget ih =>
    have hreplies := hseparator hc
    unfold Parser.itemsFrom
    generalize separator c = reply at hreplies ⊢
    generalize separator c' = reply' at hreplies ⊢
    cases hreplies with
    | failure => exact ⟨hvalues, hc⟩
    | @success _ _ _ behind behind' _ _ hbehind hu =>
      obtain ⟨rfl, -⟩ := hu
      have hitems := hp hbehind
      dsimp only
      generalize p behind = reply at hitems ⊢
      generalize p' behind' = reply' at hitems ⊢
      cases hitems with
      | failure => exact ⟨hvalues, hc⟩
      | success hnext ha =>
        obtain ⟨rfl, ha⟩ := ha
        refine ih ?_ hnext _ _
        rw [List.reverse_cons, List.reverse_cons]
        exact List.rel_append hvalues (.cons ha .nil)

theorem separated (hseparator : Abreast σ separator separator (Arriving σ Eq)) (hp : Abreast σ p p' (Arriving σ R)) :
    Abreast σ (separated p separator) (separated p' separator) (Arriving σ (List.Forall₂ R)) := by
  intro c c' hc
  have hlength := hc.length_eq
  rw [Cursor.length_kinds, Cursor.length_kinds] at hlength
  have hreplies := hp hc
  unfold Parser.separated
  rw [hlength]
  generalize p c = reply at hreplies ⊢
  generalize p' c' = reply' at hreplies ⊢
  cases hreplies with
  | failure => exact .failure
  | @success _ a a' next next' after after' hnext ha =>
    obtain ⟨rfl, ha⟩ := ha
    have hvalues : List.Forall₂ R [a].reverse [a'].reverse := .cons ha .nil
    obtain ⟨hitems, hrest⟩ := itemsFrom hseparator hp (c.tokens.length + 1) hvalues hnext after after'
    exact .success hrest ⟨rfl, hitems⟩

/-- The list ends behind an item, or where an item may follow. -/
theorem separatedTrailing (hseparator : Abreast ν separator separator (Arriving σ Eq))
    (hp : Abreast σ p p' (Arriving ν R)) :
    Abreast σ (separatedTrailing p separator) (separatedTrailing p' separator)
      fun τ as as' => (τ = σ ∨ τ = ν) ∧ List.Forall₂ R as as' := by
  intro c c' hc
  have hlength := hc.length_eq
  rw [Cursor.length_kinds, Cursor.length_kinds] at hlength
  have hreplies := hp hc
  unfold Parser.separatedTrailing
  rw [hlength]
  generalize p c = reply at hreplies ⊢
  generalize p' c' = reply' at hreplies ⊢
  cases hreplies with
  | failure => exact .success hc ⟨.inl rfl, .nil⟩
  | @success _ a a' next next' after after' hnext ha =>
    obtain ⟨rfl, ha⟩ := ha
    have hvalues : List.Forall₂ R [a].reverse [a'].reverse := .cons ha .nil
    obtain ⟨hitems, hrest⟩ := itemsFrom hseparator hp (c.tokens.length + 1) hvalues hnext after after'
    have htrailing := hseparator hrest
    dsimp only
    generalize separator _ = reply at htrailing ⊢
    generalize separator _ = reply' at htrailing ⊢
    cases htrailing with
    | failure => exact .success hrest ⟨.inr rfl, hitems⟩
    | success hbehind hu => exact .success hbehind ⟨.inl hu.1, hitems⟩

end Abreast
end Parser
end JsonFilter.Filter
