import JsonFilter.Proofs.Filter.Consumption
import JsonFilter.Proofs.Filter.Parts
import JsonFilter.Proofs.Filter.PrintedPrimaries

/-!
# What filters are built from

`Built` tells which filters the rules of the grammar build from which tokens: nothing but what an argument about
the tokens of a filter needs to know.  There is a way to build for each kind of filter whose tokens matter: calls and
variables have the span of their tokens, and constructions stand between their brackets.  All other filters are put
together from their parts, whatever the tokens between them.  Tokens that open and close come in pairs, but for the
reserved words that are keys of objects.  A computed key has no name that could stand for its value, and the grammar
refuses it without one.

What is said of tokens and the filters built from them is proved by induction over `Built`; the grammar is gone through
only once, here.

## Keys

A reserved word is a key behind a brace or a comma.  So that there is one way to read it, the first entry of an object
is built as one behind a comma.  A variable that is a key is listed among the filters of its entry.

* `Built` — the filters that are built from tokens.
* **`Rules.upTo_building`** — the rules of the grammar build what they give from the tokens that they take.
* **`parse_built`** — filters that are read are built from their tokens.
* **`parse_complete`** — in filters that are read, computed keys have values.
-/

namespace JsonFilter.Filter

open JsonFilter.Filter.Parser (Takes mark keyword chain many optional firstOf)

/-! ### Tokens and filters -/

/-- The token that closes what a token opens. -/
def closing? : TokenKind → Option TokenKind
  | .mark .leftParen => some (.mark .rightParen)
  | .mark .leftBracket => some (.mark .rightBracket)
  | .keyword .ifWord => some (.keyword .endWord)
  | _ => none

/-- Whether a token opens or closes something. -/
def isDelimiter : TokenKind → Bool
  | .mark .leftParen | .mark .leftBracket | .mark .leftBrace | .keyword .ifWord
  | .mark .rightParen | .mark .rightBracket | .mark .rightBrace | .keyword .endWord => true
  | _ => false

/-- The filters that a key shows: a variable, and the filter of a computed key. -/
def ObjectKey.filters : ObjectKey Expr → List Expr
  | .static _ => []
  | .variable name span => [.variable name span]
  | .computed key => [key]

namespace Expr

/-- The filters that an entry shows. -/
def entryFilters (entry : ObjectEntry) : List Expr := entry.1.filters ++ entry.2.toList

theorem mem_entryFilters {entry : ObjectEntry} {x : Expr} (h : x ∈ entryParts entry) : x ∈ entryFilters entry := by
  obtain ⟨key, value⟩ := entry
  rcases List.mem_append.1 h with hkey | hvalue
  · refine List.mem_append_left _ ?_
    cases key with
    | static => cases hkey
    | «variable» => cases hkey
    | computed => exact hkey
  · exact List.mem_append_right _ hvalue

/-- Whether nothing but its parts tells which tokens a filter is built from. -/
def isPlain : Expr → Bool
  | .array _ | .object _ | .variable _ _ | .call _ _ _ => false
  | _ => true

end Expr

/-- **The filters that are built from tokens**, the whole ones in front of their parts. -/
inductive Built : List Token → List Expr → Prop
  | nil : Built [] []
  | token {t : Token} : isDelimiter t.kind = false → Built [t] []
  | key {comma t : Token} {word : Keyword} : comma.kind = .mark .comma → t.kind = .keyword word → Built [comma, t] []
  | wrap {left right : Token} {s : List Token} {es : List Expr} : closing? left.kind = some right.kind → Built s es →
    Built (left :: (s ++ [right])) es
  | append {s t : List Token} {es es' : List Expr} : Built s es → Built t es' → Built (s ++ t) (es ++ es')
  | among {s : List Token} {es es' : List Expr} : Built s es → (∀ e ∈ es', e ∈ es) → Built s es'
  | plain {s : List Token} {es : List Expr} {e : Expr} : Built s es → e.isPlain = true → (∀ x ∈ e.parts, x ∈ es) →
    Built s (e :: es)
  | variable {t : Token} {name : String} : t.kind = .variable name → Built [t] [.variable name t.span]
  | name {t : Token} {name : String} : t.kind = .identifier name → Built [t] [.call name [] t.span]
  | call {t left right : Token} {name : String} {s : List Token} {args : List Expr} : t.kind = .identifier name →
    left.kind = .mark .leftParen → right.kind = .mark .rightParen → args ≠ [] → Built s args →
    Built (t :: left :: (s ++ [right])) [.call name args ⟨t.span.start, right.span.stop⟩]
  | array {left right : Token} {s : List Token} {body : Option Expr} : left.kind = .mark .leftBracket →
    right.kind = .mark .rightBracket → Built s body.toList → Built (left :: (s ++ [right])) [.array body]
  | object {left right : Token} {s : List Token} {entries : List ObjectEntry} : left.kind = .mark .leftBrace →
    right.kind = .mark .rightBrace → (∀ entry ∈ entries, lacksValue entry = false) →
    (∀ comma : Token, comma.kind = .mark .comma → Built (comma :: s) (entries.flatMap Expr.entryFilters)) →
    Built (left :: (s ++ [right])) [.object entries]

namespace Built

variable {s : List Token} {es : List Expr} {e : Expr} {β : Type}

/-- A plain filter, its parts forgotten. -/
theorem only (h : Built s es) (he : e.isPlain = true) (hparts : ∀ x ∈ e.parts, x ∈ es) : Built s [e] :=
  (h.plain he hparts).among (by simp)

/-- A filter that items are added to, one after the other. -/
theorem foldl {step : Expr → β → Expr} {inner : β → List Expr}
    (hstep : ∀ e b, (step e b).isPlain = true ∧ ∀ x ∈ (step e b).parts, x ∈ e :: inner b) {items : List β}
    (h : Built s es) (he : e ∈ es) (hitems : ∀ x ∈ items.flatMap inner, x ∈ es) : Built s [items.foldl step e] := by
  induction items generalizing e es with
  | nil => exact h.among (List.forall_mem_singleton.2 he)
  | cons b items ih =>
    rw [List.flatMap_cons] at hitems
    obtain ⟨hplain, hparts⟩ := hstep e b
    have hnext : Built s (step e b :: es) := h.plain hplain fun x hx =>
      (List.mem_cons.1 (hparts x hx)).elim (fun heq => heq ▸ he) fun hb => hitems x (List.mem_append_left _ hb)
    exact ih hnext List.mem_cons_self fun x hx => List.mem_cons_of_mem _ (hitems x (List.mem_append_right _ hx))

/-- Each further test nests in the branch before it. -/
theorem branches (h : Built s es) (further : List (Expr × Expr)) (no : Option Expr)
    (hfurther : ∀ x ∈ further.flatMap fun branch => [branch.1, branch.2], x ∈ es) (hno : ∀ x ∈ no.toList, x ∈ es) :
    Built s ((further.foldr (fun (test, yes) no => some (.cond test yes no)) no).toList ++ es) := by
  induction further with
  | nil => exact h.among fun x hx => (List.mem_append.1 hx).elim (hno x) id
  | cons branch further ih =>
    rw [List.flatMap_cons] at hfurther
    have hrest := ih fun x hx => hfurther x (List.mem_append_right _ hx)
    have hcond := hrest.plain (e := .cond branch.1 branch.2 _) rfl fun x hx => by
      rcases List.mem_cons.1 hx with rfl | hx
      · exact List.mem_append_right _ (hfurther _ (by simp))
      · rcases List.mem_cons.1 hx with rfl | hx
        · exact List.mem_append_right _ (hfurther _ (by simp))
        · exact List.mem_append_left _ hx
    exact hcond.among fun x hx => by
      rcases List.mem_cons.1 hx with rfl | hx
      · exact List.mem_cons_self
      · exact List.mem_cons_of_mem _ (List.mem_append_right _ hx)

end Built

/-! ### Single tokens -/

/-- What a reading gives is built from the tokens that it takes. -/
abbrev Builds {α : Type} (p : Parser α) (inner : α → List Expr) : Prop :=
  Takes p fun taken a => Built taken (inner a)

section

variable {α β : Type}

theorem builds_token {kind : TokenKind} (h : isDelimiter kind = false) : Builds (Parser.token kind) fun _ => [] :=
  (Takes.token kind).imp fun _ _ ⟨_, htaken, ht⟩ => htaken ▸ .token (ht ▸ h)

theorem builds_select {f : TokenKind → Option α} (h : ∀ k a, f k = some a → isDelimiter k = false) :
    Builds (Parser.select f) fun _ => [] :=
  (Takes.select f).imp fun _ _ ⟨t, htaken, ht⟩ => htaken ▸ .token (h t.kind _ ht)

theorem identifier_takes : Takes identifier fun taken name => ∃ t, taken = [t] ∧ t.kind = .identifier name := by
  refine (Takes.select _).imp fun taken name ⟨t, htaken, ht⟩ => ⟨t, htaken, ?_⟩
  split at ht
  · next heq => rw [heq, Option.some.inj ht]
  · cases ht

theorem variableName_takes : Takes variableName fun taken name => ∃ t, taken = [t] ∧ t.kind = .variable name := by
  refine (Takes.select _).imp fun taken name ⟨t, htaken, ht⟩ => ⟨t, htaken, ?_⟩
  split at ht
  · next heq => rw [heq, Option.some.inj ht]
  · cases ht

theorem identifier_builds : Builds identifier fun _ => [] :=
  identifier_takes.imp fun _ _ ⟨_, htaken, ht⟩ => htaken ▸ .token (ht ▸ rfl)

theorem variableName_builds : Builds variableName fun _ => [] :=
  variableName_takes.imp fun _ _ ⟨_, htaken, ht⟩ => htaken ▸ .token (ht ▸ rfl)

theorem fieldName_builds : Builds fieldName fun _ => [] :=
  builds_select fun k a hk => by cases k <;> first | rfl | cases hk

theorem stringText_builds : Builds stringText fun _ => [] :=
  builds_select fun k a hk => by cases k <;> first | rfl | cases hk

theorem literal_builds : Builds literal fun e => [e] := by
  refine (Takes.select _).imp fun taken e h => ?_
  obtain ⟨t, rfl, ht⟩ := h
  have hleaf : isDelimiter t.kind = false ∧ e.isPlain = true ∧ e.parts = [] := by
    split at ht <;> cases ht
    all_goals
      next heq => rw [heq]; exact ⟨rfl, rfl, rfl⟩
  exact (Built.token hleaf.1).plain hleaf.2.1 (by simp [hleaf.2.2])

/-- What is read first stands in front. -/
theorem Builds.bind {p : Parser α} {inner : α → List Expr} (hp : Builds p inner) {f : α → Parser β}
    {Q : List Token → β → Prop}
    (hf : ∀ taken a, Built taken (inner a) → Takes (f a) fun taken' b => Q (taken ++ taken') b) :
    Takes (p >>= f) Q := Takes.bind hp hf

/-- What is read behind a token that neither opens nor closes anything. -/
theorem Builds.behind {p : Parser α} {inner : α → List Expr} (hp : Builds p inner) {kind : TokenKind}
    (h : isDelimiter kind = false) : Builds (do Parser.token kind; p) inner :=
  (builds_token h).bind fun _ _ htoken => hp.imp fun _ _ ha => htoken.append ha

theorem Builds.optional {p : Parser α} {inner : α → List Expr} (hp : Builds p inner) :
    Builds (optional p) fun o => o.toList.flatMap inner :=
  Takes.optional hp .nil fun taken a h => by simpa using h

theorem Builds.many {p : Parser α} {inner : α → List Expr} (hp : Builds p inner) :
    Builds (many p) fun as => as.flatMap inner :=
  Takes.many hp .nil fun taken as taken' a has ha => by
    show Built (taken ++ taken') ((as ++ [a]).flatMap inner)
    rw [List.flatMap_append, List.flatMap_singleton]
    exact has.append ha

theorem Builds.between {p : Parser α} {inner : α → List Expr} (hp : Builds p inner) {left right : Mark}
    (h : closing? (.mark left) = some (.mark right)) : Builds (Parser.between left p right) inner :=
  Takes.between hp left right fun _ _ l r ha hl hr => ha.wrap (by rw [hl, hr, h])

theorem chain_builds {lead : Parser Expr} {item : Parser β} {step : Expr → β → Expr} {inner : β → List Expr}
    (hlead : Builds lead fun e => [e]) (hitem : Builds item inner)
    (hstep : ∀ e b, (step e b).isPlain = true ∧ ∀ x ∈ (step e b).parts, x ∈ e :: inner b) :
    Builds (chain lead item step) fun e => [e] :=
  hlead.bind fun _ first hfirst => hitem.many.bind fun _ others hothers =>
    .pure ((hfirst.append (hothers.append .nil)).foldl hstep (by simp) fun x hx => by simp [hx])

end

/-! ### Suffixes -/

/-- The filters inside of a suffix. -/
def Suffix.parts : Suffix → List Expr
  | .index i => [i]
  | .slice start stop => start.toList ++ stop.toList
  | _ => []

theorem Suffix.parts_apply (target : Expr) (s : Suffix) :
    (s.apply target).isPlain = true ∧ ∀ x ∈ (s.apply target).parts, x ∈ target :: s.parts := by
  cases s <;> exact ⟨rfl, fun x hx => hx⟩

section

variable {pipe : Parser Expr} (hpipe : Builds pipe fun e => [e])
include hpipe

theorem bracketed_builds : Builds (bracketed pipe pipe) Suffix.parts := by
  refine Takes.firstOf ⟨?_, ?_, ?_⟩
  · -- the two brackets stand around nothing
    refine (Takes.token _).bind fun _ _ hleft => (Takes.token _).bind fun _ _ hright => .pure ?_
    obtain ⟨l, rfl, hl⟩ := hleft
    obtain ⟨r, rfl, hr⟩ := hright
    exact Built.nil.wrap (by rw [hl, hr]; rfl)
  · refine Builds.between ?_ rfl
    refine hpipe.optional.bind fun _ start hstart => (builds_token rfl).bind fun _ _ hcolon =>
      hpipe.optional.bind fun _ stop hstop => .pure ?_
    simpa [Suffix.parts] using hstart.append (hcolon.append (hstop.append .nil))
  · exact Builds.between (hpipe.bind fun _ i hi => .pure (hi.append .nil)) rfl

theorem bracketSuffix_builds : Builds (bracketSuffix pipe) Suffix.parts := by
  intro c s rest furthest h
  cases hleft : mark .leftBracket c with
  | failure e =>
    unfold bracketSuffix at h
    rw [hleft] at h
    cases h
  | success u behind furthest' =>
    rw [bracketSuffix_eq pipe (Takes.kinds_of_token hleft)] at h
    exact bracketed_builds hpipe h

theorem suffix_builds : Builds (suffix pipe) Suffix.parts := by
  have hdot : Builds (mark .dot) fun _ => [] := builds_token rfl
  refine Takes.firstOf ⟨?_, ?_, bracketSuffix_builds hpipe, ?_, ?_⟩
  · exact fieldName_builds.bind fun _ name hname => .pure (hname.append .nil)
  · exact hdot.bind fun _ _ hdot => stringText_builds.bind fun _ name hname =>
      .pure (hdot.append (hname.append .nil))
  · exact hdot.bind fun _ _ hdot => (bracketSuffix_builds hpipe).imp fun _ s hs => hdot.append hs
  · exact (builds_token rfl).bind fun _ _ hmark => .pure (hmark.append .nil)

/-! ### Primaries -/

/-- The arguments of a call, if there are any. -/
theorem arguments_take : Takes
    (optional (Parser.between .leftParen (Parser.separated pipe (mark .semicolon)) .rightParen)) fun taken args =>
      taken = [] ∧ args = none ∨ ∃ left right s as, taken = left :: (s ++ [right]) ∧
      left.kind = .mark .leftParen ∧ right.kind = .mark .rightParen ∧ args = some as ∧ as ≠ [] ∧ Built s as := by
  have hlist : Takes (Parser.separated pipe (mark .semicolon)) fun taken as => as ≠ [] ∧ Built taken as :=
    Takes.separated hpipe (builds_token rfl) (fun _ _ ha => ⟨List.cons_ne_nil _ _, ha⟩)
      fun _ _ _ _ _ _ has hu ha => ⟨List.append_ne_nil_of_right_ne_nil _ (List.cons_ne_nil _ _),
        has.2.append (hu.append ha)⟩
  have hparens : Takes (Parser.between .leftParen (Parser.separated pipe (mark .semicolon)) .rightParen) fun taken as =>
      ∃ left right s, taken = left :: (s ++ [right]) ∧ left.kind = .mark .leftParen ∧
        right.kind = .mark .rightParen ∧ as ≠ [] ∧ Built s as :=
    Takes.between hlist _ _ fun s as left right has hleft hright => ⟨left, right, s, rfl, hleft, hright, has⟩
  exact Takes.optional hparens (.inl ⟨rfl, rfl⟩) fun _ as ⟨left, right, s, htaken, hleft, hright, has⟩ =>
    .inr ⟨left, right, s, as, htaken, hleft, hright, rfl, has⟩

theorem call_builds : Builds (call pipe) fun e => [e] := by
  refine Takes.withSpan (identifier_takes.bind fun _ name hname => (arguments_take hpipe).bind fun _ args hargs =>
    .pure ?_)
  obtain ⟨t, rfl, ht⟩ := hname
  rcases hargs with ⟨rfl, rfl⟩ | ⟨left, right, s, as, rfl, hleft, hright, rfl, hne, has⟩
  · exact ⟨t, [], rfl, .name ht⟩
  · refine ⟨t, left :: (s ++ [right]), by simp, ?_⟩
    have hstop : stopAfter t.span.stop (left :: (s ++ [right])) = right.span.stop :=
      stopAfter_append _ (left :: s) [right]
    rw [hstop]
    simpa using Built.call ht hleft hright hne has

omit hpipe in
theorem variableUse_builds : Builds variableUse fun e => [e] := by
  refine Takes.withSpan (variableName_takes.bind fun _ name hname => .pure ?_)
  obtain ⟨t, rfl, ht⟩ := hname
  exact ⟨t, [], rfl, .variable ht⟩

theorem conditional_builds : Builds (conditional pipe) fun e => [e] := by
  have hbranch : Builds (do
      keyword .elifWord
      let test ← pipe
      keyword .thenWord
      return (test, ← pipe)) fun branch : Expr × Expr => [branch.1, branch.2] :=
    (builds_token rfl).bind fun _ _ hword => hpipe.bind fun _ test htest =>
      (builds_token rfl).bind fun _ _ hword' => hpipe.bind fun _ yes hyes =>
        .pure (hword.append (htest.append (hword'.append (hyes.append .nil))))
  have helse : Builds (do
      keyword .elseWord
      pipe) fun e => [e] := hpipe.behind rfl
  refine (Takes.token _).bind fun taken _ hif => hpipe.bind fun taken₁ test htest => ?_
  refine (builds_token rfl).bind fun taken₂ _ hthen => hpipe.bind fun taken₃ yes hyes => ?_
  refine hbranch.many.bind fun taken₄ further hfurther => helse.optional.bind fun taken₅ no hno => ?_
  refine (Takes.token _).bind fun taken₆ _ hend => .pure ?_
  obtain ⟨l, rfl, hl⟩ := hif
  obtain ⟨r, rfl, hr⟩ := hend
  have hinner := htest.append (hthen.append (hyes.append (hfurther.append hno)))
  have hpair : closing? l.kind = some r.kind := by rw [hl, hr]; rfl
  have hwhole := hinner.wrap hpair
  simp only [List.append_assoc, List.cons_append, List.nil_append, List.append_nil] at hwhole ⊢
  refine (hwhole.branches further no (fun x hx => ?_) fun x hx => ?_).only rfl fun x hx => ?_
  · simp [hx]
  · simp [hx]
  · simp only [Expr.parts, List.mem_cons] at hx
    rcases hx with rfl | rfl | hx
    · simp
    · simp
    · exact List.mem_append_left _ hx

theorem arrayConstruction_builds : Builds (arrayConstruction pipe) fun e => [e] := by
  have hbrackets : Builds (Parser.between .leftBracket (optional pipe) .rightBracket) fun body => [.array body] :=
    Takes.between hpipe.optional _ _ fun taken body l r hbody hl hr => .array hl hr (by simpa using hbody)
  exact hbrackets.bind fun taken body hbody => .pure (by rwa [List.append_nil])

theorem objectKey_builds : Takes (objectKey pipe) fun taken key =>
    ∀ comma : Token, comma.kind = .mark .comma → Built (comma :: taken) key.filters := by
  have hcomma {comma : Token} (h : comma.kind = .mark .comma) : Built [comma] [] := .token (by rw [h]; rfl)
  refine Takes.firstOf ⟨?_, ?_, ?_, ?_, ?_⟩
  · refine Takes.withSpan (variableName_takes.bind fun _ name hname => .pure ?_)
    obtain ⟨t, rfl, ht⟩ := hname
    exact ⟨t, [], rfl, fun comma h => (hcomma h).append (.variable ht)⟩
  · exact identifier_builds.bind fun _ name hname => .pure fun comma h => (hcomma h).append (hname.append .nil)
  · refine (Takes.select _).bind fun taken name hname => .pure fun comma h => ?_
    obtain ⟨t, rfl, ht⟩ := hname
    split at ht
    · next heq => exact .key h heq
    · cases ht
  · exact stringText_builds.bind fun _ name hname => .pure fun comma h => (hcomma h).append (hname.append .nil)
  · exact (hpipe.between rfl).bind fun _ key hkey => .pure fun comma h => (hcomma h).append (hkey.append .nil)

omit hpipe in
theorem guarded_builds {postfixed : Parser Expr} (h : Builds postfixed fun e => [e]) :
    Builds (guarded postfixed) fun e => [e] := by
  refine (builds_token rfl).bind fun _ _ hword => h.bind fun _ body hbody =>
    (h.behind rfl).optional.bind fun _ handler hhandler => .pure ?_
  exact (hword.append (hbody.append (hhandler.append .nil))).only rfl fun x hx => by simpa [Expr.parts] using hx

theorem reduction_builds {postfixed : Parser Expr} (h : Builds postfixed fun e => [e]) :
    Builds (reduction pipe postfixed) fun e => [e] := by
  refine (builds_token rfl).bind fun taken _ hword => h.bind fun taken₁ source hsource => ?_
  refine (builds_token rfl).bind fun taken₂ _ hword' => variableName_builds.bind fun taken₃ var hvar => ?_
  refine (Takes.token _).bind fun _ _ hleft => hpipe.bind fun taken₄ init hinit => ?_
  refine (builds_token rfl).bind fun taken₅ _ hmark => hpipe.bind fun taken₆ update hupdate => ?_
  refine (Takes.token _).bind fun _ _ hright => .pure ?_
  obtain ⟨l, rfl, hl⟩ := hleft
  obtain ⟨r, rfl, hr⟩ := hright
  have hpair : closing? l.kind = some r.kind := by rw [hl, hr]; rfl
  have hsteps := (hinit.append (hmark.append hupdate)).wrap hpair
  have hwhole := hword.append (hsource.append (hword'.append (hvar.append hsteps)))
  simp only [List.append_assoc, List.cons_append, List.nil_append, List.append_nil] at hwhole ⊢
  exact hwhole.only rfl fun x hx => by simpa [Expr.parts] using hx

omit hpipe in
theorem objectValue_builds {alternative : Parser Expr} (h : Builds alternative fun e => [e]) :
    Builds (objectValue alternative) fun e => [e] :=
  chain_builds h (h.behind rfl) fun _ _ => ⟨rfl, fun _ hx => hx⟩

theorem objectEntry_builds {alternative : Parser Expr} (h : Builds alternative fun e => [e]) :
    Takes (objectEntry pipe alternative) fun taken entry =>
      (!lacksValue entry) = true ∧
        ∀ comma : Token, comma.kind = .mark .comma → Built (comma :: taken) (Expr.entryFilters entry) := by
  refine .ensure ((objectKey_builds hpipe).bind fun _ key hkey =>
    ((objectValue_builds h).behind rfl).optional.bind fun _ value hvalue => .pure fun comma hcomma => ?_) _ _
  have hentry := (hkey comma hcomma).append (hvalue.append .nil)
  simpa [Expr.entryFilters] using hentry

theorem objectConstruction_builds {alternative : Parser Expr} (h : Builds alternative fun e => [e]) :
    Builds (objectConstruction pipe alternative) fun e => [e] := by
  have hentries : Takes (Parser.separatedTrailing (objectEntry pipe alternative) (mark .comma)) fun taken entries =>
      (∀ entry ∈ entries, (!lacksValue entry) = true) ∧
        ∀ comma : Token, comma.kind = .mark .comma → Built (comma :: taken) (entries.flatMap Expr.entryFilters) := by
    refine Takes.separatedTrailing (objectEntry_builds hpipe h) (Takes.token _)
      ⟨List.forall_mem_nil _, fun comma hcomma => .token (by rw [hcomma]; rfl)⟩
      (fun taken entry hentry => ⟨List.forall_mem_singleton.2 hentry.1, fun comma hcomma => ?_⟩)
      (fun taken entries between _ taken' entry hentries hbetween hentry =>
        ⟨List.forall_mem_append.2 ⟨hentries.1, List.forall_mem_singleton.2 hentry.1⟩, fun comma hcomma => ?_⟩)
      fun taken entries between _ hentries hbetween => ⟨hentries.1, fun comma hcomma => ?_⟩
    · simpa using hentry.2 comma hcomma
    · obtain ⟨t, rfl, ht⟩ := hbetween
      rw [List.flatMap_append, List.flatMap_singleton]
      exact (hentries.2 comma hcomma).append (hentry.2 t ht)
    · obtain ⟨t, rfl, ht⟩ := hbetween
      have htrailing := (hentries.2 comma hcomma).append (.token (t := t) (by rw [ht]; rfl))
      rwa [List.append_nil] at htrailing
  have hbraces : Builds (Parser.between .leftBrace
      (Parser.separatedTrailing (objectEntry pipe alternative) (mark .comma)) .rightBrace)
      fun entries => [.object entries] :=
    Takes.between hentries _ _ fun taken entries l r h hl hr => .object hl hr (by simpa using h.1) h.2
  exact hbraces.bind fun taken entries hobject => .pure (by rwa [List.append_nil])

end

/-! ### Operators -/

section

variable {β : Type} {s : List Token} {es : List Expr}

theorem Built.signs {e : Expr} (signs : List Unit) (h : Built s [e]) :
    Built s [signs.foldr (fun _ e => negate e) e] := by
  induction signs with
  | nil => exact h
  | cons sign signs ih =>
    show Built s [negate (signs.foldr (fun _ e => negate e) e)]
    unfold negate
    split
    · exact ih.only rfl nofun
    · exact ih.only rfl fun x hx => hx

theorem operator_builds (op : BinaryOp) {kind : TokenKind} (h : isDelimiter kind = false) :
    Builds (operator op kind) fun _ => [] :=
  (builds_token h).bind fun _ _ htoken => .pure (htoken.append .nil)

theorem choiceOf_builds (ops : List BinaryOp) : Builds (choiceOf ops) fun _ => [] := by
  refine Takes.firstOf (List.forall_iff_forall_mem.2 fun p hp => ?_)
  obtain ⟨op, -, rfl⟩ := List.mem_map.1 hp
  exact operator_builds op (by cases op <;> rfl)

theorem operators_build (ℓ : Level) : Builds (operators ℓ) fun _ => [] := by
  cases ℓ with
  | disjunction => exact operator_builds .or rfl
  | conjunction => exact operator_builds .and rfl
  | comparison => exact choiceOf_builds [.eq, .ne, .le, .ge, .lt, .gt]
  | sum => exact choiceOf_builds [.add, .sub]
  | product => exact choiceOf_builds [.mul, .div, .mod]
  | _ => exact Takes.never

theorem operand_builds (ℓ : Level) {right : Parser Expr} (h : Builds right fun e => [e]) :
    Builds (operand (operators ℓ) right) fun other => [other.2] :=
  (operators_build ℓ).bind fun _ _ hop => h.bind fun _ _ he => .pure (hop.append (he.append .nil))

/-- A level of the grammar with operators between operands of the next one. -/
theorem level_builds (ℓ : Level) {next : Parser Expr} (h : Builds next fun e => [e]) :
    Builds (chain next (operand (operators ℓ) next) grouped) fun e => [e] :=
  chain_builds h (operand_builds ℓ h) fun _ _ => ⟨rfl, fun _ hx => hx⟩

/-- An operand, and perhaps another one that it is joined to. -/
theorem joined_builds {lead : Parser Expr} {other : Parser β} {inner : β → List Expr}
    (hlead : Builds lead fun e => [e]) (hother : Builds other inner) {join : Expr → Option β → Expr}
    (hnone : ∀ e, join e none = e)
    (hsome : ∀ e b, (join e (some b)).isPlain = true ∧ ∀ x ∈ (join e (some b)).parts, x ∈ e :: inner b) :
    Builds (do
      let left ← lead
      let right ← optional other
      return join left right) fun e => [e] := by
  refine hlead.bind fun _ left hleft => hother.optional.bind fun _ right hright => .pure ?_
  have hboth := hleft.append (hright.append .nil)
  cases right with
  | none =>
    rw [hnone]
    exact hboth.among (by simp)
  | some right => exact hboth.only (hsome left right).1 fun x hx => by simpa using (hsome left right).2 x hx

theorem comparison_builds {sums : Parser Expr} (h : Builds sums fun e => [e]) :
    Builds (comparison sums sums) fun e => [e] :=
  joined_builds h (operand_builds .comparison h) (fun _ => rfl) fun _ _ => ⟨rfl, fun _ hx => hx⟩

theorem alternatives_build {operation rest : Parser Expr} (h : Builds operation fun e => [e])
    (hrest : Builds rest fun e => [e]) : Builds (alternatives operation rest) fun e => [e] :=
  joined_builds h (hrest.behind rfl) (fun _ => rfl) fun _ _ => ⟨rfl, fun _ hx => hx⟩

theorem piped_builds {comma rest : Parser Expr} (h : Builds comma fun e => [e])
    (hrest : Builds rest fun e => [e]) : Builds (piped comma rest) fun e => [e] :=
  joined_builds h (hrest.behind rfl) (fun _ => rfl) fun _ _ => ⟨rfl, fun _ hx => hx⟩

theorem definition_builds {pipe : Parser Expr} (h : Builds pipe fun e => [e]) :
    Builds (definition pipe) fun e => [e] := by
  refine (builds_token rfl).bind fun _ _ hword => identifier_builds.bind fun _ name hname =>
    (builds_token rfl).bind fun _ _ hcolon => h.bind fun _ body hbody =>
    (builds_token rfl).bind fun _ _ hsemicolon => h.bind fun _ rest hrest => .pure ?_
  exact (hword.append (hname.append (hcolon.append (hbody.append (hsemicolon.append
    (hrest.append .nil)))))).only rfl fun x hx => by simpa [Expr.parts] using hx

theorem binding_builds {postfixed pipe : Parser Expr} (hpostfixed : Builds postfixed fun e => [e])
    (h : Builds pipe fun e => [e]) : Builds (binding postfixed pipe) fun e => [e] := by
  refine hpostfixed.bind fun _ source hsource => (builds_token rfl).bind fun _ _ hword =>
    variableName_builds.bind fun _ name hname => (builds_token rfl).bind fun _ _ hmark =>
    h.bind fun _ body hbody => .pure ?_
  exact (hsource.append (hword.append (hname.append (hmark.append (hbody.append .nil))))).only rfl
    fun x hx => by simpa [Expr.parts] using hx

end

/-! ### Rules -/

/-- The rules build every filter that they read from its tokens. -/
structure Rules.Building (r : Rules) : Prop where
  pipe : Builds r.pipe fun e => [e]
  alternative : Builds r.alternative fun e => [e]
  postfixed : Builds r.postfixed fun e => [e]

namespace Rules.Building

variable {r : Rules} (h : r.Building)
include h

theorem primary : Builds (primary r) fun e => [e] := by
  have hfield {s : List Token} (name : String) (h : Built s []) : Built s [.field .identity name] :=
    (h.plain (e := .identity) rfl nofun).only rfl fun x hx => hx
  refine Takes.firstOf ⟨?_, ?_, ?_, ?_, literal_builds, variableUse_builds, conditional_builds h.pipe,
    guarded_builds h.postfixed, reduction_builds h.pipe h.postfixed, call_builds h.pipe,
    h.pipe.between rfl, arrayConstruction_builds h.pipe, objectConstruction_builds h.pipe h.alternative⟩
  · exact (builds_token rfl).bind fun _ _ hdot => stringText_builds.bind fun _ name hname =>
      .pure (hfield name (hdot.append (hname.append .nil)))
  · exact fieldName_builds.bind fun _ name hname => .pure (hfield name (hname.append .nil))
  · exact (builds_token rfl).bind fun _ _ hdots => .pure ((hdots.append .nil).only rfl nofun)
  · exact (builds_token rfl).bind fun _ _ hdot => .pure ((hdot.append .nil).only rfl nofun)

theorem tight : Builds r.tight fun e => [e] :=
  chain_builds h.primary (suffix_builds h.pipe) Suffix.parts_apply

theorem signed : Builds r.signed fun e => [e] := by
  have hminus : Builds (many (mark .minus)) fun signs => signs.flatMap fun _ => [] :=
    Builds.many (builds_token rfl)
  refine hminus.bind fun _ signs hsigns => ?_
  dsimp only
  rw [ite_self]
  refine h.tight.bind fun _ e he => .pure ?_
  exact ((hsigns.append (he.append .nil)).among (by simp)).signs signs

theorem alternated : Builds r.alternated fun e => [e] :=
  -- A chain starts with its first operand, down to the signs.
  have hsums := level_builds .sum (level_builds .product h.signed)
  have hdisjunctions := level_builds .disjunction (level_builds .conjunction (comparison_builds hsums))
  alternatives_build hdisjunctions h.alternative

theorem listed : Builds r.listed fun e => [e] :=
  chain_builds h.alternated (h.alternated.behind rfl) fun _ _ => ⟨rfl, fun _ hx => hx⟩

theorem whole : Builds r.whole fun e => [e] := by
  have hbranches : Builds (firstOf [definition r.pipe, binding r.tight r.pipe, piped r.listed r.pipe])
      fun e => [e] :=
    Takes.firstOf ⟨definition_builds h.pipe, binding_builds h.tight h.pipe, piped_builds h.listed h.pipe⟩
  intro c e rest furthest hread
  rw [whole_eq] at hread
  exact hbranches hread

end Rules.Building

theorem Rules.upTo_building (n : Nat) : (upTo n).Building := by
  induction n with
  | zero => exact ⟨Takes.never, Takes.never, Takes.never⟩
  | succ n ih => exact ⟨ih.whole, ih.alternated, ih.tight⟩

/-- **Filters that are read are built from their tokens**, those in front of the end of the filter. -/
theorem parse_built {tokens : List Token} {e : Expr} (h : parse tokens = .ok e) :
    ∃ taken last behind, tokens = taken ++ last :: behind ∧ last.kind = .eof ∧ Built taken [e] := by
  unfold parse at h
  split at h
  · next body rest furthest hread =>
    cases h
    have hwhole : Takes (wholeFilter tokens.length) fun taken e =>
        ∃ s last, taken = s ++ [last] ∧ last.kind = .eof ∧ Built s [e] := by
      refine (Rules.upTo_building _).pipe.bind fun s e he => (Takes.token _).bind fun _ _ hend => .pure ?_
      obtain ⟨last, rfl, hlast⟩ := hend
      exact ⟨s, last, rfl, hlast, he⟩
    obtain ⟨_, htaken, s, last, rfl, hlast, hbody⟩ := hwhole hread
    have htokens : tokens = s ++ [last] ++ rest.tokens := htaken.tokens
    exact ⟨s, last, rest.tokens, by rw [htokens, List.append_assoc]; rfl, hlast, hbody⟩
  · cases h

/-! ### Complete objects -/

theorem Built.complete {s : List Token} {es : List Expr} (h : Built s es) : ∀ e ∈ es, e.Complete := by
  induction h with
  | nil | token | key => exact List.forall_mem_nil _
  | wrap _ _ ih => exact ih
  | append _ _ ih ih' => exact List.forall_mem_append.2 ⟨ih, ih'⟩
  | among _ hes ih => exact fun e he => ih e (hes e he)
  | @plain s es e _ he hparts ih =>
    have hkeys : e.KeysHaveValues := by cases e <;> first | exact trivial | cases he
    exact List.forall_mem_cons.2 ⟨.ofParts hkeys fun x hx => ih x (hparts x hx), ih⟩
  | «variable» | name => exact List.forall_mem_singleton.2 (.ofParts trivial (List.forall_mem_nil _))
  | call _ _ _ _ _ ih | array _ _ _ ih => exact List.forall_mem_singleton.2 (.ofParts trivial ih)
  | object _ _ hvalues _ ih =>
    refine List.forall_mem_singleton.2 (.ofParts hvalues fun x hx => ?_)
    obtain ⟨entry, hentry, hx⟩ := List.mem_flatMap.1 hx
    exact ih ⟨.mark .comma, default⟩ rfl x (List.mem_flatMap.2 ⟨entry, hentry, Expr.mem_entryFilters hx⟩)

/-- **Every filter that is read is complete.** -/
theorem parse_complete {tokens : List Token} {e : Expr} (h : parse tokens = .ok e) : e.Complete := by
  obtain ⟨taken, last, behind, -, -, hbuilt⟩ := parse_built h
  exact hbuilt.complete e List.mem_cons_self

end JsonFilter.Filter
