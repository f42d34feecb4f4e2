import JsonFilter.Proofs.Filter.Consumption
import JsonFilter.Proofs.Filter.KeyPlaces
import JsonFilter.Proofs.Filter.PrintedPrimaries

/-!
# Filters with quoted keys

The grammar reads a key that is a reserved word and the string of the same word alike, and reads keys nowhere but
in their places.  So tokens that differ in such keys are the same filter, or none.

A filter is read inside of what is open around it and ends there, which `ReadsAlike` says for any frames.  Only a
filter with commas may not stand directly inside of an object: there its commas would be those between the entries.

* `objectKey_abreast` — the one rule that reads keys.
* **`Rules.upTo_alike`** — the rules of the grammar read tokens with quoted keys alike.
* **`parse_keysQuoted`** — so does the grammar as a whole.
-/

namespace JsonFilter.Filter

open JsonFilter.Filter.Parser (Reads Takes Matches Abreast Arriving mark keyword chain many optional firstOf)
open JsonFilter.Filter.Expr (Same eraseMaybe eraseKey eraseEntries eraseAll)

/-! ### Filters up to spans -/

theorem eraseSpans_negate (e : Expr) : (negate e).eraseSpans = negate e.eraseSpans := by
  cases e with
  | literal value => cases value <;> rfl
  | _ => rfl

theorem same_signs (signs : List Unit) {e e' : Expr} (he : Same e e') :
    Same (signs.foldr (fun _ e => negate e) e) (signs.foldr (fun _ e => negate e) e') := by
  induction signs with
  | nil => exact he
  | cons _ signs ih =>
    show (negate _).eraseSpans = (negate _).eraseSpans
    rw [eraseSpans_negate, eraseSpans_negate, ih]

/-- The same suffix, up to spans: it makes the same filter of the same target. -/
def Suffix.Same (s s' : Suffix) : Prop := ∀ e e', Expr.Same e e' → Expr.Same (s.apply e) (s'.apply e')

/-- The same branch of a conditional, up to spans. -/
def SameBranch (branch branch' : Expr × Expr) : Prop := Same branch.1 branch'.1 ∧ Same branch.2 branch'.2

theorem eraseMaybe_branches {further further' : List (Expr × Expr)} (h : List.Forall₂ SameBranch further further')
    {no no' : Option Expr} (hno : eraseMaybe no' = eraseMaybe no) :
    eraseMaybe (further'.foldr (fun (test, yes) no => some (.cond test yes no)) no') =
      eraseMaybe (further.foldr (fun (test, yes) no => some (.cond test yes no)) no) := by
  induction h with
  | nil => exact hno
  | cons hbranch _ ih => simp only [List.foldr_cons, eraseMaybe, Expr.eraseSpans, ih, hbranch.1, hbranch.2]

/-- What is built on by the same items is the same. -/
theorem same_foldl {β : Type} {R : β → β → Prop} {step : Expr → β → Expr}
    (hstep : ∀ e e' b b', Same e e' → R b b' → Same (step e b) (step e' b')) {items items' : List β}
    (hitems : List.Forall₂ R items items') {e e' : Expr} (he : Same e e') :
    Same (items.foldl step e) (items'.foldl step e') := by
  induction hitems generalizing e e' with
  | nil => exact he
  | cons hb _ ih => exact ih (hstep _ _ _ _ he hb)

/-! ### Operands and chains -/

/-- A reading of filters inside of what is open: the same filter in both lists, and what was open still is. -/
abbrev ReadsAlike (frames : List Frame) (p : Parser Expr) : Prop :=
  Abreast ⟨frames, false⟩ p p (Arriving ⟨frames, false⟩ Same)

section

variable {β : Type} {frames : List Frame} {p lead other : Parser Expr} {item : Parser β} {R : β → β → Prop}

theorem ReadsAlike.optional (h : ReadsAlike frames p) :
    Abreast ⟨frames, false⟩ (optional p) (optional p)
      (Arriving ⟨frames, false⟩ fun o o' => eraseMaybe o' = eraseMaybe o) :=
  Abreast.optional h rfl fun _ _ he => congrArg some he

/-- A filter behind a token that leaves open what is open. -/
theorem ReadsAlike.behind (h : ReadsAlike frames p) {k : TokenKind}
    (hk : Scene.after ⟨frames, false⟩ k = ⟨frames, false⟩) : ReadsAlike frames (do Parser.token k; p) :=
  (Abreast.unkeyed rfl k).bind fun _ _ _ => by rwa [hk]

theorem chain_alike (hlead : ReadsAlike frames lead)
    (hitem : Abreast ⟨frames, false⟩ item item (Arriving ⟨frames, false⟩ R)) {step : Expr → β → Expr}
    (hstep : ∀ e e' b b', Same e e' → R b b' → Same (step e b) (step e' b')) :
    ReadsAlike frames (chain lead item step) :=
  hlead.bind fun _ _ hfirst => hitem.many.bind fun _ _ hothers => .pure (same_foldl hstep hothers hfirst)

/-- A filter, and perhaps something that it is joined to. -/
theorem joined_alike (hlead : ReadsAlike frames lead)
    (hitem : Abreast ⟨frames, false⟩ item item (Arriving ⟨frames, false⟩ R)) {join : Expr → Option β → Expr}
    (hnone : ∀ e, join e none = e)
    (hsome : ∀ e e' b b', Same e e' → R b b' → Same (join e (some b)) (join e' (some b'))) :
    ReadsAlike frames (do
      let left ← lead
      let right ← optional item
      return join left right) := by
  refine hlead.bind fun left left' hleft => ?_
  have hright : Abreast ⟨frames, false⟩ (optional item) (optional item)
      (Arriving ⟨frames, false⟩ fun o o' => Same (join left o) (join left' o')) :=
    Abreast.optional hitem (by rwa [hnone, hnone]) fun b b' hb => hsome _ _ _ _ hleft hb
  exact hright.bind fun _ _ h => .pure h

end

/-! ### Suffixes -/

section

variable {pipe postfixed alternative : Parser Expr} {frames : List Frame}

theorem name_alike {f : TokenKind → Option String} (σ : Scene)
    (hword : ∀ word : Keyword, f (.keyword word) = none) (hstring : ∀ text : String, f (.string text) = none)
    (hafter : ∀ k name, f k = some name → σ.after k = ⟨σ.frames, false⟩) :
    Abreast σ (Parser.select f) (Parser.select f) (Arriving ⟨σ.frames, false⟩ Eq) :=
  .select (fun _ word => ⟨hword word, hstring word.text⟩) hafter

theorem identifier_alike (σ : Scene) : Abreast σ identifier identifier (Arriving ⟨σ.frames, false⟩ Eq) :=
  name_alike σ (fun _ => rfl) (fun _ => rfl) fun k a hk => by cases k <;> first | rfl | cases hk

theorem variableName_alike (σ : Scene) : Abreast σ variableName variableName (Arriving ⟨σ.frames, false⟩ Eq) :=
  name_alike σ (fun _ => rfl) (fun _ => rfl) fun k a hk => by cases k <;> first | rfl | cases hk

theorem fieldName_alike (σ : Scene) : Abreast σ fieldName fieldName (Arriving ⟨σ.frames, false⟩ Eq) :=
  name_alike σ (fun _ => rfl) (fun _ => rfl) fun k a hk => by cases k <;> first | rfl | cases hk

theorem stringText_alike (frames : List Frame) :
    Abreast ⟨frames, false⟩ stringText stringText (Arriving ⟨frames, false⟩ Eq) :=
  .select (fun hkeyed => absurd hkeyed Bool.false_ne_true) fun k a hk => by cases k <;> first | rfl | cases hk

theorem literal_alike (frames : List Frame) : ReadsAlike frames literal := by
  refine (Abreast.select (fun hkeyed => absurd hkeyed Bool.false_ne_true) fun k e hk => ?_).mono
    fun e e' he => by rw [he]
  split at hk <;> cases hk <;> rfl

variable (hpipe : ∀ frames : List Frame, frames.head? ≠ some .brace → ReadsAlike frames pipe)
include hpipe

theorem bracketed_alike : Abreast ⟨frames, false⟩ (bracketed pipe pipe) (bracketed pipe pipe)
    (Arriving ⟨frames, false⟩ Suffix.Same) := by
  have hinner : ReadsAlike (.bracket :: frames) pipe := hpipe _ (by simp)
  refine .firstOf ⟨?_, ?_, ?_⟩
  · refine (Abreast.mark .leftBracket).bind fun _ _ _ => (Abreast.mark .rightBracket).bind fun _ _ _ => .pure ?_
    intro e e' he
    simp only [Same, Suffix.apply, Expr.eraseSpans, he]
  · refine .brackets _ ?_
    refine hinner.optional.bind fun start start' hstart => (Abreast.mark .colon).bind fun _ _ _ =>
      hinner.optional.bind fun stop stop' hstop => .pure ?_
    intro e e' he
    simp only [Same, Suffix.apply, Expr.eraseSpans, he, hstart, hstop]
  · refine .brackets _ ?_
    refine hinner.bind fun i i' hi => .pure ?_
    intro e e' he
    simp only [Same, Suffix.apply, Expr.eraseSpans, he, hi]

theorem bracketSuffix_alike : Abreast ⟨frames, false⟩ (bracketSuffix pipe) (bracketSuffix pipe)
    (Arriving ⟨frames, false⟩ Suffix.Same) := by
  intro c c' hc
  have hmark : Matches _ (mark .leftBracket c) (mark .leftBracket c') := Abreast.mark .leftBracket hc
  cases hleft : mark .leftBracket c with
  | failure e =>
    cases hleft' : mark .leftBracket c' with
    | failure e' =>
      unfold bracketSuffix
      rw [hleft, hleft']
      exact .failure
    | success _ _ _ =>
      rw [hleft, hleft'] at hmark
      cases hmark
  | success u behind furthest =>
    cases hleft' : mark .leftBracket c' with
    | failure e' =>
      rw [hleft, hleft'] at hmark
      cases hmark
    | success u' behind' furthest' =>
      rw [bracketSuffix_eq pipe (Takes.kinds_of_token hleft), bracketSuffix_eq pipe (Takes.kinds_of_token hleft')]
      exact bracketed_alike hpipe hc

theorem suffix_alike : Abreast ⟨frames, false⟩ (suffix pipe) (suffix pipe)
    (Arriving ⟨frames, false⟩ Suffix.Same) := by
  have hfield (name name' : String) (h : name = name') : Suffix.Same (.field name) (.field name') := by
    intro e e' he
    simp only [Same, Suffix.apply, Expr.eraseSpans, he, h]
  refine .firstOf ⟨?_, ?_, bracketSuffix_alike hpipe, ?_, ?_⟩
  · exact (fieldName_alike _).bind fun _ _ h => .pure (hfield _ _ h)
  · exact (Abreast.mark .dot).bind fun _ _ _ => (stringText_alike frames).bind fun _ _ h => .pure (hfield _ _ h)
  · exact (Abreast.mark .dot).bind fun _ _ _ => bracketSuffix_alike hpipe
  · refine (Abreast.mark .question).bind fun _ _ _ => .pure ?_
    intro e e' he
    simp only [Same, Suffix.apply, Expr.eraseSpans, he, eraseMaybe]

/-! ### Primaries -/

theorem call_alike : ReadsAlike frames (call pipe) := by
  have hinner : ReadsAlike (.paren :: frames) pipe := hpipe _ (by simp)
  have hargs : Abreast ⟨frames, false⟩ (optional (Parser.between .leftParen
      (Parser.separated pipe (mark .semicolon)) .rightParen)) _
      (Arriving ⟨frames, false⟩ fun o o' => eraseAll (o'.getD []) = eraseAll (o.getD [])) :=
    (Abreast.parens _ (.separated (.mark .semicolon) hinner)).optional rfl
      fun _ _ h => eraseAll_of_forall₂ h
  refine .withSpan ((identifier_alike _).bind fun name name' hname => hargs.bind fun args args' hargs => .pure ?_)
  intro span span'
  simp only [Same, Expr.eraseSpans, hname, hargs]

theorem conditional_alike : ReadsAlike frames (conditional pipe) := by
  have hinner : ReadsAlike (.cond :: frames) pipe := hpipe _ (by simp)
  have hbranch : Abreast ⟨.cond :: frames, false⟩ (do
      keyword .elifWord
      let test ← pipe
      keyword .thenWord
      return (test, ← pipe)) _ (Arriving ⟨.cond :: frames, false⟩ SameBranch) :=
    (Abreast.unkeyed rfl _).bind fun _ _ _ => hinner.bind fun _ _ htest =>
      (Abreast.unkeyed rfl _).bind fun _ _ _ => hinner.bind fun _ _ hyes =>
        .pure (show SameBranch (_, _) (_, _) from ⟨htest, hyes⟩)
  have helse : ReadsAlike (.cond :: frames) (do
      keyword .elseWord
      pipe) := hinner.behind rfl
  refine (Abreast.unkeyed rfl _).bind fun _ _ _ => hinner.bind fun test test' htest => ?_
  refine (Abreast.unkeyed rfl _).bind fun _ _ _ => hinner.bind fun yes yes' hyes => ?_
  refine hbranch.many.bind fun further further' hfurther => helse.optional.bind fun no no' hno => ?_
  refine (Abreast.unkeyed rfl _).bind fun _ _ _ => .pure ?_
  simp only [Same, Expr.eraseSpans, htest, hyes, eraseMaybe_branches hfurther hno]

theorem reduction_alike (hpostfixed : ReadsAlike frames postfixed) :
    ReadsAlike frames (reduction pipe postfixed) := by
  have hinner : ReadsAlike (.paren :: frames) pipe := hpipe _ (by simp)
  refine (Abreast.unkeyed rfl _).bind fun _ _ _ => hpostfixed.bind fun source source' hsource => ?_
  refine (Abreast.unkeyed rfl _).bind fun _ _ _ => (variableName_alike _).bind fun var var' hvar => ?_
  refine (Abreast.mark .leftParen).bind fun _ _ _ => hinner.bind fun init init' hinit => ?_
  refine (Abreast.mark .semicolon).bind fun _ _ _ => hinner.bind fun update update' hupdate => ?_
  refine (Abreast.mark .rightParen).bind fun _ _ _ => .pure ?_
  simp only [Same, Expr.eraseSpans, hsource, hvar, hinit, hupdate]

theorem arrayConstruction_alike : ReadsAlike frames (arrayConstruction pipe) := by
  have hinner : ReadsAlike (.bracket :: frames) pipe := hpipe _ (by simp)
  refine (Abreast.brackets _ hinner.optional).bind fun body body' hbody => .pure ?_
  simp only [Same, Expr.eraseSpans, hbody]

omit hpipe in
theorem guarded_alike (hpostfixed : ReadsAlike frames postfixed) : ReadsAlike frames (guarded postfixed) := by
  have hhandler : ReadsAlike frames (do
      keyword .catchWord
      postfixed) := hpostfixed.behind rfl
  refine (Abreast.unkeyed rfl _).bind fun _ _ _ => hpostfixed.bind fun body body' hbody => ?_
  refine hhandler.optional.bind fun handler handler' hhandler => .pure ?_
  simp only [Same, Expr.eraseSpans, hbody, hhandler]

/-! ### Objects -/

omit hpipe in
/-- A string is read as the key that the reserved word is. -/
theorem objectKey_matches {c c' : Cursor} {word : Keyword} {kinds kinds' : List TokenKind}
    (hc : c.kinds = .keyword word :: kinds) (hc' : c'.kinds = .string word.text :: kinds')
    (hrest : KeysQuoted ⟨frames, false⟩ kinds kinds') :
    Matches (Arriving ⟨frames, false⟩ fun key key' => eraseKey key' = eraseKey key)
      (objectKey pipe c) (objectKey pipe c') := by
  have hkeyword : keywordName.Reads c kinds fun name => name = word.text := .select hc rfl
  have hstring : stringText.Reads c' kinds' fun name => name = word.text := .select hc' rfl
  have hread : (objectKey pipe).Reads c kinds fun key => key = .static word.text := by
    refine .firstOf (.ofHeads (keys_need pipe) hc 2 rfl rfl (hkeyword.bind fun name _ hbehind hname => ?_))
    exact .pure hbehind (congrArg ObjectKey.static hname)
  have hread' : (objectKey pipe).Reads c' kinds' fun key => key = .static word.text := by
    refine .firstOf (.ofHeads (keys_need pipe) hc' 3 rfl rfl (hstring.bind fun name _ hbehind hname => ?_))
    exact .pure hbehind (congrArg ObjectKey.static hname)
  obtain ⟨key, behind, furthest, hsuccess, rfl, rfl⟩ := hread
  obtain ⟨key', behind', furthest', hsuccess', rfl, rfl⟩ := hread'
  rw [hsuccess, hsuccess']
  exact .success hrest ⟨rfl, rfl⟩

/-- **Keys are read alike**, bare or quoted. -/
theorem objectKey_abreast : Abreast ⟨.brace :: frames, true⟩ (objectKey pipe) (objectKey pipe)
    (Arriving ⟨.brace :: frames, false⟩ fun key key' => eraseKey key' = eraseKey key) := by
  intro c c' hc
  have hboth := hc
  generalize hkinds : c.kinds = kinds at hc
  generalize hkinds' : c'.kinds = kinds' at hc
  cases hc with
  | key _ hrest => exact objectKey_matches hkinds hkinds' hrest
  | nil =>
    obtain ⟨f, hf⟩ := objectKey_needs pipe c (by simp [hkinds])
    obtain ⟨f', hf'⟩ := objectKey_needs pipe c' (by simp [hkinds'])
    rw [hf, hf']
    exact .failure
  | same hrest =>
    -- The same token is a key of the same kind, also if it is a reserved word.
    have hname {f : TokenKind → Option String}
        (hafter : ∀ k name, f k = some name → Scene.after ⟨.brace :: frames, true⟩ k = ⟨.brace :: frames, false⟩) :
        Matches (Arriving ⟨.brace :: frames, false⟩ fun key key' => eraseKey key' = eraseKey key)
          ((do return .static (← Parser.select f) : Parser (ObjectKey Expr)) c)
          ((do return .static (← Parser.select f) : Parser (ObjectKey Expr)) c') := by
      refine (Matches.select hkinds hkinds' hrest).bind ?_
      rintro τ name name' ⟨rfl, hname, rfl⟩
      rw [hafter _ _ hname]
      exact .pure rfl
    refine Matches.firstOf (List.forall_iff_forall_mem.1 ⟨?_, hname ?_, hname ?_, hname ?_, ?_⟩)
    · refine Abreast.withSpan ((variableName_alike _).bind fun name name' hname => .pure fun span span' => ?_) hboth
      simp only [eraseKey, hname]
    · exact fun k name hk => by cases k <;> first | rfl | cases hk
    · intro k name hk
      cases k with
      | keyword word => exact Scene.after_keyword_of_keyed rfl word
      | _ => cases hk
    · exact fun k name hk => by cases k <;> first | rfl | cases hk
    · have hinner : ReadsAlike (.paren :: .brace :: frames) pipe := hpipe _ (by simp)
      refine (Abreast.parens _ hinner).bind (fun e e' he => .pure ?_) hboth
      simp only [eraseKey, he]

theorem objectEntry_alike (halternative : ReadsAlike (.brace :: frames) alternative) :
    Abreast ⟨.brace :: frames, true⟩ (objectEntry pipe alternative) (objectEntry pipe alternative)
      (Arriving ⟨.brace :: frames, false⟩ SameEntry) := by
  have hvalue : ReadsAlike (.brace :: frames) (objectValue alternative) := by
    refine chain_alike halternative (halternative.behind rfl) fun e e' b b' he hb => ?_
    simp only [Same, Expr.eraseSpans, he, hb]
  refine .ensure ((objectKey_abreast hpipe).bind fun key key' hkey => (hvalue.behind rfl).optional.bind
    fun value value' hvalue => .pure (show SameEntry (_, _) (_, _) from ⟨hkey, hvalue⟩)) ?_ _
  intro entry entry' hentry
  rw [lacksValue_of_erase hentry.1 hentry.2]

/-- **What stands between braces** ends behind an entry, or behind the comma in front of the next one. -/
theorem objectConstruction_alike (halternative : ReadsAlike (.brace :: frames) alternative) :
    ReadsAlike frames (objectConstruction pipe alternative) := by
  have hcomma : Abreast ⟨.brace :: frames, false⟩ (mark .comma) (mark .comma)
      (Arriving ⟨.brace :: frames, true⟩ Eq) := Abreast.mark .comma
  have hentries : Abreast ⟨.brace :: frames, true⟩ (Parser.separatedTrailing (objectEntry pipe alternative) (mark .comma))
      (Parser.separatedTrailing (objectEntry pipe alternative) (mark .comma)) fun τ entries entries' =>
        τ.frames = .brace :: frames ∧ eraseEntries entries' = eraseEntries entries := by
    refine (Abreast.separatedTrailing hcomma (objectEntry_alike hpipe halternative)).imp ?_
    rintro τ entries entries' ⟨rfl | rfl, h⟩
    · exact ⟨rfl, eraseEntries_of_forall₂ h⟩
    · exact ⟨rfl, eraseEntries_of_forall₂ h⟩
  refine (Abreast.braces ⟨frames, false⟩ hentries).bind fun entries entries' h => .pure ?_
  simp only [Same, Expr.eraseSpans, h]

end

/-! ### Operators -/

section

variable {frames : List Frame} {p rest : Parser Expr}

theorem operator_alike (op : BinaryOp) {kind : TokenKind} (h : Scene.after ⟨frames, false⟩ kind = ⟨frames, false⟩) :
    Abreast ⟨frames, false⟩ (operator op kind) (operator op kind) (Arriving ⟨frames, false⟩ Eq) :=
  (Abreast.unkeyed rfl kind).bind fun _ _ _ => by
    rw [h]
    exact .pure rfl

theorem choiceOf_alike (ops : List BinaryOp) :
    Abreast ⟨frames, false⟩ (choiceOf ops) (choiceOf ops) (Arriving ⟨frames, false⟩ Eq) := by
  refine .firstOf (List.forall_iff_forall_mem.2 fun p hp => ?_)
  obtain ⟨op, -, rfl⟩ := List.mem_map.1 hp
  exact operator_alike op (by cases op <;> rfl)

theorem operators_alike (ℓ : Level) :
    Abreast ⟨frames, false⟩ (operators ℓ) (operators ℓ) (Arriving ⟨frames, false⟩ Eq) := by
  cases ℓ with
  | disjunction => exact operator_alike .or rfl
  | conjunction => exact operator_alike .and rfl
  | comparison => exact choiceOf_alike [.eq, .ne, .le, .ge, .lt, .gt]
  | sum => exact choiceOf_alike [.add, .sub]
  | product => exact choiceOf_alike [.mul, .div, .mod]
  | _ => exact .never

/-- The same operator with the same right operand, up to spans. -/
def SameOperand (other other' : BinaryOp × Expr) : Prop := other.1 = other'.1 ∧ Same other.2 other'.2

theorem operand_alike (ℓ : Level) (h : ReadsAlike frames p) :
    Abreast ⟨frames, false⟩ (operand (operators ℓ) p) (operand (operators ℓ) p)
      (Arriving ⟨frames, false⟩ SameOperand) :=
  (operators_alike ℓ).bind fun _ _ hop => h.bind fun _ _ he =>
    .pure (show SameOperand (_, _) (_, _) from ⟨hop, he⟩)

theorem same_grouped (e e' : Expr) (other other' : BinaryOp × Expr) (he : Same e e')
    (h : SameOperand other other') : Same (grouped e other) (grouped e' other') := by
  obtain ⟨hop, hright⟩ := h
  simp only [Same, grouped, Expr.eraseSpans, he, hop, hright]

/-- A level of the grammar with operators between operands of the next one. -/
theorem level_alike (ℓ : Level) (h : ReadsAlike frames p) :
    ReadsAlike frames (chain p (operand (operators ℓ) p) grouped) :=
  chain_alike h (operand_alike ℓ h) same_grouped

theorem comparison_alike (h : ReadsAlike frames p) : ReadsAlike frames (comparison p p) :=
  joined_alike h (operand_alike .comparison h) (fun _ => rfl) same_grouped

theorem alternatives_alike (h : ReadsAlike frames p) (hrest : ReadsAlike frames rest) :
    ReadsAlike frames (alternatives p rest) := by
  refine joined_alike h (hrest.behind rfl) (fun _ => rfl) fun e e' b b' he hb => ?_
  simp only [Same, Expr.eraseSpans, he, hb]

theorem piped_alike (h : ReadsAlike frames p) (hrest : ReadsAlike frames rest) :
    ReadsAlike frames (piped p rest) := by
  refine joined_alike h (hrest.behind rfl) (fun _ => rfl) fun e e' b b' he hb => ?_
  simp only [Same, Expr.eraseSpans, he, hb]

theorem definition_alike (h : ReadsAlike frames p) : ReadsAlike frames (definition p) := by
  refine (Abreast.unkeyed rfl _).bind fun _ _ _ => (identifier_alike _).bind fun name name' hname => ?_
  refine (Abreast.mark .colon).bind fun _ _ _ => h.bind fun body body' hbody => ?_
  refine (Abreast.mark .semicolon).bind fun _ _ _ => h.bind fun rest rest' hrest => .pure ?_
  simp only [Same, Expr.eraseSpans, hname, hbody, hrest]

theorem binding_alike (hpostfixed : ReadsAlike frames p) (h : ReadsAlike frames rest) :
    ReadsAlike frames (binding p rest) := by
  refine hpostfixed.bind fun source source' hsource => (Abreast.unkeyed rfl _).bind fun _ _ _ => ?_
  refine (variableName_alike _).bind fun var var' hvar => (Abreast.mark .pipe).bind fun _ _ _ => ?_
  refine h.bind fun body body' hbody => .pure ?_
  simp only [Same, Expr.eraseSpans, hsource, hvar, hbody]

end

/-! ### Rules -/

/-- The rules read tokens with quoted keys alike.  A whole filter has commas, so it does not stand directly inside of
an object. -/
structure Rules.Alike (r : Rules) : Prop where
  pipe : ∀ frames : List Frame, frames.head? ≠ some .brace → ReadsAlike frames r.pipe
  alternative : ∀ frames : List Frame, ReadsAlike frames r.alternative
  postfixed : ∀ frames : List Frame, ReadsAlike frames r.postfixed

namespace Rules.Alike

variable {r : Rules} (h : r.Alike) {frames : List Frame}
include h

theorem primary : ReadsAlike frames (primary r) := by
  have hfield (name name' : String) (h : name = name') : Same (.field .identity name) (.field .identity name') := by
    rw [h]
  refine .firstOf ⟨?_, ?_, ?_, ?_, literal_alike frames, ?_, conditional_alike h.pipe,
    guarded_alike (h.postfixed frames), reduction_alike h.pipe (h.postfixed frames), call_alike h.pipe,
    .parens _ (h.pipe _ (by simp)), arrayConstruction_alike h.pipe,
    objectConstruction_alike h.pipe (h.alternative _)⟩
  · exact (Abreast.mark .dot).bind fun _ _ _ => (stringText_alike frames).bind fun _ _ h => .pure (hfield _ _ h)
  · exact (fieldName_alike _).bind fun _ _ h => .pure (hfield _ _ h)
  · exact (Abreast.mark .doubleDot).bind fun _ _ _ => .pure rfl
  · exact (Abreast.mark .dot).bind fun _ _ _ => .pure rfl
  · refine .withSpan ((variableName_alike _).bind fun name name' hname => .pure fun span span' => ?_)
    simp only [Same, Expr.eraseSpans, hname]

theorem tight : ReadsAlike frames r.tight :=
  chain_alike h.primary (suffix_alike h.pipe) fun e e' _ _ he hs => hs e e' he

theorem signed : ReadsAlike frames r.signed := by
  have hminus : Abreast ⟨frames, false⟩ (many (mark .minus)) (many (mark .minus))
      (Arriving ⟨frames, false⟩ (List.Forall₂ Eq)) := .many (.mark .minus)
  refine hminus.bind fun signs signs' hsigns => ?_
  obtain rfl := List.forall₂_eq_eq_eq ▸ hsigns
  dsimp only
  rw [ite_self]
  exact h.tight.bind fun _ _ he => .pure (same_signs signs he)

theorem alternated : ReadsAlike frames r.alternated :=
  -- A chain starts with its first operand, down to the signs.
  have hsums := level_alike .sum (level_alike .product h.signed)
  have hdisjunctions := level_alike .disjunction (level_alike .conjunction (comparison_alike hsums))
  alternatives_alike hdisjunctions (h.alternative frames)

theorem listed (hframes : frames.head? ≠ some .brace) : ReadsAlike frames r.listed := by
  refine chain_alike h.alternated (h.alternated.behind (Scene.after_comma hframes)) fun e e' b b' he hb => ?_
  simp only [Same, Expr.eraseSpans, he, hb]

theorem whole (hframes : frames.head? ≠ some .brace) : ReadsAlike frames r.whole := by
  have hpipe := h.pipe frames hframes
  have hbranches : ReadsAlike frames (firstOf [definition r.pipe, binding r.tight r.pipe, piped r.listed r.pipe]) :=
    .firstOf ⟨definition_alike hpipe, binding_alike h.tight hpipe, piped_alike (h.listed hframes) hpipe⟩
  intro c c' hc
  rw [whole_eq, whole_eq]
  exact hbranches hc

end Rules.Alike

/-- **The rules read tokens with quoted keys alike.** -/
theorem Rules.upTo_alike (n : Nat) : (upTo n).Alike := by
  induction n with
  | zero => exact ⟨fun _ _ => .never, fun _ => .never, fun _ => .never⟩
  | succ n ih => exact ⟨fun _ hframes => ih.whole hframes, fun _ => ih.alternated, fun _ => ih.tight⟩

/-- **Tokens with quoted keys are the same filter**, up to spans, or none. -/
theorem parse_keysQuoted {tokens tokens' : List Token}
    (h : KeysQuoted .start (tokens.map Token.kind) (tokens'.map Token.kind)) :
    (parse tokens').toOption.map Expr.eraseSpans = (parse tokens).toOption.map Expr.eraseSpans := by
  have hlength := h.length_eq
  rw [List.length_map, List.length_map] at hlength
  have hwhole : Abreast .start (wholeFilter tokens.length) (wholeFilter tokens.length) (Arriving .start Same) :=
    ((Rules.upTo_alike _).pipe [] nofun).bind fun _ _ he => (Abreast.unkeyed rfl .eof).bind fun _ _ _ => .pure he
  have hreplies : Matches (Arriving .start Same) (wholeFilter tokens.length (.ofTokens tokens))
      (wholeFilter tokens.length (.ofTokens tokens')) := hwhole h
  unfold parse
  rw [hlength]
  generalize wholeFilter tokens.length (.ofTokens tokens) = reply at hreplies ⊢
  generalize wholeFilter tokens.length (.ofTokens tokens') = reply' at hreplies ⊢
  cases hreplies with
  | failure => rfl
  | success _ he => exact congrArg some he.2

end JsonFilter.Filter
