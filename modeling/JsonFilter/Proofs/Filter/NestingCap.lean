import JsonFilter.Proofs.Eval.Names
import JsonFilter.Proofs.Filter.Capacity
import JsonFilter.Proofs.Filter.Layout
import JsonFilter.Proofs.Filter.RoundTrip

/-!
# The cap on nesting

The lexer counts the levels that tokens open and refuses a filter where they pass `maxNesting`.  What nests is
decided by the grammar, which takes a reserved word for a key, where the lexer takes `end` for the end of a
conditional.  So the cap bounds the constructions inside one another but for such keys.

* `Nesting.Within.top_le` — the lexer counts no less than the level.
* `check_nested` — with such keys objects nest as deep as one likes.
* **`constructions_capped`** — a compiled filter nests arrays and objects up to the cap, and one deeper for each `end`
  that is a key.
-/

namespace JsonFilter

open JsonFilter.Filter (Expr Nesting Token TokenKind maxNesting top slope endKeys capacity)
open JsonFilter.Filter.Parser (Reads)
open Json (Value)

namespace Filter

/-! ### The level that the lexer counts -/

namespace Nesting

variable {n : Nesting} {kind : TokenKind} {kinds : List TokenKind}

/-- What is closed without having been opened does not lower the level. -/
theorem add_slope_le (n : Nesting) (kind : TokenKind) : (n.depth : Int) + slope kind ≤ (n.after kind).depth := by
  cases kind with
  | mark m => cases m <;> simp only [slope, after] <;> omega
  | keyword word => cases word <;> simp only [slope, after] <;> omega
  | _ => exact Int.le_of_eq (Int.add_zero _)

theorem after_reported (n : Nesting) (kind : TokenKind) : (n.after kind).reported = n.reported := by
  unfold after
  split <;> rfl

theorem Within.self (h : n.Within kinds) : n.depth + n.leading ≤ maxNesting :=
  h [] ((List.mem_inits _ _).2 List.nil_prefix)

theorem Within.nil (h : n.depth + n.leading ≤ maxNesting) : n.Within [] := by
  intro before hbefore
  cases List.mem_singleton.1 hbefore
  exact h

theorem Within.cons (hn : n.depth + n.leading ≤ maxNesting) (h : (n.after kind).Within kinds) :
    n.Within (kind :: kinds) := by
  intro before hbefore
  cases before with
  | nil => exact hn
  | cons kind' before =>
    obtain ⟨rfl, hprefix⟩ := List.cons_prefix_cons.1 ((List.mem_inits _ _).1 hbefore)
    exact h before ((List.mem_inits _ _).2 hprefix)

/-- **The lexer counts no less than the level.** -/
theorem Within.top_le (h : n.Within kinds) : n.depth + top kinds ≤ maxNesting := by
  have hself := h.self
  induction kinds generalizing n with
  | nil =>
    show (n.depth : Int) + 0 ≤ maxNesting
    omega
  | cons kind kinds ih =>
    have hrest := ih h.tail h.tail.self
    have hstep := n.add_slope_le kind
    rw [top_cons]
    omega

end Nesting

/-- The tokens of a scan without faults stay within the limit. -/
theorem within_of_scan {text : List Char} {skip offset : Nat} {n : Nesting}
    (hn : n.depth + n.leading ≤ maxNesting) (hreported : n.reported = false)
    (hclean : ∀ finding, .inl finding ∉ scan text skip offset n) :
    n.Within (((scan text skip offset n).filterMap Sum.getRight?).map Token.kind) := by
  induction text generalizing skip offset n with
  | nil => exact .nil hn
  | cons c text ih =>
    cases skip with
    | succ skip => exact ih hn hreported hclean
    | zero =>
      rw [scan_cons] at hclean ⊢
      dsimp only at hclean ⊢
      cases hlexeme : (lexemeAt c text).1 with
      | blank =>
        rw [hlexeme] at hclean
        exact ih hn hreported hclean
      | fault wrong ahead =>
        rw [hlexeme] at hclean
        exact absurd List.mem_cons_self (hclean _)
      | token kind =>
        rw [hlexeme] at hclean
        unfold Lexeme.reports at hclean ⊢
        dsimp only at hclean ⊢
        split at hclean
        · exact absurd List.mem_cons_self (hclean _)
        · next hexceeded =>
          rw [if_neg hexceeded]
          have hreported' : (n.after kind).reported = false := (n.after_reported kind).trans hreported
          have hlimit : (n.after kind).depth + (n.after kind).leading ≤ maxNesting := by
            simpa [Nesting.exceeded, hreported'] using hexceeded
          exact .cons hn (ih hlimit hreported' fun finding hfinding =>
            hclean finding (List.mem_cons_of_mem _ hfinding))

/-- **The tokens of a filter rise no higher than the cap.** -/
theorem tokenize_top_le {source : String} {tokens : List Token} (h : tokenize source = .ok tokens) :
    top (tokens.map Token.kind) ≤ maxNesting := by
  obtain ⟨hclean, rfl⟩ := tokenize_eq_ok_iff.1 h
  have hwithin : Nesting.start.Within _ := within_of_scan (Nat.zero_le _) rfl hclean
  have htop := hwithin.top_le
  rw [List.map_append, top_append]
  have hrise := rise_le_top (((scan source.toList 0 0 .start).filterMap Sum.getRight?).map Token.kind)
  show max _ (_ + max 0 (0 + 0)) ≤ _
  have hstart : ((Nesting.start.depth : Nat) : Int) = 0 := rfl
  omega

/-! ### Keys that are reserved words -/

/-- Objects inside one another, each as the value of the key `end`. -/
def nested : Nat → Expr
  | 0 => .literal .null
  | n + 1 => .object [(.static "end", some (nested n))]

/-- Words with a blank behind each. -/
def spaced (words : List String) : List Char := words.flatMap fun word => word.toList ++ [' ']

/-- The text of such objects. -/
def nestedText : Nat → List Char
  | 0 => spaced ["null"]
  | n + 1 => spaced ["\x7b", "end", ":"] ++ (nestedText n ++ spaced ["\x7d"])

section

variable {numberText : Binary64 → String} {n : Nat}

theorem print_nested (n : Nat) : (nested (n + 1)).print numberText =
    .mark .leftBrace :: .keyword .endWord :: .mark .colon :: ((nested n).print numberText ++ [.mark .rightBrace]) := by
  have hkey : keyToken "end" = .keyword .endWord := by decide
  have hplaced : placed .alternative (nested n).level ((nested n).print numberText) =
      (nested n).print numberText := by cases n <;> rfl
  simp only [nested, Expr.print, Expr.printEntries, Expr.printOtherEntries, Expr.printKey, Expr.printValue, hkey,
    hplaced, List.cons_append, List.nil_append, List.append_nil]

theorem nested_regular (n : Nat) : (nested n).Everywhere (Expr.Regular numberText) := by
  induction n with
  | zero => exact .intro ⟨nofun, nofun, trivial⟩ (List.forall_mem_nil _)
  | succ n ih =>
    refine .intro ⟨nofun, nofun, ?_⟩ (List.forall_mem_singleton.2 ih)
    exact List.forall_mem_singleton.2 rfl

theorem nested_undefined (s : Scope) (n : Nat) : s.undefined (nested n) = [] := by
  induction n with
  | zero => rfl
  | succ n ih => simp [nested, Scope.undefined, Scope.undefinedEntries, Scope.undefinedKey, Scope.undefinedMaybe, ih]

/-- Such objects have no spans. -/
theorem eq_nested_of_eraseSpans {e : Expr} (h : e.eraseSpans = (nested n).eraseSpans) : e = nested n := by
  induction n generalizing e with
  | zero =>
    cases e with
    | literal value => exact h
    | _ => cases h
  | succ n ih =>
    have hobject : e.eraseSpans = .object [(.static "end", some (nested n).eraseSpans)] := by
      rw [h]
      simp only [nested, Expr.eraseSpans, Expr.eraseEntries, Expr.eraseKey, Expr.eraseMaybe]
    cases e with
    | object entries =>
      cases entries with
      | nil => simp [Expr.eraseSpans, Expr.eraseEntries] at hobject
      | cons entry others =>
        obtain ⟨key, value⟩ := entry
        simp only [Expr.eraseSpans, Expr.eraseEntries, Expr.object.injEq, List.cons.injEq, Prod.mk.injEq] at hobject
        obtain ⟨⟨hkey, hvalue⟩, hothers⟩ := hobject
        obtain rfl : others = [] := by
          cases others with
          | nil => rfl
          | cons other others => cases hothers
        obtain rfl : key = .static "end" := by
          cases key <;> cases hkey
          rfl
        cases value with
        | none => cases hvalue
        | some value => rw [ih (Option.some.inj hvalue), nested]
    | _ => cases hobject

/-- The key closes the level that the brace opened. -/
theorem within_nested {kinds : List TokenKind} (h : Nesting.start.Within kinds) :
    Nesting.start.Within ((nested n).print numberText ++ kinds) := by
  induction n generalizing kinds with
  | zero => exact .cons (by decide) h
  | succ n ih =>
    rw [print_nested]
    simp only [List.cons_append, List.append_assoc, List.nil_append]
    exact .cons (by decide) (.cons (by decide) (.cons (by decide) (ih (.cons (by decide) h))))

theorem LaidOut.spaced {kinds kinds' : List TokenKind} {words : List String} {text : List Char}
    (hwords : List.Forall₂ (fun kind word => kind.Spells word.toList) kinds words) (h : LaidOut kinds' text) :
    LaidOut (kinds ++ kinds') (Filter.spaced words ++ text) := by
  induction hwords with
  | nil => exact h
  | cons hword _ ih =>
    rw [Filter.spaced, List.flatMap_cons, List.append_assoc, List.append_assoc]
    exact .token hword (.blank rfl .nil) (List.cons_ne_nil _ _) ih

theorem laidOut_nested {kinds : List TokenKind} {text : List Char} (h : LaidOut kinds text) :
    LaidOut ((nested n).print numberText ++ kinds) (nestedText n ++ text) := by
  induction n generalizing kinds text with
  | zero => exact h.spaced (.cons (.keyword .nullWord) .nil)
  | succ n ih =>
    have hbrace : LaidOut ([.mark .rightBrace] ++ kinds) (Filter.spaced ["\x7d"] ++ text) :=
      h.spaced (.cons (.mark .rightBrace) .nil)
    have hkey : LaidOut ([.mark .leftBrace, .keyword .endWord, .mark .colon] ++ _)
        (Filter.spaced ["\x7b", "end", ":"] ++ _) :=
      (ih hbrace).spaced (.cons (.mark .leftBrace) (.cons (.keyword .endWord) (.cons (.mark .colon) .nil)))
    rw [print_nested, nestedText]
    simpa only [List.cons_append, List.append_assoc, List.nil_append] using hkey

theorem tokenize_nested (numberText : Binary64 → String) (n : Nat) :
    ∃ tokens, tokenize (.ofList (nestedText n)) = .ok tokens ∧
      tokens.map Token.kind = (nested n).print numberText ++ [.eof] := by
  have hlaidOut : LaidOut ((nested n).print numberText ++ []) (nestedText n ++ []) := laidOut_nested .nil
  have hwithin : Nesting.start.Within ((nested n).print numberText ++ []) := within_nested (.nil (Nat.zero_le _))
  simp only [List.append_nil] at hlaidOut hwithin
  obtain ⟨tokens, hscan, hkinds⟩ := scan_laidOut hlaidOut 0 hwithin
  exact ⟨_, tokenize_of_scan hscan, by rw [List.map_append, hkinds]; rfl⟩

theorem parse_nested {tokens : List Token} (h : tokens.map Token.kind = (nested n).print numberText ++ [.eof]) :
    parse tokens = .ok (nested n) := by
  have hc : (Cursor.ofTokens tokens).kinds = (nested n).print numberText ++ [.eof] := h
  have hlength : ((nested n).print numberText ++ [TokenKind.eof]).length < tokens.length + 1 := by
    rw [← h, List.length_map]
    exact Nat.lt_succ_self _
  have hpipe := (Rules.upTo_handles (tokens.length + 1)).reads_pipe (nested_regular n) hc hlength (.cons rfl [])
  have hwhole : (wholeFilter tokens.length).Reads (.ofTokens tokens) [] (Expr.Same (nested n)) :=
    hpipe.bind fun e _ hbehind hsame => (Reads.token hbehind).bind fun _ _ hlast _ => .pure hlast hsame
  obtain ⟨e, last, furthest, hread, -, hsame⟩ := hwhole
  rw [parse, hread, eq_nested_of_eraseSpans hsame]

/-- A way down meets all of the objects. -/
theorem nested_path (n : Nat) : ∃ path, (nested n).Path path ∧ path.countP Expr.isConstruction = n := by
  induction n with
  | zero => exact ⟨_, .leaf rfl, rfl⟩
  | succ n ih =>
    obtain ⟨path, hpath, hcount⟩ := ih
    refine ⟨_, .part List.mem_cons_self hpath, ?_⟩
    rw [List.countP_cons_of_pos rfl, hcount]

end

end Filter

namespace CompiledFilter

/-- **Behind keys that are reserved words nothing is capped.** -/
theorem check_nested (n : Nat) : check (.ofList (Filter.nestedText n)) = .ok (Filter.nested n) := by
  obtain ⟨tokens, htokens, hkinds⟩ := Filter.tokenize_nested Binary64.plainText n
  have hlength : ¬ tokens.length ≤ 1 := by
    rw [← List.length_map, hkinds]
    cases n <;> simp [Filter.nested, Expr.print, Expr.literalTokens]
  unfold check
  rw [htokens]
  dsimp only [Except.mapError, bind, Except.bind]
  rw [if_neg hlength, Filter.parse_nested hkinds]
  dsimp only
  rw [Filter.nested_undefined]
  rfl

theorem compile_nested (environment : Value) (n : Nat) :
    compile environment ⟨.ofList (Filter.nestedText n), false⟩ =
      .ok ⟨.ofList (Filter.nestedText n), Filter.nested n, .object []⟩ := by
  unfold compile
  rw [check_nested]
  rfl

/-- **The cap on nesting, but for keys.**  However a compiled filter is written, no way down meets more arrays
and objects than the cap allows and one for each object key that is the bare word `end`. -/
theorem constructions_capped {environment : Value} {key : FilterKey} {f : CompiledFilter} {path : List Expr}
    (h : compile environment key = .ok f) (hpath : f.body.Path path) :
    ∃ tokens, Filter.tokenize key.source = .ok tokens ∧
      path.countP Expr.isConstruction ≤ maxNesting + endKeys (tokens.map Token.kind) := by
  obtain ⟨tokens, htokens, -, hidentity | hparse⟩ := check_eq_ok (check_of_compile h)
  · have hleaf : f.body.NestsWithin 0 := by
      rw [hidentity]
      exact .leaf rfl rfl
    exact ⟨tokens, htokens, Nat.le_trans (hleaf.countP_le hpath) (Nat.zero_le _)⟩
  · have hnests := (Filter.parse_nestsWithin hparse).countP_le hpath
    have htop := Filter.tokenize_top_le htokens
    refine ⟨tokens, htokens, ?_⟩
    unfold capacity at hnests
    omega

/-- Objects that the keys let nest deeper than the cap. -/
theorem constructions_capped_keys :
    ∃ f path, compile (.object []) ⟨.ofList (Filter.nestedText 65), false⟩ = .ok f ∧ f.body.Path path ∧
      path.countP Expr.isConstruction = 65 ∧ ∃ tokens, Filter.tokenize (.ofList (Filter.nestedText 65)) = .ok tokens ∧
        path.countP Expr.isConstruction ≤ maxNesting + endKeys (tokens.map Token.kind) := by
  obtain ⟨path, hpath, hcount⟩ := Filter.nested_path 65
  have hcompile := compile_nested (.object []) 65
  have hcapped := constructions_capped hcompile hpath
  exact ⟨_, path, hcompile, hpath, hcount, hcapped⟩

/-- One object more than the cap allows, and no complaint. -/
theorem nested_beyond_cap :
    ∃ f path, compile (.object []) ⟨.ofList (Filter.nestedText 65), false⟩ = .ok f ∧ f.body.Path path ∧
      maxNesting < path.countP Expr.isConstruction := by
  obtain ⟨path, hpath, hcount⟩ := Filter.nested_path 65
  exact ⟨_, path, compile_nested _ 65, hpath, by rw [hcount]; decide⟩

end CompiledFilter
end JsonFilter
