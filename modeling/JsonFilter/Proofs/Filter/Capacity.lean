import JsonFilter.Proofs.Filter.Derivations

/-!
# How deep tokens can nest

Arrays and objects are constructed between brackets and braces, so a filter nests them no deeper than its tokens
open levels.  The levels are counted on bare tokens: every `end` closes one, the reserved word that is the key of
an object, too.  Such a key hides a level from the count.

## What is carried along

The tokens that filters are built from are told about as a whole.  `Carries` says two things of them.  They close no
more levels than they open, but for the keys, so that what stands behind them is no deeper than it looks.  And the
filters nest no deeper than the highest level among them and the keys allow.  Both are passed on from the parts of a
sequence to the sequence.

* `Expr.Path`, `Expr.NestsWithin` — the ways down a filter, and how many constructions they meet.
* `rise`, `top`, `endKeys` — the levels of tokens, and the keys that are taken for the end of a conditional.
* **`Built.carries`** — tokens carry the filters that are built from them.
* **`parse_nestsWithin`** — the bound for filters that are read.
-/

namespace JsonFilter.Filter

/-! ### Nesting of constructions -/

namespace Expr

/-- Whether a filter is an array or an object construction. -/
def isConstruction : Expr → Bool
  | .array _ | .object _ => true
  | _ => false

/-- The filters on a way from a filter down to one without parts. -/
inductive Path : Expr → List Expr → Prop
  | leaf {e : Expr} : e.parts = [] → Path e [e]
  | part {e x : Expr} {path : List Expr} : x ∈ e.parts → Path x path → Path e (e :: path)

/-- Constructions nest at most `n` deep in a filter. -/
inductive NestsWithin : Nat → Expr → Prop
  | plain {n : Nat} {e : Expr} : e.isConstruction = false → (∀ x ∈ e.parts, NestsWithin n x) → NestsWithin n e
  | construction {n : Nat} {e : Expr} : e.isConstruction = true → (∀ x ∈ e.parts, NestsWithin n x) →
    NestsWithin (n + 1) e

namespace NestsWithin

variable {n m : Nat} {e l r : Expr}

theorem leaf (he : e.isConstruction = false) (hparts : e.parts = []) : NestsWithin n e :=
  .plain he (by simp [hparts])

theorem mono (h : NestsWithin n e) (hle : n ≤ m) : NestsWithin m e := by
  induction h generalizing m with
  | plain he _ ih => exact .plain he fun x hx => ih x hx hle
  | construction he _ ih =>
    obtain ⟨m, rfl⟩ : ∃ m', m = m' + 1 := ⟨m - 1, by omega⟩
    exact .construction he fun x hx => ih x hx (Nat.le_of_succ_le_succ hle)

/-- No way down meets more constructions. -/
theorem countP_le (h : NestsWithin n e) {path : List Expr} (hpath : Path e path) :
    path.countP isConstruction ≤ n := by
  induction hpath generalizing n with
  | @leaf e _ =>
    cases h with
    | plain he _ => simp [he]
    | construction he _ => simp [he]
  | @part e x path hx _ ih =>
    cases h with
    | plain he hparts =>
      rw [List.countP_cons_of_neg (by rw [he]; exact Bool.false_ne_true)]
      exact ih (hparts x hx)
    | construction he hparts =>
      rw [List.countP_cons_of_pos he]
      exact Nat.succ_le_succ (ih (hparts x hx))

end NestsWithin
end Expr

/-! ### Levels of tokens -/

/-- How a token changes the level, as long as no level is closed that was not opened. -/
def slope : TokenKind → Int
  | .mark .leftParen | .mark .leftBracket | .mark .leftBrace | .keyword .ifWord => 1
  | .mark .rightParen | .mark .rightBracket | .mark .rightBrace | .keyword .endWord => -1
  | _ => 0

/-- The level behind some tokens, from the one in front of them. -/
def rise : List TokenKind → Int
  | [] => 0
  | k :: kinds => slope k + rise kinds

/-- The highest level behind any of the first tokens, from the one in front of them. -/
def top : List TokenKind → Int
  | [] => 0
  | k :: kinds => max 0 (slope k + top kinds)

/-- Whether a key of an object may come behind a token. -/
def opensEntry : TokenKind → Bool
  | .mark .leftBrace | .mark .comma => true
  | _ => false

/-- How often the reserved word `end` is used as the key of an object. -/
def endKeys : List TokenKind → Nat
  | k :: k' :: kinds => (if opensEntry k && k' == .keyword .endWord then 1 else 0) + endKeys (k' :: kinds)
  | _ => 0

section

variable {s t : List TokenKind} {k : TokenKind}

theorem rise_cons (k : TokenKind) (s : List TokenKind) : rise (k :: s) = slope k + rise s := rfl

theorem rise_append (s t : List TokenKind) : rise (s ++ t) = rise s + rise t := by
  induction s with
  | nil => exact (Int.zero_add _).symm
  | cons k s ih => rw [List.cons_append, rise_cons, rise_cons, ih, Int.add_assoc]

theorem top_nonneg (s : List TokenKind) : 0 ≤ top s := by
  cases s with
  | nil => exact Int.le_refl 0
  | cons k s => exact Int.le_max_left _ _

theorem top_cons (k : TokenKind) (s : List TokenKind) : top (k :: s) = max 0 (slope k + top s) := rfl

theorem top_append (s t : List TokenKind) : top (s ++ t) = max (top s) (rise s + top t) := by
  have ht := top_nonneg t
  induction s with
  | nil =>
    show top t = max 0 (0 + top t)
    omega
  | cons k s ih =>
    rw [List.cons_append, top_cons, top_cons, ih, rise_cons]
    omega

theorem rise_le_top (s : List TokenKind) : rise s ≤ top s := by
  induction s with
  | nil => exact Int.le_refl 0
  | cons k s ih =>
    rw [rise_cons, top_cons]
    omega

theorem endKeys_cons_le (k : TokenKind) (s : List TokenKind) : endKeys s ≤ endKeys (k :: s) := by
  cases s with
  | nil => exact Nat.le_refl 0
  | cons k' s => exact Nat.le_add_left _ _

theorem endKeys_append_le (s t : List TokenKind) : endKeys s + endKeys t ≤ endKeys (s ++ t) := by
  induction s with
  | nil => exact Nat.le_of_eq (Nat.zero_add _)
  | cons k s ih =>
    cases s with
    | nil =>
      have hcons := endKeys_cons_le k t
      show 0 + endKeys t ≤ endKeys (k :: t)
      omega
    | cons k' s =>
      show _ + endKeys (k' :: s) + endKeys t ≤ _ + endKeys (k' :: s ++ t)
      omega

/-! ### What tokens carry -/

/-- How deep tokens can nest constructions: one level for each that they open, and one for each `end` that is a
key and was counted as the end of a conditional. -/
def capacity (kinds : List TokenKind) : Nat := (top kinds).toNat + endKeys kinds

/-- Tokens close no more levels than they open, but for the keys, and they can nest constructions as deep as the
filters do. -/
def Carries (kinds : List TokenKind) (es : List Expr) : Prop :=
  0 ≤ rise kinds + endKeys kinds ∧ ∀ e ∈ es, e.NestsWithin (capacity kinds)

theorem capacity_append_left (s t : List TokenKind) : capacity s ≤ capacity (s ++ t) := by
  have hkeys := endKeys_append_le s t
  unfold capacity
  rw [top_append]
  omega

theorem capacity_append_right (h : 0 ≤ rise s + endKeys s) : capacity t ≤ capacity (s ++ t) := by
  have hkeys := endKeys_append_le s t
  have ht := top_nonneg t
  unfold capacity
  rw [top_append]
  omega

namespace Carries

variable {es es' : List Expr} {e : Expr}

theorem nil : Carries [] [] := ⟨Int.le_refl 0, List.forall_mem_nil _⟩

theorem append (h : Carries s es) (h' : Carries t es') : Carries (s ++ t) (es ++ es') := by
  have hkeys := endKeys_append_le s t
  refine ⟨?_, fun e he => ?_⟩
  · have hs := h.1
    have ht := h'.1
    rw [rise_append]
    omega
  · rcases List.mem_append.1 he with he | he
    · exact (h.2 e he).mono (capacity_append_left s t)
    · exact (h'.2 e he).mono (capacity_append_right h.1)

theorem token (h : 0 ≤ slope k) : Carries [k] [] := by
  refine ⟨?_, List.forall_mem_nil _⟩
  rw [rise_cons]
  show 0 ≤ slope k + 0 + ((0 : Nat) : Int)
  omega

/-- A filter that is no construction nests as deep as its parts. -/
theorem plain (h : Carries s es) (he : e.isConstruction = false) (hparts : ∀ x ∈ e.parts, x ∈ es) :
    Carries s [e] :=
  ⟨h.1, List.forall_mem_singleton.2 (.plain he fun x hx => h.2 x (hparts x hx))⟩

/-- A filter without constructions takes no levels. -/
theorem leaf (h : Carries s es) (he : ∀ n, e.NestsWithin n) : Carries s [e] :=
  ⟨h.1, List.forall_mem_singleton.2 (he _)⟩

/-- What stands between two tokens that open and close a level. -/
theorem inside {left right : TokenKind} (h : 0 ≤ rise s + endKeys s) (hleft : slope left = 1)
    (hright : slope right = -1) :
    0 ≤ rise (left :: (s ++ [right])) + endKeys (left :: (s ++ [right])) ∧
      capacity s + 1 ≤ capacity (left :: (s ++ [right])) := by
  have hcons := endKeys_cons_le left (s ++ [right])
  have hkeys := endKeys_append_le s [right]
  have htop := top_nonneg s
  have hrise : rise (left :: (s ++ [right])) = rise s := by
    rw [rise_cons, rise_append, rise_cons, hleft, hright]
    show 1 + (rise s + (-1 + 0)) = rise s
    omega
  have hhigh : 1 + top s ≤ top (left :: (s ++ [right])) := by
    rw [top_cons, hleft, top_append]
    omega
  unfold capacity
  omega

theorem wrap {left right : TokenKind} (h : Carries s es) (hleft : slope left = 1) (hright : slope right = -1) :
    Carries (left :: (s ++ [right])) es := by
  obtain ⟨hrise, hcapacity⟩ := inside h.1 hleft hright
  exact ⟨hrise, fun e he => (h.2 e he).mono (Nat.le_of_succ_le hcapacity)⟩

/-- A construction nests one deeper than its parts, and so do the marks around it. -/
theorem construction {left right : TokenKind} (h : Carries s es) (hleft : slope left = 1)
    (hright : slope right = -1) (he : e.isConstruction = true) (hparts : ∀ x ∈ e.parts, x ∈ es) :
    Carries (left :: (s ++ [right])) [e] := by
  obtain ⟨hrise, hcapacity⟩ := inside h.1 hleft hright
  exact ⟨hrise, List.forall_mem_singleton.2
    ((Expr.NestsWithin.construction he fun x hx => h.2 x (hparts x hx)).mono hcapacity)⟩

/-- Between braces a key may come first as it may behind a comma. -/
theorem object (h : Carries (.mark .comma :: s) es) (he : e.isConstruction = true)
    (hparts : ∀ x ∈ e.parts, x ∈ es) : Carries (.mark .leftBrace :: (s ++ [.mark .rightBrace])) [e] := by
  have hkeys : endKeys (.mark .comma :: s) ≤ endKeys (.mark .leftBrace :: (s ++ [.mark .rightBrace])) := by
    have happend := endKeys_append_le (.mark .leftBrace :: s) [.mark .rightBrace]
    have hsame : endKeys (.mark .comma :: s) = endKeys (.mark .leftBrace :: s) := by cases s <;> rfl
    rw [hsame]
    exact Nat.le_trans (Nat.le_add_right _ _) happend
  have hrise : rise (.mark .leftBrace :: (s ++ [.mark .rightBrace])) = rise (.mark .comma :: s) := by
    rw [rise_cons, rise_append, rise_cons, rise_cons]
    show 1 + (rise s + (-1 + 0)) = 0 + rise s
    omega
  have htop : top (.mark .comma :: s) + 1 ≤ top (.mark .leftBrace :: (s ++ [.mark .rightBrace])) := by
    have hs := top_nonneg s
    have hcomma : slope (.mark .comma) = 0 := rfl
    have hbrace : slope (.mark .leftBrace) = 1 := rfl
    rw [top_cons, top_cons, top_append, hcomma, hbrace]
    omega
  have hrise' := h.1
  have hnonneg := top_nonneg (.mark .comma :: s)
  have hcapacity : capacity (.mark .comma :: s) + 1 ≤ capacity (.mark .leftBrace :: (s ++ [.mark .rightBrace])) := by
    unfold capacity
    omega
  refine ⟨by omega, List.forall_mem_singleton.2 ?_⟩
  exact (Expr.NestsWithin.construction he fun x hx => h.2 x (hparts x hx)).mono hcapacity

end Carries
end

/-! ### Filters -/

theorem slope_of_isDelimiter {k : TokenKind} (h : isDelimiter k = false) : slope k = 0 := by
  cases k with
  | keyword word => cases word <;> first | rfl | cases h
  | mark m => cases m <;> first | rfl | cases h
  | _ => rfl

theorem slope_of_closing? {k k' : TokenKind} (h : closing? k = some k') : slope k = 1 ∧ slope k' = -1 := by
  unfold closing? at h
  split at h <;> cases h <;> exact ⟨rfl, rfl⟩

theorem isConstruction_of_isPlain {e : Expr} (h : e.isPlain = true) : e.isConstruction = false := by
  cases e <;> first | rfl | cases h

/-- **Tokens carry the filters that are built from them.** -/
theorem Built.carries {s : List Token} {es : List Expr} (h : Built s es) : Carries (s.map Token.kind) es := by
  induction h with
  | nil => exact .nil
  | token ht => exact .token (Int.le_of_eq (slope_of_isDelimiter ht).symm)
  | @key comma t word hcomma hword =>
    -- a reserved word may close a level that it does not end
    rw [List.map_cons, List.map_singleton, hcomma, hword]
    exact ⟨by cases word <;> decide, List.forall_mem_nil _⟩
  | wrap hpair _ ih =>
    obtain ⟨hopens, hcloses⟩ := slope_of_closing? hpair
    simpa using ih.wrap hopens hcloses
  | append _ _ ih ih' =>
    rw [List.map_append]
    exact ih.append ih'
  | among _ hes ih => exact ⟨ih.1, fun e he => ih.2 e (hes e he)⟩
  | plain _ he hparts ih =>
    have hwhole := ih.plain (isConstruction_of_isPlain he) hparts
    exact ⟨ih.1, List.forall_mem_cons.2 ⟨hwhole.2 _ List.mem_cons_self, ih.2⟩⟩
  | @«variable» t name ht =>
    rw [List.map_singleton, ht]
    have hname : Carries [.variable name] [] := .token (Int.le_refl 0)
    exact hname.leaf fun _ => .leaf rfl rfl
  | @name t name ht =>
    rw [List.map_singleton, ht]
    have hname : Carries [.identifier name] [] := .token (Int.le_refl 0)
    exact hname.leaf fun _ => .leaf rfl rfl
  | @call t left right name _ args ht hleft hright _ _ ih =>
    have hname : Carries [.identifier name] [] := .token (Int.le_refl 0)
    have hparens : Carries (.mark .leftParen :: (_ ++ [.mark .rightParen])) args := ih.wrap rfl rfl
    have hcall := (hname.append hparens).plain (e := .call name args ⟨t.span.start, right.span.stop⟩) rfl fun x hx => hx
    simpa [ht, hleft, hright] using hcall
  | @array left right s body hleft hright _ ih =>
    have hbrackets : Carries (.mark .leftBracket :: (_ ++ [.mark .rightBracket])) [.array body] :=
      ih.construction rfl rfl rfl fun x hx => hx
    simpa [hleft, hright] using hbrackets
  | @object left right s entries hleft hright _ _ ih =>
    have hentries := ih ⟨.mark .comma, default⟩ rfl
    simpa [hleft, hright] using hentries.object (e := .object entries) rfl fun x hx => by
      obtain ⟨entry, hentry, hx⟩ := List.mem_flatMap.1 hx
      exact List.mem_flatMap.2 ⟨entry, hentry, Expr.mem_entryFilters hx⟩

/-- **Tokens that are read as a filter can nest constructions as deep as it does.** -/
theorem parse_nestsWithin {tokens : List Token} {e : Expr} (h : parse tokens = .ok e) :
    e.NestsWithin (capacity (tokens.map Token.kind)) := by
  obtain ⟨taken, last, behind, rfl, -, hbuilt⟩ := parse_built h
  rw [List.map_append]
  exact (hbuilt.carries.2 e List.mem_cons_self).mono (capacity_append_left _ _)

end JsonFilter.Filter
