import JsonFilter.Filter.QuoteStyle
import Mathlib.Data.List.Basic

/-!
# Which quotes are converted

`convertQuotes` reads a filter from left to right and takes a blank along with a quote, so whether a quote is
converted depends on where the reading stands.  Here the same quotes are told by their neighbours alone: one that
closes a string always, one that opens a string unless the blank in front of it stands behind a closing quote.

## The invariant

Between two steps of the reading, the quote that comes next opens a string behind a blank only if this blank was
taken along by a closing quote (`Between.used`), and the character just read is no closing quote in front of a
blank, since that blank would have been taken along (`Between.unclosed`).  Every step keeps both.

* `Closes`, `Opens`, `Converted` — the rule, place by place.
* `byRule_convertQuotes` — the reading goes by the rule, from every place between two steps.
* **`doubleQuoted_goes_by_neighbours`** — the quotes that are converted in a filter.
-/

namespace JsonFilter.Filter

open Text (isBlank)

/-! ### The rule -/

/-- A single quote that closes a string: neither a blank nor a double quote stands before it, and a blank or
nothing behind it. -/
def Closes (cs : List Char) (q : Nat) : Prop :=
  cs[q]? = some singleQuote ∧ (q = 0 ∨ ∃ b ∈ cs[q - 1]?, isBlank b = false ∧ b ≠ '"') ∧
    (q + 1 = cs.length ∨ ∃ a ∈ cs[q + 1]?, isBlank a = true)

/-- A single quote that opens a string: a blank or nothing stands before it, and neither a blank nor a double
quote behind it. -/
def Opens (cs : List Char) (q : Nat) : Prop :=
  cs[q]? = some singleQuote ∧ (q = 0 ∨ ∃ b ∈ cs[q - 1]?, isBlank b = true) ∧
    ¬(q + 1 < cs.length ∧ ∃ a ∈ cs[q + 1]?, isBlank a = true ∨ a = '"')

/-- A quote that is converted: it closes a string, or it opens one and the blank before it does not stand behind a
closing quote. -/
def Converted (cs : List Char) (q : Nat) : Prop :=
  Closes cs q ∨ Opens cs q ∧ ¬(2 ≤ q ∧ Closes cs (q - 2))

/-- Only single quotes are converted. -/
theorem Converted.getElem? {cs : List Char} {q : Nat} (h : Converted cs q) : cs[q]? = some singleQuote := by
  rcases h with hcloses | ⟨hopens, -⟩
  · exact hcloses.1
  · exact hopens.1

section

variable {front rest out : List Char} {c next : Char}

/-! ### Neighbours -/

/-- What is before a quote is the last character in front of it. -/
theorem before_iff {P : Char → Prop} (front rest : List Char) :
    (front.length = 0 ∨ ∃ b ∈ (front ++ rest)[front.length - 1]?, P b) ↔ ∀ b ∈ front.getLast?, P b := by
  cases hlast : front.getLast? with
  | none =>
    rw [List.getLast?_eq_none_iff.1 hlast]
    exact ⟨fun _ => nofun, fun _ => .inl rfl⟩
  | some b =>
    have hpos : front.length ≠ 0 := fun hnil => by
      rw [List.length_eq_zero_iff.1 hnil] at hlast
      cases hlast
    rw [List.getElem?_append_left (by omega), ← List.getLast?_eq_getElem?, hlast]
    simp [hpos]

theorem getElem?_behind (front : List Char) (c : Char) (rest : List Char) :
    (front ++ c :: rest)[front.length + 1]? = rest.head? := by
  rw [List.getElem?_append_right (by omega), Nat.add_sub_cancel_left, List.getElem?_cons_succ,
    List.head?_eq_getElem?]

theorem mayPrecedeClosing_iff {before : Option Char} :
    mayPrecedeClosing before = true ↔ ∀ b ∈ before, isBlank b = false ∧ b ≠ '"' := by
  cases before with
  | none => exact ⟨fun _ => nofun, fun _ => rfl⟩
  | some b => simp [mayPrecedeClosing]

/-- Whether a quote closes a string depends on its neighbours. -/
theorem closes_iff : Closes (front ++ c :: rest) front.length ↔
    c = singleQuote ∧ mayPrecedeClosing front.getLast? = true ∧ ∀ a ∈ rest.head?, isBlank a = true := by
  have hself : (front ++ c :: rest)[front.length]? = some c := by simp
  have hbehind : (front.length + 1 = (front ++ c :: rest).length ∨
      ∃ a ∈ (front ++ c :: rest)[front.length + 1]?, isBlank a = true) ↔
        ∀ a ∈ rest.head?, isBlank a = true := by
    rw [getElem?_behind]
    cases rest <;> simp
  unfold Closes
  rw [hself, Option.some.injEq, before_iff, hbehind, mayPrecedeClosing_iff]

/-- Whether a quote opens a string depends on its neighbours. -/
theorem opens_iff : Opens (front ++ c :: rest) front.length ↔
    (∀ b ∈ front.getLast?, isBlank b = true) ∧ opensString (c :: rest) = true := by
  have hself : (front ++ c :: rest)[front.length]? = some c := by simp
  have hbehind : (c = singleQuote ∧ ¬(front.length + 1 < (front ++ c :: rest).length ∧
      ∃ a ∈ (front ++ c :: rest)[front.length + 1]?, isBlank a = true ∨ a = '"')) ↔
        opensString (c :: rest) = true := by
    rw [getElem?_behind]
    cases rest <;> simp [opensString]
  unfold Opens
  rw [hself, Option.some.injEq, before_iff, ← hbehind]
  exact and_left_comm

/-! ### The reading -/

/-- The characters of a text behind others, each converted or not as the rule says. -/
inductive ByRule : List Char → List Char → List Char → Prop
  | nil {front : List Char} : ByRule front [] []
  | converted {front rest out : List Char} {c : Char} : Converted (front ++ c :: rest) front.length →
    ByRule (front ++ [c]) rest out → ByRule front (c :: rest) ('"' :: out)
  | kept {front rest out : List Char} {c : Char} : ¬Converted (front ++ c :: rest) front.length →
    ByRule (front ++ [c]) rest out → ByRule front (c :: rest) (c :: out)

/-- The reading stands between two parts of a text: no blank is left for a quote that opens a string, and none was
left by a quote that closes one. -/
structure Between (front rest : List Char) : Prop where
  used : Opens (front ++ rest) front.length →
    front = [] ∨ ∃ f c b, front = f ++ [c, b] ∧ Closes (front ++ rest) f.length
  unclosed : ∀ f c, front = f ++ [c] → rest ≠ [] → ¬Closes (front ++ rest) f.length

theorem not_converted_of_ne (hc : c ≠ singleQuote) : ¬Converted (front ++ c :: rest) front.length :=
  fun h => hc (by simpa using h.getElem?)

theorem ne_singleQuote_of_isBlank (h : isBlank c = true) : c ≠ singleQuote := by
  rintro rfl
  cases h

theorem Between.start (rest : List Char) : Between [] rest where
  used _ := .inl rfl
  unclosed f c h := by simp at h

/-- A character that is read alone is no closing quote in front of a blank, and no blank in front of an opening
quote. -/
theorem Between.single (hcloses : rest ≠ [] → ¬Closes (front ++ c :: rest) front.length)
    (hopens : isBlank c = true → opensString rest = false) : Between (front ++ [c]) rest where
  used h := by
    cases rest with
    | nil => simpa using h.1
    | cons d rest =>
      obtain ⟨hblank, hstring⟩ := opens_iff.1 h
      rw [hopens (hblank c (by simp))] at hstring
      cases hstring
  unclosed f d heq hrest := by
    obtain ⟨rfl, hlast⟩ := List.append_inj' heq rfl
    obtain rfl := List.singleton_inj.1 hlast
    rw [List.append_assoc]
    exact hcloses hrest

/-- Behind two characters of which the second one belongs to the first one or the other way round. -/
theorem Between.pair (hcloses : ¬Closes (front ++ [c] ++ next :: rest) (front ++ [c]).length)
    (hopens : isBlank next = true → Closes (front ++ c :: next :: rest) front.length) :
    Between (front ++ [c, next]) rest where
  used h := by
    refine .inr ⟨front, c, next, rfl, ?_⟩
    rw [List.append_assoc]
    cases rest with
    | nil => simpa using h.1
    | cons d rest => exact hopens ((opens_iff.1 h).1 next (by simp))
  unclosed f d heq _ := by
    obtain ⟨rfl, -⟩ := List.append_inj' (show front ++ [c] ++ [next] = f ++ [d] by simpa using heq) rfl
    rw [List.append_assoc] at hcloses ⊢
    exact hcloses

/-- A quote that neither closes a string nor opens one at the start is kept. -/
theorem Between.not_converted (h : Between front (c :: rest))
    (hcloses : ¬Closes (front ++ c :: rest) front.length)
    (hopens : front = [] → opensString (c :: rest) = false) : ¬Converted (front ++ c :: rest) front.length := by
  rintro (hclosing | ⟨hopening, hunused⟩)
  · exact hcloses hclosing
  · rcases h.used hopening with rfl | ⟨f, d, b, rfl, hused⟩
    · have hstring := (opens_iff.1 hopening).2
      rw [hopens rfl] at hstring
      cases hstring
    · refine hunused ⟨by simp, ?_⟩
      rwa [List.length_append, List.length_cons, List.length_singleton, Nat.add_sub_cancel]

/-- **The reading goes by the rule.** -/
theorem byRule_convertQuotes {before : Option Char} (hbefore : front.getLast? = before) (h : Between front rest) :
    ByRule front rest (convertQuotes before rest) := by
  fun_induction convertQuotes before rest generalizing front with
  | case1 => exact .nil
  | case2 before c hc =>
    -- the last character, a closing quote
    obtain ⟨hquote, hprecedes⟩ := Bool.and_eq_true_iff.1 hc
    exact .converted (.inl (closes_iff.2 ⟨of_decide_eq_true hquote, hbefore ▸ hprecedes, by simp⟩)) .nil
  | case3 before c hc =>
    have hcloses : ¬Closes (front ++ [c]) front.length := fun hcloses => by
      obtain ⟨hquote, hprecedes, -⟩ := closes_iff.1 hcloses
      exact hc (by rw [← hbefore, hprecedes, decide_eq_true hquote]; rfl)
    refine .kept (h.not_converted hcloses ?_) .nil
    rintro rfl
    subst hbefore
    simpa [opensString, mayPrecedeClosing] using hc
  | case4 before c next rest hc ih =>
    -- an opening quote at the start
    obtain ⟨hnone, hopens⟩ := Bool.and_eq_true_iff.1 hc
    rw [Option.isNone_iff_eq_none] at hnone
    obtain rfl := List.getLast?_eq_none_iff.1 (hbefore.trans hnone)
    have hopening : Opens ([] ++ c :: next :: rest) [].length := opens_iff.2 ⟨by simp, hopens⟩
    obtain ⟨hquote, hnext⟩ := Bool.and_eq_true_iff.1 hopens
    have hunused : ¬(2 ≤ ([] : List Char).length ∧ Closes ([] ++ c :: next :: rest) (([] : List Char).length - 2)) := by
      simp
    refine .converted (.inr ⟨hopening, hunused⟩) (ih rfl (.single (fun _ hcloses => ?_) fun hblank => ?_))
    · have hblank := (closes_iff.1 hcloses).2.2 next rfl
      simp [hblank] at hnext
    · exact absurd (of_decide_eq_true hquote) (ne_singleQuote_of_isBlank hblank)
  | case5 before c next rest _ hc ih =>
    -- a blank with the opening quote behind it
    obtain ⟨hblank, hopens⟩ := Bool.and_eq_true_iff.1 hc
    have hopening : Opens (front ++ [c] ++ next :: rest) (front ++ [c]).length :=
      opens_iff.2 ⟨by simpa using hblank, hopens⟩
    have hunused : ¬(2 ≤ (front ++ [c]).length ∧
        Closes (front ++ [c] ++ next :: rest) ((front ++ [c]).length - 2)) := by
      rintro ⟨hfar, hcloses⟩
      obtain rfl | ⟨f, d, rfl⟩ := List.eq_nil_or_concat' front
      · simp at hfar
      · refine h.unclosed f d rfl (List.cons_ne_nil _ _) ?_
        simpa using hcloses
    have hnext : ¬Closes (front ++ [c] ++ next :: rest) (front ++ [c]).length := fun hcloses => by
      have hprecedes := (closes_iff.1 hcloses).2.1
      simp [mayPrecedeClosing, hblank] at hprecedes
    have hquote : next = singleQuote := Option.some.inj (by simpa using hopening.1)
    refine .kept (not_converted_of_ne (ne_singleQuote_of_isBlank hblank)) (.converted (.inr ⟨hopening, hunused⟩) ?_)
    rw [List.append_assoc]
    refine ih (by simp) (.pair hnext fun hblank' => ?_)
    exact absurd hquote (ne_singleQuote_of_isBlank hblank')
  | case6 before c next rest _ _ hc ih =>
    -- a closing quote with the blank behind it
    obtain ⟨hcloses, hblank⟩ := Bool.and_eq_true_iff.1 hc
    obtain ⟨hquote, hprecedes⟩ := Bool.and_eq_true_iff.1 hcloses
    have hclosing : Closes (front ++ c :: next :: rest) front.length :=
      closes_iff.2 ⟨of_decide_eq_true hquote, hbefore ▸ hprecedes, by simpa using hblank⟩
    have hnext : next ≠ singleQuote := ne_singleQuote_of_isBlank hblank
    refine .converted (.inl hclosing) (.kept (not_converted_of_ne hnext) ?_)
    rw [List.append_assoc]
    exact ih (by simp) (.pair (fun hcloses => hnext (closes_iff.1 hcloses).1) fun _ => hclosing)
  | case7 before c next rest hstart hpair hclose ih =>
    have hcloses : ¬Closes (front ++ c :: next :: rest) front.length := fun hcloses => by
      obtain ⟨hquote, hprecedes, hblank⟩ := closes_iff.1 hcloses
      exact hclose (by rw [← hbefore, hprecedes, decide_eq_true hquote, hblank next rfl]; rfl)
    refine .kept (h.not_converted hcloses ?_) (ih (by simp) (.single (fun _ => hcloses) fun hblank => ?_))
    · rintro rfl
      subst hbefore
      simpa using hstart
    · simpa [hblank] using hpair

/-! ### Places -/

/-- What becomes of the character at a place. -/
theorem ByRule.getElem? (h : ByRule front rest out) (i : Nat) :
    (Converted (front ++ rest) (front.length + i) → out[i]? = some '"') ∧
      (¬Converted (front ++ rest) (front.length + i) → out[i]? = rest[i]?) := by
  induction h generalizing i with
  | nil =>
    rw [List.append_nil]
    exact ⟨fun hconverted => by simpa using hconverted.getElem?, fun _ => rfl⟩
  | @converted front rest out c hconverted _ ih =>
    cases i with
    | zero => exact ⟨fun _ => rfl, fun hnot => absurd hconverted hnot⟩
    | succ i =>
      have hrest := ih i
      rwa [List.append_assoc, List.length_append, List.length_singleton, Nat.add_assoc, Nat.add_comm 1 i] at hrest
  | @kept front rest out c hnot _ ih =>
    cases i with
    | zero => exact ⟨fun hconverted => absurd hconverted hnot, fun _ => rfl⟩
    | succ i =>
      have hrest := ih i
      rwa [List.append_assoc, List.length_append, List.length_singleton, Nat.add_assoc, Nat.add_comm 1 i] at hrest

end

/-- **The quotes that are converted.**  A filter keeps its length.  A place holds another character than before
exactly if the rule names it; there stood a single quote, and there stands a double one. -/
theorem doubleQuoted_goes_by_neighbours (filter : String) :
    (doubleQuoted filter).toList.length = filter.toList.length ∧
      ∀ q, ((doubleQuoted filter).toList[q]? ≠ filter.toList[q]? ↔ Converted filter.toList q) ∧
        ((doubleQuoted filter).toList[q]? ≠ filter.toList[q]? →
          filter.toList[q]? = some singleQuote ∧ (doubleQuoted filter).toList[q]? = some '"') := by
  have hout : (doubleQuoted filter).toList = convertQuotes none filter.toList := String.toList_ofList
  rw [hout]
  refine ⟨length_convertQuotes none _, fun q => ?_⟩
  have hrule : ByRule [] filter.toList (convertQuotes none filter.toList) :=
    byRule_convertQuotes rfl (.start filter.toList)
  obtain ⟨hconverted, hkept⟩ := hrule.getElem? q
  rw [List.nil_append, List.length_nil, Nat.zero_add] at hconverted hkept
  have hiff : (convertQuotes none filter.toList)[q]? ≠ filter.toList[q]? ↔ Converted filter.toList q := by
    refine ⟨fun hne => by_contra fun hnot => hne (hkept hnot), fun h heq => ?_⟩
    rw [hconverted h, h.getElem?] at heq
    cases heq
  exact ⟨hiff, fun hne => ⟨(hiff.1 hne).getElem?, hconverted (hiff.1 hne)⟩⟩

/-- The blank goes with the quote that closes a string, so the next quote stays. -/
example : doubleQuoted "a' 'b" = "a\" 'b" := by decide

end JsonFilter.Filter
