import JsonFilter.Proofs.Eval.CoreForms
import JsonFilter.Proofs.Text.Splitting

/-!
# Splitting and joining

`split` cuts a string at the occurrences of a separator and `join` puts the separator back.  A text without
characters has no parts at all, and an empty separator stands between any two characters, so these are cut
apart without a search; joining undoes each of the three.

* `shown_operand` — a builtin with a constant for an operand.
* **`join_splitOn`**, `not_infix_of_mem_splitOn`, `exists_length_splitOn` — the parts of any text joined again,
  what is in them and how many there are.
* **`join_undoes_split`** — the same of the filters.
-/

namespace JsonFilter

namespace Text

theorem join_nil (parts : List (List Char)) : join [] parts = parts.flatten := by
  induction parts with
  | nil => rfl
  | cons part parts ih =>
    cases parts with
    | nil => rfl
    | cons next others => rw [join_cons part (List.cons_ne_nil next others), ih, List.append_nil]; rfl

/-- **The parts of a text joined again** are the text, whatever the separator is. -/
theorem join_splitOn (text separator : List Char) : join separator (splitOn text separator) = text := by
  unfold splitOn
  split_ifs with htext hseparator
  · rw [List.isEmpty_iff.1 htext]
    rfl
  · rw [List.isEmpty_iff.1 hseparator, join_nil]
    exact List.flatMap_singleton' text
  · exact join_splitFrom (mt List.isEmpty_iff.2 hseparator) text

example : splitOn ['a', 'a', 'a'] ['a', 'a'] = [[], ['a']] := by decide

theorem splitOn_of_ne_nil {text separator : List Char} (htext : text ≠ []) (hseparator : separator ≠ []) :
    splitOn text separator = splitFrom separator text 0 [] := by
  rw [splitOn, if_neg (mt List.isEmpty_iff.1 htext), if_neg (mt List.isEmpty_iff.1 hseparator)]

theorem splitOn_nil (text : List Char) : splitOn text [] = text.map ([·]) := by
  cases text <;> rfl

theorem not_infix_of_mem_splitOn {text separator part : List Char} (hseparator : separator ≠ [])
    (hpart : part ∈ splitOn text separator) : ¬ separator <:+: part := by
  by_cases htext : text = []
  · rw [htext] at hpart
    exact absurd hpart List.not_mem_nil
  · rw [splitOn_of_ne_nil htext hseparator] at hpart
    exact not_infix_of_mem_splitFrom hseparator hpart

/-- **One part more than separators,** in a text that is not empty. -/
theorem exists_length_splitOn {text separator : List Char} (htext : text ≠ []) (hseparator : separator ≠ []) :
    ∃ count, (splitOn text separator).length = count + 1 ∧
      ∀ n, CountedFromLeft separator text n ↔ n = count := by
  obtain ⟨count, hcount⟩ := exists_countedFromLeft hseparator text
  have hlength := (countedFromLeft_iff hseparator text count).1 hcount
  refine ⟨count, by rw [splitOn_of_ne_nil htext hseparator, hlength], fun n => ?_⟩
  rw [countedFromLeft_iff hseparator, hlength]
  exact ⟨fun h => (Nat.succ.inj h).symm, fun h => congrArg Nat.succ h.symm⟩

end Text

namespace Eval

open JsonFilter.Filter Json

/-! ### Operations on values -/

theorem mapM_joinText (parts : List (List Char)) :
    (parts.map fun part => Value.string (.ofList part)).mapM joinText = .ok parts := by
  induction parts with
  | nil => rfl
  | cons part parts ih =>
    rw [List.map_cons, List.mapM_cons, ih, joinText, String.toList_ofList]
    rfl

theorem join_ofStrings (parts : List (List Char)) (separator : String) :
    join (Value.ofStrings parts) (.string separator) =
      .ok (.string (.ofList (Text.join separator.toList parts))) := by
  rw [Value.ofStrings, join, mapM_joinText]
  rfl

theorem join_split (text separator : String) :
    join (Value.split text separator) (.string separator) = .ok (.string text) := by
  rw [Value.split, join_ofStrings, Text.join_splitOn, String.ofList_toList]

/-! ### Filters -/

/-- A builtin whose operand is a constant makes one result of every input. -/
theorem shown_operand {name : String} {b : Unary} {g : Value → Value → Outcome Value}
    (hname : Unary.ofName? name = some b)
    (hb : ∀ c input f, callUnary c input f b = withOperand f input g) (operand : Literal) (span : Span)
    (c : Context) (input : Value) :
    (eval (.call name [.literal operand] span) c input).shown =
      .one (resultOf (g input (literalValue operand))) := by
  rw [eval_unary hname, Outputs.shown_guarded, hb, withOperand, Outputs.shown_bind, shown_literal,
    Showing.one_bind, Outputs.shown_lift]

theorem shown_split (text separator : String) (span : Span) (c : Context) :
    (eval (.call "split" [.literal (.string separator)] span) c (.string text)).shown =
      .one (.ok (Value.split text separator)) :=
  shown_operand (b := .split) (by decide) (fun _ _ _ => rfl) (.string separator) span c (.string text)

/-- **Joining undoes splitting.**  For every text and every separator, of any characters and also empty:
what is split and joined with the same separator is the text; the quotient of two strings is the same array.

No part holds a separator that is not empty, and in a text that is not empty there is one part more than
separators, counted from the left without overlaps.  An empty separator leaves single characters. -/
theorem join_undoes_split (text separator : String) (c : Context) (p q : Span) :
    let constant : Expr := .literal (.string separator)
    (eval (.pipe (.call "split" [constant] p) (.call "join" [constant] q)) c (.string text)).Gives
        [.string text] ∧
      (eval (.binary .div .identity constant) c (.string text)).Alike
        (eval (.call "split" [constant] p) c (.string text)) ∧
      ∃ parts : List String,
        (eval (.call "split" [constant] p) c (.string text)).Gives [.array (parts.map .string)] ∧
        (separator ≠ "" →
          (∀ part ∈ parts, ¬ separator.toList <:+: part.toList) ∧
          (text ≠ "" → ∃ count, parts.length = count + 1 ∧
            ∀ n, Text.CountedFromLeft separator.toList text.toList n ↔ n = count)) ∧
        (separator = "" → parts = text.toList.map fun ch => String.ofList [ch]) := by
  intro constant
  have hparts : Value.split text separator =
      .array (((Text.splitOn text.toList separator.toList).map String.ofList).map .string) := by
    rw [Value.split, Value.ofStrings, List.map_map]
    rfl
  have hsplit := shown_split text separator p c
  refine ⟨.of_shown ?_, Outputs.alike_iff.2 ?_,
    (Text.splitOn text.toList separator.toList).map String.ofList, .of_shown (hparts ▸ hsplit),
    fun hseparator => ⟨fun part hpart => ?_, fun htext => ?_⟩, ?_⟩
  · rw [shown_pipe, hsplit, Showing.one_bind,
      shown_operand (b := .join) (g := join) (by decide) (fun _ _ _ => rfl)]
    show Showing.one (resultOf (join _ (.string separator))) = _
    rw [join_split]
    rfl
  · rw [hsplit]
    rfl
  · obtain ⟨chars, hchars, rfl⟩ := List.mem_map.1 hpart
    rw [String.toList_ofList]
    exact Text.not_infix_of_mem_splitOn (mt String.toList_eq_nil_iff.1 hseparator) hchars
  · obtain ⟨count, hlength, hcount⟩ := Text.exists_length_splitOn (mt String.toList_eq_nil_iff.1 htext)
      (mt String.toList_eq_nil_iff.1 hseparator)
    exact ⟨count, by rw [List.length_map, hlength], hcount⟩
  · rintro rfl
    rw [String.toList_empty, Text.splitOn_nil, List.map_map]
    rfl

/-- In `aaa` the separator `aa` stands at two places, and only the first counts. -/
theorem join_undoes_split_overlapping :
    let constant : Expr := .literal (.string "aa")
    let c := Context.empty .null 0
    "aa" ≠ "" ∧ "aaa" ≠ "" ∧
      (eval (.pipe (.call "split" [constant] (.point 0)) (.call "join" [constant] (.point 0))) c
        (.string "aaa")).Gives [.string "aaa"] ∧
      ∃ parts : List String,
        (eval (.call "split" [constant] (.point 0)) c (.string "aaa")).Gives
          [.array (parts.map .string)] ∧
        parts.length = 2 ∧ ∀ part ∈ parts, ¬ ['a', 'a'] <:+: part.toList := by
  intro constant c
  have hseparator : "aa" ≠ "" := by decide
  have htext : "aaa" ≠ "" := by decide
  obtain ⟨hjoined, -, parts, hsplit, hparts, -⟩ := join_undoes_split "aaa" "aa" c (.point 0) (.point 0)
  obtain ⟨hclear, hcounts⟩ := hparts hseparator
  obtain ⟨count, hlength, hcount⟩ := hcounts htext
  have hone : Text.CountedFromLeft ['a', 'a'] ([] ++ ['a', 'a'] ++ ['a']) 1 :=
    .found (Text.firstBehind_nil (List.cons_ne_nil _ _)) (.none (by decide))
  obtain rfl : 1 = count := (hcount 1).1 hone
  exact ⟨hseparator, htext, hjoined, parts, hsplit, hlength, hclear⟩

end Eval

end JsonFilter
