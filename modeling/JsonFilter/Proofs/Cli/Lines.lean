import JsonFilter.Cli.Run
import Mathlib.Data.List.Basic

/-!
# Lines and their numbers

A batch cuts its file into lines, numbers them and leaves out those that are blank.  The numbers are given
before anything is left out, so that a line has the number that an editor shows, whatever stands before it.

* **`linesOf_join`** — lines end with a line feed, which a carriage return may precede; the last one need
  not end at all.
* **`mem_numberedLines_iff`** — a line that is not blank stands under its place in the file.
-/

namespace JsonFilter

/-! ### Cutting at a character -/

namespace Text

variable {separator : Char} {part rest : List Char}

/-- A part without the separator ends where the separator comes. -/
theorem splitFrom_append_cons (h : separator ∉ part) (seen : List Char) :
    splitFrom [separator] (part ++ separator :: rest) 0 seen =
      (seen.reverse ++ part) :: splitFrom [separator] rest 0 [] := by
  induction part generalizing seen with
  | nil =>
    have hfound : [separator].isPrefixOf (separator :: rest) = true := by simp
    rw [List.nil_append, List.append_nil]
    show (if [separator].isPrefixOf (separator :: rest) = true then _ else _) = _
    rw [if_pos hfound]
    rfl
  | cons c part ih =>
    obtain ⟨hne, hrest⟩ := List.ne_and_not_mem_of_not_mem_cons h
    have hnot : ¬[separator].isPrefixOf (c :: (part ++ separator :: rest)) = true := by simp [hne]
    show (if [separator].isPrefixOf (c :: (part ++ separator :: rest)) = true then _ else
      splitFrom [separator] (part ++ separator :: rest) 0 (c :: seen)) = _
    rw [if_neg hnot, ih hrest, List.reverse_cons, List.append_assoc, List.singleton_append]

/-- A text without the separator is one part. -/
theorem splitFrom_of_not_mem (h : separator ∉ part) (seen : List Char) :
    splitFrom [separator] part 0 seen = [seen.reverse ++ part] := by
  induction part generalizing seen with
  | nil => rw [List.append_nil]; rfl
  | cons c part ih =>
    obtain ⟨hne, hrest⟩ := List.ne_and_not_mem_of_not_mem_cons h
    have hnot : ¬[separator].isPrefixOf (c :: part) = true := by simp [hne]
    show (if [separator].isPrefixOf (c :: part) = true then _ else _) = _
    rw [if_neg hnot, ih hrest, List.reverse_cons, List.append_assoc, List.singleton_append]

/-- Parts that the separator ends, and one behind them. -/
theorem splitFrom_join {ended : List (List Char)} {last : List Char}
    (hended : ∀ part ∈ ended, separator ∉ part) (hlast : separator ∉ last) :
    splitFrom [separator] (ended.flatMap (· ++ [separator]) ++ last) 0 [] = ended ++ [last] := by
  induction ended with
  | nil => exact splitFrom_of_not_mem hlast []
  | cons part ended ih =>
    have hpart : separator ∉ part := hended part List.mem_cons_self
    have hothers : ∀ other ∈ ended, separator ∉ other := fun other hother =>
      hended other (List.mem_cons_of_mem _ hother)
    rw [List.flatMap_cons, List.append_assoc, List.append_assoc, List.singleton_append,
      splitFrom_append_cons hpart, ih hothers]
    rfl

end Text

namespace Cli

/-! ### Lines -/

/-- **The lines of a text** end with a line feed, which a carriage return may precede.  What stands behind
the last line feed is a line as it is, unless it is empty. -/
theorem Work.linesOf_join {ended : List (List Char)} {last : List Char}
    (hended : ∀ line ∈ ended, '\n' ∉ line) (hlast : '\n' ∉ last) :
    linesOf (ended.flatMap (· ++ ['\n']) ++ last) =
      (ended.map fun line => (Text.dropEnd? ['\r'] line).getD line) ++ [last].filter (· ≠ []) := by
  have hpieces : ended = [] ∧ last = [] ∨
      Text.splitOn (ended.flatMap (· ++ ['\n']) ++ last) ['\n'] = ended ++ [last] := by
    cases hempty : (ended.flatMap (· ++ ['\n']) ++ last).isEmpty with
    | true =>
      obtain ⟨hflat, hnil⟩ := List.append_eq_nil_iff.1 (List.isEmpty_iff.1 hempty)
      refine .inl ⟨List.eq_nil_iff_forall_not_mem.2 fun line hline => ?_, hnil⟩
      exact List.append_ne_nil_of_right_ne_nil line (List.cons_ne_nil '\n' [])
        (List.flatMap_eq_nil_iff.1 hflat line hline)
    | false =>
      right
      unfold Text.splitOn
      rw [hempty, if_neg Bool.false_ne_true]
      exact Text.splitFrom_join hended hlast
  rcases hpieces with ⟨rfl, rfl⟩ | hpieces
  · rfl
  · unfold linesOf
    rw [hpieces]
    dsimp only
    rw [List.dropLast_concat, List.getLast?_concat]
    cases last with
    | nil => exact (List.append_nil _).symm
    | cons c last => rfl

/-- The carriage return at the very end belongs to its line. -/
example : Work.linesOf ['a', '\r', '\n', '\n', 'b', '\r'] = [['a'], [], ['b', '\r']] := by decide

/-! ### Numbers -/

/-- **A line has its number in the file,** whether or not there are blank lines before it. -/
theorem Work.mem_numberedLines_iff {text : String} {number : Nat} {json : String} :
    (number, json) ∈ numberedLines text ↔
      0 < number ∧ ∃ line, (linesOf text.toList)[number - 1]? = some line ∧
        (Text.trim line).isEmpty = false ∧ json = .ofList line := by
  unfold numberedLines
  rw [List.mem_filterMap]
  constructor
  · rintro ⟨⟨line, n⟩, hmem, hsome⟩
    dsimp only at hsome
    split at hsome
    · cases hsome
    · rename_i hblank
      obtain ⟨rfl, rfl⟩ := Prod.mk.inj (Option.some.inj hsome)
      obtain ⟨hpos, hline⟩ := List.mk_mem_zipIdx_iff_le_and_getElem?_sub.1 hmem
      exact ⟨hpos, line, hline, Bool.eq_false_iff.2 hblank, rfl⟩
  · rintro ⟨hpos, line, hline, hblank, rfl⟩
    refine ⟨(line, number), List.mk_mem_zipIdx_iff_le_and_getElem?_sub.2 ⟨hpos, hline⟩, ?_⟩
    dsimp only
    rw [hblank, if_neg Bool.false_ne_true]

/-- The lines stand in their order. -/
theorem Work.numberedLines_increasing (text : String) :
    (numberedLines text).Pairwise fun line line' => line.1 < line'.1 := by
  have hnumbers : ((linesOf text.toList).zipIdx 1).Pairwise fun line line' => line.2 < line'.2 := by
    rw [← List.pairwise_map, List.zipIdx_map_snd]
    exact List.pairwise_lt_range'
  unfold numberedLines
  refine List.pairwise_filterMap.2 (hnumbers.imp ?_)
  rintro ⟨line, n⟩ ⟨line', n'⟩ hless
  dsimp only at hless ⊢
  split <;> split <;> simp_all

end Cli
end JsonFilter
