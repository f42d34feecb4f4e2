import JsonFilter.Text.Search
import Mathlib.Data.List.Infix

/-!
# Texts between separators

A text is read from the left.  Where the separator begins, the part before it is complete and the reading goes
on behind the separator, so an occurrence that overlaps one found before does not count.

* `FirstBehind` — a separator behind a part occurs nowhere earlier, not even across the border.
* **`leftmost_induction`** — a text holds no separator, or it begins with a part, its first separator and a
  text about which the same is known.
* `splitFrom_of_firstBehind`, `splitFrom_of_absent` — what is cut off in the two cases.
* `CountedFromLeft` — the number of occurrences that do not overlap, counted from the left.
* **`join_splitFrom`**, **`not_infix_of_mem_splitFrom`**, **`countedFromLeft_iff`** — the parts joined again,
  what is in them, and how many there are.
-/

namespace JsonFilter.Text

variable {separator : List Char}

/-- Behind the part the separator stands for the first time. -/
def FirstBehind (separator part : List Char) : Prop := ¬ separator <:+: (part ++ separator).dropLast

/-! ### The first separator -/

theorem dropLast_cons_append {c : Char} {part : List Char} (hne : separator ≠ []) :
    (c :: part ++ separator).dropLast = c :: (part ++ separator).dropLast :=
  List.dropLast_cons_of_ne_nil (List.append_ne_nil_of_right_ne_nil part hne)

theorem firstBehind_nil (hne : separator ≠ []) : FirstBehind separator [] := by
  intro hoccurs
  have hle := hoccurs.length_le
  have hpos := List.length_pos_iff.2 hne
  rw [List.nil_append, List.length_dropLast] at hle
  omega

theorem FirstBehind.tail (hne : separator ≠ []) {c : Char} {part : List Char}
    (h : FirstBehind separator (c :: part)) : FirstBehind separator part := by
  intro hoccurs
  refine h ?_
  rw [dropLast_cons_append hne]
  exact List.infix_cons hoccurs

/-- Before the part is complete no separator begins, whatever stands behind. -/
theorem FirstBehind.not_prefix (hne : separator ≠ []) {c : Char} {part : List Char}
    (h : FirstBehind separator (c :: part)) (rest : List Char) :
    ¬ separator <+: c :: (part ++ separator ++ rest) := by
  intro hbegins
  have hpos := List.length_pos_iff.2 hne
  refine h (List.IsPrefix.isInfix ?_)
  have hpart : (c :: part ++ separator).dropLast <+: c :: (part ++ separator ++ rest) :=
    (List.dropLast_prefix _).trans (List.prefix_append (c :: part ++ separator) rest)
  refine List.prefix_of_prefix_length_le hbegins hpart ?_
  rw [List.length_dropLast, List.length_append, List.length_cons]
  omega

/-- A text in which the separator occurs begins with a part and its first separator. -/
theorem exists_firstBehind (hne : separator ≠ []) {text : List Char} (h : separator <:+: text) :
    ∃ part rest, text = part ++ separator ++ rest ∧ FirstBehind separator part := by
  induction text with
  | nil => exact absurd (List.infix_nil.1 h) hne
  | cons c text ih =>
    by_cases hbegins : separator <+: c :: text
    · obtain ⟨rest, hrest⟩ := hbegins
      exact ⟨[], rest, hrest.symm, firstBehind_nil hne⟩
    · obtain ⟨part, rest, rfl, hfirst⟩ := ih ((List.infix_cons_iff.1 h).resolve_left hbegins)
      refine ⟨c :: part, rest, rfl, fun hoccurs => ?_⟩
      rw [dropLast_cons_append hne] at hoccurs
      rcases List.infix_cons_iff.1 hoccurs with hearlier | hlater
      · refine hbegins (hearlier.trans ?_)
        exact List.cons_prefix_cons.2
          ⟨rfl, (List.dropLast_prefix _).trans (List.prefix_append (part ++ separator) rest)⟩
      · exact hfirst hlater

/-- **Induction from the left,** one separator after the other. -/
theorem leftmost_induction (hne : separator ≠ []) {motive : List Char → Prop}
    (last : ∀ text, ¬ separator <:+: text → motive text)
    (found : ∀ part rest, FirstBehind separator part → motive rest → motive (part ++ separator ++ rest))
    (text : List Char) : motive text := by
  by_cases h : separator <:+: text
  · obtain ⟨part, rest, htext, hfirst⟩ := exists_firstBehind hne h
    have hshorter : rest.length < text.length := by
      have hpos := List.length_pos_iff.2 hne
      rw [htext, List.length_append, List.length_append]
      omega
    rw [htext]
    exact found part rest hfirst (leftmost_induction hne last found rest)
  · exact last text h
termination_by text.length

/-! ### What is cut off -/

/-- The characters of a separator that was found are left out. -/
theorem splitFrom_skip (skipped rest part : List Char) :
    splitFrom separator (skipped ++ rest) skipped.length part = splitFrom separator rest 0 part := by
  induction skipped with
  | nil => rfl
  | cons c skipped ih => exact ih

/-- The part in front of the first separator is cut off. -/
theorem splitFrom_of_firstBehind (hne : separator ≠ []) {part : List Char}
    (h : FirstBehind separator part) (rest seen : List Char) :
    splitFrom separator (part ++ separator ++ rest) 0 seen =
      (seen.reverse ++ part) :: splitFrom separator rest 0 [] := by
  induction part generalizing seen with
  | nil =>
    obtain ⟨c, others, rfl⟩ := List.exists_cons_of_ne_nil hne
    have hfound : (c :: others).isPrefixOf (c :: (others ++ rest)) = true :=
      List.isPrefixOf_iff_prefix.2 (List.prefix_append (c :: others) rest)
    rw [List.append_nil]
    show (if (c :: others).isPrefixOf (c :: (others ++ rest)) = true then _ else _) = _
    rw [if_pos hfound]
    exact congrArg (seen.reverse :: ·) (splitFrom_skip others rest [])
  | cons c part ih =>
    have hnot : ¬ separator.isPrefixOf (c :: (part ++ separator ++ rest)) = true :=
      fun hbegins => h.not_prefix hne rest (List.isPrefixOf_iff_prefix.1 hbegins)
    show (if separator.isPrefixOf (c :: (part ++ separator ++ rest)) = true then _ else
      splitFrom separator (part ++ separator ++ rest) 0 (c :: seen)) = _
    rw [if_neg hnot, ih (h.tail hne), List.reverse_cons, List.append_assoc, List.singleton_append]

/-- A text without a separator is one part. -/
theorem splitFrom_of_absent {text : List Char} (h : ¬ separator <:+: text) (seen : List Char) :
    splitFrom separator text 0 seen = [seen.reverse ++ text] := by
  induction text generalizing seen with
  | nil => exact congrArg ([·]) (List.append_nil _).symm
  | cons c text ih =>
    have hnot : ¬ separator.isPrefixOf (c :: text) = true :=
      fun hbegins => h (List.isPrefixOf_iff_prefix.1 hbegins).isInfix
    have hrest : ¬ separator <:+: text := fun hoccurs => h (List.infix_cons hoccurs)
    show (if separator.isPrefixOf (c :: text) = true then _ else splitFrom separator text 0 (c :: seen)) = _
    rw [if_neg hnot, ih hrest, List.reverse_cons, List.append_assoc, List.singleton_append]

/-! ### The parts -/

theorem splitFrom_ne_nil (hne : separator ≠ []) (text : List Char) :
    splitFrom separator text 0 [] ≠ [] := by
  induction text using leftmost_induction hne with
  | last text h =>
    rw [splitFrom_of_absent h]
    exact List.cons_ne_nil _ _
  | found part rest h _ =>
    rw [splitFrom_of_firstBehind hne h]
    exact List.cons_ne_nil _ _

theorem join_cons (part : List Char) {parts : List (List Char)} (hparts : parts ≠ []) :
    join separator (part :: parts) = part ++ separator ++ join separator parts := by
  obtain ⟨next, others, rfl⟩ := List.exists_cons_of_ne_nil hparts
  simp [join]

/-- **The parts joined again** are the text. -/
theorem join_splitFrom (hne : separator ≠ []) (text : List Char) :
    join separator (splitFrom separator text 0 []) = text := by
  induction text using leftmost_induction hne with
  | last text h =>
    rw [splitFrom_of_absent h]
    simp [join]
  | found part rest h ih =>
    rw [splitFrom_of_firstBehind hne h, join_cons _ (splitFrom_ne_nil hne rest), ih]
    rfl

/-- **No part holds the separator.** -/
theorem not_infix_of_mem_splitFrom (hne : separator ≠ []) {text part : List Char}
    (hpart : part ∈ splitFrom separator text 0 []) : ¬ separator <:+: part := by
  induction text using leftmost_induction hne with
  | last text h =>
    rw [splitFrom_of_absent h] at hpart
    rwa [List.mem_singleton.1 hpart]
  | found front rest h ih =>
    rw [splitFrom_of_firstBehind hne h] at hpart
    rcases List.mem_cons.1 hpart with rfl | hrest
    · intro hoccurs
      refine h (hoccurs.trans ?_)
      rw [List.dropLast_append_of_ne_nil hne]
      exact (List.prefix_append part separator.dropLast).isInfix
    · exact ih hrest

/-- The occurrences of a separator, each behind the one before, counted from the left. -/
inductive CountedFromLeft (separator : List Char) : List Char → Nat → Prop
  | none {text : List Char} : ¬ separator <:+: text → CountedFromLeft separator text 0
  | found {part rest : List Char} {count : Nat} : FirstBehind separator part →
    CountedFromLeft separator rest count → CountedFromLeft separator (part ++ separator ++ rest) (count + 1)

theorem CountedFromLeft.length_splitFrom (hne : separator ≠ []) {text : List Char} {count : Nat}
    (h : CountedFromLeft separator text count) :
    (splitFrom separator text 0 []).length = count + 1 := by
  induction h with
  | none h => rw [splitFrom_of_absent h, List.length_singleton]
  | found h _ ih => rw [splitFrom_of_firstBehind hne h, List.length_cons, ih]

theorem exists_countedFromLeft (hne : separator ≠ []) (text : List Char) :
    ∃ count, CountedFromLeft separator text count := by
  induction text using leftmost_induction hne with
  | last text h => exact ⟨0, .none h⟩
  | found part rest h ih =>
    obtain ⟨count, hcount⟩ := ih
    exact ⟨count + 1, .found h hcount⟩

/-- **There is one part more than separators.** -/
theorem countedFromLeft_iff (hne : separator ≠ []) (text : List Char) (count : Nat) :
    CountedFromLeft separator text count ↔ (splitFrom separator text 0 []).length = count + 1 := by
  refine ⟨CountedFromLeft.length_splitFrom hne, fun hlength => ?_⟩
  obtain ⟨counted, h⟩ := exists_countedFromLeft hne text
  obtain rfl : counted = count := Nat.succ.inj ((h.length_splitFrom hne).symm.trans hlength)
  exact h

end JsonFilter.Text
