import JsonFilter.Text.EditDistance
import Mathlib.Data.List.Induction
import Mathlib.Order.Bounds.Basic
import Mathlib.Order.MinMax

/-!
# Edit scripts

`editDistance` fills a table row by row and keeps one row at a time.  This file says what the last entry of
the last row is, without the table: the least number of edits that turn one text into the other, over all
scripts of edits, of any length and at any places.

## Alignments

A script may edit the same place again and again, so it cannot be taken apart from the front.  `Aligned`
texts stand one above the other, column by column; every column that differs costs one edit.  A script is at
least as long as the cost of some alignment, since one more edit in front costs at most one column more
(`Edit.aligned`).

## The table

The columns of an alignment are taken off at the end where the table adds characters, so an entry of the
table speaks of reversed texts.  `LeastCost` says what an entry stands for, `IsRow` says it of the rest of a
row.

* `LeastCost.step` — an entry from its three neighbours.
* `isRow_editRow` — a row from the row above it.
* **`suggestions_are_nearest`** — the distance is the length of a shortest script, and a suggestion is the
  first of the nearest candidates.
-/

namespace JsonFilter.Text

variable {s t u : List Char} {m n : Nat}

/-! ### Scripts -/

/-- A single edit: a character comes in, goes out or is replaced, at any place. -/
inductive Edit : List Char → List Char → Prop
  | insert (before : List Char) (c : Char) (behind : List Char) :
    Edit (before ++ behind) (before ++ c :: behind)
  | delete (before : List Char) (c : Char) (behind : List Char) :
    Edit (before ++ c :: behind) (before ++ behind)
  | substitute (before : List Char) (c d : Char) (behind : List Char) :
    Edit (before ++ c :: behind) (before ++ d :: behind)

/-- A script: so many edits, one after the other. -/
inductive Edits : Nat → List Char → List Char → Prop
  | nothing (s : List Char) : Edits 0 s s
  | step {n : Nat} {s t u : List Char} : Edit s t → Edits n t u → Edits (n + 1) s u

/-- What an edit does can be undone by an edit. -/
theorem Edit.symm (h : Edit s t) : Edit t s := by
  cases h with
  | insert before c behind => exact .delete before c behind
  | delete before c behind => exact .insert before c behind
  | substitute before c d behind => exact .substitute before d c behind

/-- The same edit from the other end. -/
theorem Edit.reverse (h : Edit s t) : Edit s.reverse t.reverse := by
  cases h with
  | insert before c behind => simpa using Edit.insert behind.reverse c before.reverse
  | delete before c behind => simpa using Edit.delete behind.reverse c before.reverse
  | substitute before c d behind => simpa using Edit.substitute behind.reverse c d before.reverse

/-- The same edit behind one more character. -/
theorem Edit.cons (c : Char) (h : Edit s t) : Edit (c :: s) (c :: t) := by
  cases h with
  | insert before d behind => exact .insert (c :: before) d behind
  | delete before d behind => exact .delete (c :: before) d behind
  | substitute before d e behind => exact .substitute (c :: before) d e behind

namespace Edits

/-- One script after another. -/
theorem trans (h : Edits m s t) (h' : Edits n t u) : Edits (m + n) s u := by
  induction h with
  | nothing s => rwa [Nat.zero_add]
  | step hedit _ ih =>
    rw [Nat.add_right_comm]
    exact .step hedit (ih h')

theorem one (h : Edit s t) : Edits 1 s t := .step h (.nothing t)

theorem symm (h : Edits n s t) : Edits n t s := by
  induction h with
  | nothing s => exact .nothing s
  | step hedit _ ih => exact ih.trans (one hedit.symm)

theorem reverse (h : Edits n s t) : Edits n s.reverse t.reverse := by
  induction h with
  | nothing s => exact .nothing _
  | step hedit _ ih => exact .step hedit.reverse ih

theorem cons (c : Char) (h : Edits n s t) : Edits n (c :: s) (c :: t) := by
  induction h with
  | nothing s => exact .nothing _
  | step hedit _ ih => exact .step (hedit.cons c) ih

/-- No edit leads from a text to another one. -/
theorem eq_of_zero (h : Edits 0 s t) : s = t := by
  cases h with
  | nothing => rfl

end Edits

/-! ### Alignments -/

/-- **Two texts stand one above the other**, and so many columns differ: in the two characters, or
because one of them is missing. -/
inductive Aligned : Nat → List Char → List Char → Prop
  | nil : Aligned 0 [] []
  | keep {n : Nat} {s t : List Char} (c : Char) : Aligned n s t → Aligned n (c :: s) (c :: t)
  | substitute {n : Nat} {s t : List Char} (c d : Char) :
    Aligned n s t → Aligned (n + 1) (c :: s) (d :: t)
  | delete {n : Nat} {s t : List Char} (c : Char) : Aligned n s t → Aligned (n + 1) (c :: s) t
  | insert {n : Nat} {s t : List Char} (d : Char) : Aligned n s t → Aligned (n + 1) s (d :: t)

namespace Aligned

theorem refl (s : List Char) : Aligned 0 s s := by
  induction s with
  | nil => exact .nil
  | cons c s ih => exact .keep c ih

/-- The columns that differ are a script, the last column first. -/
theorem edits (h : Aligned n s t) : Edits n s t := by
  induction h with
  | nil => exact .nothing []
  | keep c _ ih => exact ih.cons c
  | @substitute n s t c d _ ih => exact (ih.cons c).trans (.one (.substitute [] c d t))
  | @delete n s t c _ ih => exact (ih.cons c).trans (.one (.delete [] c t))
  | @insert n s t d _ ih => exact ih.trans (.one (.insert [] d t))

/-- A character can be left out at the front for one column more. -/
theorem of_cons {c : Char} (h : Aligned n (c :: t) u) : ∃ k ≤ n + 1, Aligned k t u := by
  generalize hfront : c :: t = front at h
  induction h with
  | nil => cases hfront
  | @keep n s u c h _ =>
    cases hfront
    exact ⟨n + 1, Nat.le_refl _, h.insert c⟩
  | @substitute n s u c d h _ =>
    cases hfront
    exact ⟨n + 1, by omega, h.insert d⟩
  | @delete n s u c h _ =>
    cases hfront
    exact ⟨n, by omega, h⟩
  | insert d _ ih =>
    obtain ⟨k, hk, haligned⟩ := ih hfront
    exact ⟨k + 1, by omega, haligned.insert d⟩

/-- So can it be replaced. -/
theorem replace_front {c d : Char} (h : Aligned n (d :: t) u) :
    ∃ k ≤ n + 1, Aligned k (c :: t) u := by
  generalize hfront : d :: t = front at h
  induction h with
  | nil => cases hfront
  | @keep n s u d h _ =>
    cases hfront
    exact ⟨n + 1, Nat.le_refl _, h.substitute c d⟩
  | @substitute n s u d e h _ =>
    cases hfront
    exact ⟨n + 1, by omega, h.substitute c e⟩
  | @delete n s u d h _ =>
    cases hfront
    exact ⟨n + 1, by omega, h.delete c⟩
  | insert e _ ih =>
    obtain ⟨k, hk, haligned⟩ := ih hfront
    exact ⟨k + 1, by omega, haligned.insert e⟩

/-- What costs at most one column more costs no more behind another character. -/
theorem behind (c : Char) (hnear : ∀ {n u}, Aligned n t u → ∃ k ≤ n + 1, Aligned k s u)
    (h : Aligned n (c :: t) u) : ∃ k ≤ n + 1, Aligned k (c :: s) u := by
  generalize hfront : c :: t = front at h
  induction h with
  | nil => cases hfront
  | keep d h _ =>
    cases hfront
    obtain ⟨k, hk, haligned⟩ := hnear h
    exact ⟨k, hk, haligned.keep c⟩
  | substitute d e h _ =>
    cases hfront
    obtain ⟨k, hk, haligned⟩ := hnear h
    exact ⟨k + 1, by omega, haligned.substitute c e⟩
  | delete d h _ =>
    cases hfront
    obtain ⟨k, hk, haligned⟩ := hnear h
    exact ⟨k + 1, by omega, haligned.delete c⟩
  | insert e _ ih =>
    obtain ⟨k, hk, haligned⟩ := ih hfront
    exact ⟨k + 1, by omega, haligned.insert e⟩

end Aligned

/-- **One more edit in front costs at most one column more,** wherever it is made. -/
theorem Edit.aligned (h : Edit s t) (haligned : Aligned n t u) : ∃ k ≤ n + 1, Aligned k s u := by
  cases h with
  | insert before c behind =>
    induction before generalizing n u with
    | nil => exact haligned.of_cons
    | cons a before ih => exact Aligned.behind a ih haligned
  | delete before c behind =>
    induction before generalizing n u with
    | nil => exact ⟨n + 1, Nat.le_refl _, haligned.delete c⟩
    | cons a before ih => exact Aligned.behind a ih haligned
  | substitute before c d behind =>
    induction before generalizing n u with
    | nil => exact haligned.replace_front
    | cons a before ih => exact Aligned.behind a ih haligned

/-- **No script is shorter than every alignment.** -/
theorem Edits.exists_aligned (h : Edits n s t) : ∃ k ≤ n, Aligned k s t := by
  induction h with
  | nothing s => exact ⟨0, Nat.le_refl _, Aligned.refl s⟩
  | step hedit _ ih =>
    obtain ⟨j, hj, haligned⟩ := ih
    obtain ⟨k, hk, hfirst⟩ := hedit.aligned haligned
    exact ⟨k, by omega, hfirst⟩

/-! ### The table -/

/-- The cost of a cheapest alignment. -/
def LeastCost (n : Nat) (s t : List Char) : Prop := IsLeast {k | Aligned k s t} n

namespace LeastCost

variable {c d : Char} {up left diagonal : Nat}

/-- A cheapest alignment costs as much as a shortest script. -/
theorem edits (h : LeastCost n s t) : IsLeast {k | Edits k s t} n := by
  refine ⟨Aligned.edits h.1, fun k hk => ?_⟩
  obtain ⟨j, hj, haligned⟩ := Edits.exists_aligned hk
  exact (h.2 haligned).trans hj

theorem nil_left (t : List Char) : LeastCost t.length [] t := by
  constructor
  · induction t with
    | nil => exact .nil
    | cons d t ih => exact Aligned.insert d ih
  · intro k hk
    induction t generalizing k with
    | nil => exact Nat.zero_le k
    | cons d t ih =>
      cases hk with
      | insert _ h => exact Nat.succ_le_succ (ih h)

/-- With nothing below, every character costs a column. -/
theorem delete_front (h : LeastCost n s []) (c : Char) : LeastCost (n + 1) (c :: s) [] := by
  refine ⟨Aligned.delete c h.1, fun k hk => ?_⟩
  cases hk with
  | delete _ hrest => exact Nat.succ_le_succ (h.2 hrest)

/-- **An entry of the table from its three neighbours**: the first column has a character missing below, or
above, or has two characters. -/
theorem step (hup : LeastCost up s (d :: t)) (hleft : LeastCost left (c :: s) t)
    (hdiagonal : LeastCost diagonal s t) :
    LeastCost (min (min (up + 1) (left + 1)) (diagonal + if c = d then 0 else 1))
      (c :: s) (d :: t) := by
  have hcolumn : Aligned (diagonal + if c = d then 0 else 1) (c :: s) (d :: t) := by
    split
    · rename_i heq
      subst heq
      exact Aligned.keep c hdiagonal.1
    · exact Aligned.substitute c d hdiagonal.1
  constructor
  · rcases min_choice (min (up + 1) (left + 1)) (diagonal + if c = d then 0 else 1) with hmin | hmin
    · rcases min_choice (up + 1) (left + 1) with hside | hside
      · rw [hmin, hside]
        exact Aligned.delete c hup.1
      · rw [hmin, hside]
        exact Aligned.insert d hleft.1
    · rw [hmin]
      exact hcolumn
  · intro k hk
    cases hk with
    | keep _ h =>
      have hle := hdiagonal.2 h
      rw [if_pos rfl]
      omega
    | substitute _ _ h =>
      have hle := hdiagonal.2 h
      split <;> omega
    | delete _ h =>
      have hle := hup.2 h
      omega
    | insert _ h =>
      have hle := hleft.2 h
      omega

end LeastCost

/-- The rest of a row of the table, behind the prefix `t` of the target read so far, last character first:
for each character to come the cost of the prefix that ends with it. -/
def IsRow (s : List Char) : List Char → List Char → List Nat → Prop
  | _, [], [] => True
  | t, d :: rest, entry :: entries => LeastCost entry s (d :: t) ∧ IsRow s (d :: t) rest entries
  | _, _, _ => False

/-- **A row from the row above it.** -/
theorem isRow_editRow {c : Char} {rest : List Char} {above : List Nat} {diagonal left : Nat}
    (habove : IsRow s t rest above) (hdiagonal : LeastCost diagonal s t)
    (hleft : LeastCost left (c :: s) t) :
    IsRow (c :: s) t rest (editRow c rest above diagonal left) := by
  induction rest generalizing t above diagonal left with
  | nil =>
    cases above with
    | nil => trivial
    | cons up above => cases habove
  | cons d rest ih =>
    cases above with
    | nil => cases habove
    | cons up above =>
      obtain ⟨hup, habove⟩ := habove
      have hentry := LeastCost.step hup hleft hdiagonal
      exact ⟨hentry, ih habove hup hentry⟩

/-- The first row: every character of the target is missing above. -/
theorem isRow_range (t rest : List Char) :
    IsRow [] t rest (List.range' (t.length + 1) rest.length) := by
  induction rest generalizing t with
  | nil => trivial
  | cons d rest ih => exact ⟨LeastCost.nil_left (d :: t), ih (d :: t)⟩

/-- The last entry of a row. -/
theorem IsRow.last {rest : List Char} {entries : List Nat} {first : Nat} (h : IsRow s t rest entries)
    (hfirst : LeastCost first s t) :
    LeastCost ((first :: entries).getLast?.getD 0) s (rest.reverse ++ t) := by
  induction rest generalizing t entries first with
  | nil =>
    cases entries with
    | nil => exact hfirst
    | cons entry entries => cases h
  | cons d rest ih =>
    cases entries with
    | nil => cases h
    | cons entry entries =>
      obtain ⟨hentry, hentries⟩ := h
      have hlast := ih hentries hentry
      rw [List.getLast?_cons_cons, List.reverse_cons, List.append_assoc]
      exact hlast

/-- **The rows in order**: each character of the source adds one. -/
theorem exists_lastRow (target source : List Char) {first : Nat} {entries : List Nat}
    (hfirst : LeastCost first s []) (hrow : IsRow s [] target entries) :
    ∃ first' entries',
      source.foldl (fun row c => nextEditRow target c row) (first :: entries) = first' :: entries' ∧
        LeastCost first' (source.reverse ++ s) [] ∧
        IsRow (source.reverse ++ s) [] target entries' := by
  induction source generalizing s first entries with
  | nil => exact ⟨first, entries, rfl, hfirst, hrow⟩
  | cons c source ih =>
    have hnext := hfirst.delete_front c
    rw [List.reverse_cons, List.append_assoc]
    exact ih hnext (isRow_editRow hrow hfirst hnext)

/-- **The last entry of the table** is the cost of a cheapest alignment of the reversed texts. -/
theorem leastCost_editDistance (source target : List Char) :
    LeastCost (editDistance source target) source.reverse target.reverse := by
  obtain ⟨first, entries, hrows, hfirst, hrow⟩ :=
    exists_lastRow target source (LeastCost.nil_left []) (isRow_range [] target)
  have hlast := hrow.last hfirst
  rw [List.append_nil, List.append_nil] at hlast
  unfold editDistance
  rw [List.range_eq_range']
  show LeastCost ((source.foldl _ (0 :: List.range' 1 target.length)).getLast?.getD 0) _ _
  rw [show source.foldl _ (0 :: List.range' 1 target.length) = first :: entries from hrows]
  exact hlast

/-- **The distance is the length of a shortest script.** -/
theorem isLeast_editDistance (s t : List Char) : IsLeast {n | Edits n s t} (editDistance s t) := by
  obtain ⟨hreached, hleast⟩ := (leastCost_editDistance s t).edits
  refine ⟨by simpa using Edits.reverse hreached, fun n hn => hleast (Edits.reverse hn)⟩

/-! ### Suggestions -/

/-- The first of the candidates nearest to a target, if it is near enough. -/
def firstNearest (distance : String → Nat) (threshold : Nat) (candidates : List String) :
    Option String :=
  candidates.find? fun c =>
    decide (distance c ≤ threshold ∧ ∀ other ∈ candidates, distance c ≤ distance other)

/-- **What is known of the best candidate** among those looked at: nothing is near enough, or it is the first
of the nearest ones. -/
def IsBest (distance : String → Nat) (threshold : Nat) (seen : List String) :
    Option (Nat × String) → Prop
  | none => ∀ x ∈ seen, threshold < distance x
  | some (least, c) => least = distance c ∧ distance c ≤ threshold ∧
      ∃ before behind, seen = before ++ c :: behind ∧ (∀ x ∈ before, distance c < distance x) ∧
        ∀ x ∈ behind, distance c ≤ distance x

theorem IsBest.firstNearest_eq {distance : String → Nat} {threshold : Nat} {seen : List String}
    {best : Option (Nat × String)} (h : IsBest distance threshold seen best) :
    best.map Prod.snd = firstNearest distance threshold seen := by
  symm
  cases best with
  | none =>
    refine List.find?_eq_none.2 fun x hx hnear => ?_
    exact absurd (of_decide_eq_true hnear).1 (Nat.not_le_of_lt (h x hx))
  | some best =>
    obtain ⟨least, c⟩ := best
    obtain ⟨-, hnear, before, behind, rfl, hbefore, hbehind⟩ := h
    refine List.find?_eq_some_iff_append.2 ⟨decide_eq_true ⟨hnear, ?_⟩, before, behind, rfl, ?_⟩
    · intro other hother
      rcases List.mem_append.1 hother with hmem | hmem
      · exact Nat.le_of_lt (hbefore other hmem)
      · rcases List.mem_cons.1 hmem with rfl | hmem
        · exact Nat.le_refl _
        · exact hbehind other hmem
    · intro x hx
      have hthere : c ∈ before ++ c :: behind := List.mem_append_right _ List.mem_cons_self
      have hfarther : ¬(distance x ≤ threshold ∧ ∀ other ∈ before ++ c :: behind,
          distance x ≤ distance other) := fun hleast =>
        absurd (hleast.2 c hthere) (Nat.not_le_of_lt (hbefore x hx))
      rw [decide_eq_false hfarther]
      rfl

/-- **The search finds the first of the nearest candidates.** -/
theorem closest?_eq_firstNearest (target : String) (candidates : List String) :
    closest? target candidates =
      firstNearest (fun c => editDistance target.toList c.toList) (suggestionThreshold target)
        candidates := by
  let distance (c : String) : Nat := editDistance target.toList c.toList
  let better (best : Option (Nat × String)) (candidate : String) : Option (Nat × String) :=
    match best with
    | none =>
      if distance candidate ≤ suggestionThreshold target then some (distance candidate, candidate)
      else none
    | some (least, _) =>
      if distance candidate < least then some (distance candidate, candidate) else best
  suffices hbest : IsBest distance (suggestionThreshold target) candidates
      (candidates.foldl better none) from hbest.firstNearest_eq
  induction candidates using List.reverseRecOn with
  | nil => exact fun x hx => absurd hx List.not_mem_nil
  | append_singleton seen candidate ih =>
    rw [List.foldl_append, List.foldl_cons, List.foldl_nil]
    cases hsofar : seen.foldl better none with
    | none =>
      rw [hsofar] at ih
      have hfar : ∀ x ∈ seen, suggestionThreshold target < distance x := ih
      show IsBest _ _ _ (if distance candidate ≤ suggestionThreshold target then _ else none)
      split
      · rename_i hnear
        exact ⟨rfl, hnear, seen, [], rfl, fun x hx => Nat.lt_of_le_of_lt hnear (hfar x hx),
          fun x hx => absurd hx List.not_mem_nil⟩
      · rename_i hfarther
        refine List.forall_mem_append.2 ⟨hfar, List.forall_mem_singleton.2 ?_⟩
        exact Nat.lt_of_not_le hfarther
    | some best =>
      obtain ⟨least, c⟩ := best
      rw [hsofar] at ih
      obtain ⟨rfl, hnear, before, behind, rfl, hbefore, hbehind⟩ := ih
      show IsBest _ _ _ (if distance candidate < distance c then _ else some (distance c, c))
      split
      · rename_i hless
        refine ⟨rfl, by omega, before ++ c :: behind, [], rfl, fun x hx => ?_,
          fun x hx => absurd hx List.not_mem_nil⟩
        rcases List.mem_append.1 hx with hmem | hmem
        · exact Nat.lt_trans hless (hbefore x hmem)
        · rcases List.mem_cons.1 hmem with rfl | hmem
          · exact hless
          · exact Nat.lt_of_lt_of_le hless (hbehind x hmem)
      · rename_i hleast
        refine ⟨rfl, hnear, before, behind ++ [candidate], by simp, hbefore, ?_⟩
        exact List.forall_mem_append.2
          ⟨hbehind, List.forall_mem_singleton.2 (Nat.le_of_not_lt hleast)⟩

/-- **Suggestions are nearest by true edit distance.**  For any two texts, the distance is the least number
of insertions, deletions and substitutions of single characters in a script that turns one into the other;
so it is the same in both directions, zero for equal texts only, and no detour is shorter.  A suggestion is
the first of the candidates whose distance from the target is least, if that is at most one for targets of
fewer than three bytes and at most three for others; otherwise nothing is suggested. -/
theorem suggestions_are_nearest :
    (∀ s t : List Char, IsLeast {n | Edits n s t} (editDistance s t)) ∧
      (∀ s t, editDistance s t = editDistance t s) ∧
      (∀ s t, editDistance s t = 0 ↔ s = t) ∧
      (∀ s t u, editDistance s u ≤ editDistance s t + editDistance t u) ∧
      ∀ (target : String) (candidates : List String),
        let distance (c : String) : Nat := editDistance target.toList c.toList
        let threshold := if target.utf8ByteSize < 3 then 1 else 3
        closest? target candidates = candidates.find? fun c =>
          decide (distance c ≤ threshold ∧ ∀ other ∈ candidates, distance c ≤ distance other) := by
  have hshortest := isLeast_editDistance
  have hle : ∀ s t, editDistance s t ≤ editDistance t s := fun s t =>
    (hshortest s t).2 (Edits.symm (hshortest t s).1)
  refine ⟨hshortest, fun s t => Nat.le_antisymm (hle s t) (hle t s), fun s t => ⟨fun hzero => ?_, ?_⟩,
    fun s t u => ?_, closest?_eq_firstNearest⟩
  · have hscript : Edits (editDistance s t) s t := (hshortest s t).1
    rw [hzero] at hscript
    exact hscript.eq_of_zero
  · rintro rfl
    exact Nat.le_zero.1 ((hshortest s s).2 (Edits.nothing s))
  · exact (hshortest s u).2 (Edits.trans (hshortest s t).1 (hshortest t u).1)

example : editDistance "kitten".toList "sitting".toList = 3 := by decide +kernel

end JsonFilter.Text
