import JsonFilter.Text.Position
import Mathlib.Data.List.Basic
import Mathlib.Data.List.DropRight

/-!
# Bytes and runs of a text

Places in a text count the bytes of its UTF-8 form.  A slice between two places that lie between characters
is the list of characters there.  Lines and columns count the line ends in front of a place and the characters
behind the last of them.  A run of characters of one kind ends where another character begins.
-/

namespace JsonFilter.Text

/-! ### Lengths -/

theorem byteLength_cons (c : Char) (cs : List Char) :
    byteLength (c :: cs) = c.utf8Size + byteLength cs := by
  have hshift : ∀ (cs : List Char) (n : Nat),
      cs.foldl (fun n c => n + c.utf8Size) n = n + byteLength cs := by
    intro cs
    induction cs with
    | nil => exact fun n => rfl
    | cons c cs ih =>
      intro n
      unfold byteLength
      rw [List.foldl_cons, List.foldl_cons, ih, ih]
      omega
  unfold byteLength
  rw [List.foldl_cons, hshift]
  unfold byteLength
  omega

theorem byteLength_append (xs ys : List Char) : byteLength (xs ++ ys) = byteLength xs + byteLength ys := by
  induction xs with
  | nil => exact (Nat.zero_add _).symm
  | cons c xs ih => rw [List.cons_append, byteLength_cons, byteLength_cons, ih, Nat.add_assoc]

theorem byteLength_concat (cs : List Char) (c : Char) : byteLength (cs ++ [c]) = byteLength cs + c.utf8Size := by
  rw [byteLength_append, byteLength_cons]
  rfl

theorem length_le_byteLength (cs : List Char) : cs.length ≤ byteLength cs := by
  induction cs with
  | nil => exact Nat.le_refl 0
  | cons c cs ih =>
    have hpos := c.utf8Size_pos
    rw [byteLength_cons, List.length_cons]
    omega

/-- Bytes and characters count the same where every character is a byte. -/
theorem byteLength_eq_length_iff {cs : List Char} : byteLength cs = cs.length ↔ ∀ c ∈ cs, c.utf8Size = 1 := by
  induction cs with
  | nil => exact ⟨fun _ => nofun, fun _ => rfl⟩
  | cons c cs ih =>
    have hpos := c.utf8Size_pos
    have hle := length_le_byteLength cs
    rw [byteLength_cons, List.length_cons, List.forall_mem_cons, ← ih]
    omega

/-! ### Slices -/

/-- The bytes of the first characters are those of the first characters. -/
theorem takeBytes_byteLength_take (n : Nat) (cs : List Char) :
    takeBytes (byteLength (cs.take n)) cs = cs.take n := by
  induction cs generalizing n with
  | nil => rw [List.take_nil]; rfl
  | cons c cs ih =>
    cases n with
    | zero => rfl
    | succ n =>
      have hpos := c.utf8Size_pos
      rw [List.take_succ_cons, byteLength_cons]
      obtain ⟨bytes, hbytes⟩ : ∃ bytes, c.utf8Size + byteLength (cs.take n) = bytes + 1 :=
        ⟨c.utf8Size + byteLength (cs.take n) - 1, by omega⟩
      rw [hbytes]
      show c :: takeBytes (bytes + 1 - c.utf8Size) cs = _
      rw [← hbytes, Nat.add_sub_cancel_left, ih]

theorem takeBytes_append (before behind : List Char) : takeBytes (byteLength before) (before ++ behind) = before := by
  have htake := takeBytes_byteLength_take before.length (before ++ behind)
  rwa [List.take_left] at htake

theorem dropBytes_append (before behind : List Char) : dropBytes (byteLength before) (before ++ behind) = behind := by
  induction before with
  | nil => cases behind <;> rfl
  | cons c before ih =>
    have hpos := c.utf8Size_pos
    obtain ⟨bytes, hbytes⟩ : ∃ bytes, c.utf8Size + byteLength before = bytes + 1 :=
      ⟨c.utf8Size + byteLength before - 1, by omega⟩
    rw [byteLength_cons, hbytes]
    show dropBytes (bytes + 1 - c.utf8Size) (before ++ behind) = behind
    rw [← hbytes, Nat.add_sub_cancel_left, ih]

/-- The slice of the bytes of the first characters. -/
theorem sliceBytes_byteLength_take (n : Nat) (cs : List Char) :
    sliceBytes 0 (byteLength (cs.take n)) cs = cs.take n := by
  have hall : dropBytes 0 cs = cs := by cases cs <;> rfl
  unfold sliceBytes
  rw [hall]
  exact takeBytes_byteLength_take n cs

/-- A slice that starts behind the first character is a slice of the others. -/
theorem sliceBytes_cons {start : Nat} (stop : Nat) {c : Char} (h : c.utf8Size ≤ start)
    (cs : List Char) :
    sliceBytes start stop (c :: cs) = sliceBytes (start - c.utf8Size) (stop - c.utf8Size) cs := by
  have hpos := c.utf8Size_pos
  obtain ⟨bytes, rfl⟩ : ∃ bytes, start = bytes + 1 := ⟨start - 1, by omega⟩
  unfold sliceBytes
  rw [show stop - c.utf8Size - (bytes + 1 - c.utf8Size) = stop - (bytes + 1) by omega]
  rfl

/-- The slice between the characters in front of a part and those behind it is the part. -/
theorem sliceBytes_append (before part behind : List Char) :
    sliceBytes (byteLength before) (byteLength before + byteLength part) (before ++ part ++ behind) =
      part := by
  induction before with
  | nil =>
    have htake := sliceBytes_byteLength_take part.length (part ++ behind)
    rw [List.take_left] at htake
    show sliceBytes 0 (0 + byteLength part) (part ++ behind) = part
    rw [Nat.zero_add, htake]
  | cons c before ih =>
    rw [List.cons_append, List.cons_append, byteLength_cons, sliceBytes_cons _ (Nat.le_add_right _ _),
      Nat.add_assoc, Nat.add_sub_cancel_left, Nat.add_sub_cancel_left]
    exact ih

/-! ### Places -/

/-- The place behind some characters: one line more for each line end among them, and the columns behind the
last of these. -/
theorem LineColumn.after_eq (before : List Char) :
    after before = ⟨1 + before.count '\n', 1 + (before.rtakeWhile (· != '\n')).length⟩ := by
  induction before using List.reverseRecOn with
  | nil => rfl
  | append_singleton before c ih =>
    unfold after at ih ⊢
    rw [List.foldl_append, ih, List.foldl_cons, List.foldl_nil, advance, List.rtakeWhile_concat]
    by_cases hc : c = '\n'
    · subst hc
      rw [if_pos rfl, List.count_append]
      rfl
    · rw [if_neg hc, if_pos (by simpa using hc), List.count_append, List.length_append]
      simp [hc, Nat.add_assoc]

/-! ### Runs -/

/-- A run in front of a character that is not one of it. -/
theorem takeWhile_append_of_head {p : Char → Bool} {run rest : List Char} (hrun : ∀ c ∈ run, p c = true)
    (hrest : ∀ c ∈ rest.head?, p c = false) : (run ++ rest).takeWhile p = run := by
  rw [List.takeWhile_append_of_pos hrun]
  cases rest with
  | nil => exact List.append_nil run
  | cons c rest => rw [List.takeWhile_cons, hrest c rfl, if_neg Bool.false_ne_true, List.append_nil]

end JsonFilter.Text
