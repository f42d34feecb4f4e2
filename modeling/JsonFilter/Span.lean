/-!
# Spans

A span is a pair of byte offsets into a source text.  A span whose end lies before its start is
allowed and counts as empty.
-/

namespace JsonFilter

/-- The bytes from `start` up to but excluding `stop`. -/
structure Span where
  start : Nat
  stop : Nat
deriving DecidableEq, Repr, Inhabited

namespace Span

/-- The empty span at an offset. -/
def point (offset : Nat) : Span := ⟨offset, offset⟩

/-- The number of bytes covered. -/
def length (s : Span) : Nat := s.stop - s.start

/-- Whether no byte is covered. -/
def isEmpty (s : Span) : Bool := s.length == 0

/-- The smallest span over both. -/
def merge (s t : Span) : Span := ⟨min s.start t.start, max s.stop t.stop⟩

/-- The text `start..stop`. -/
def text (s : Span) : String := s!"{s.start}..{s.stop}"

/-- Nothing lies outside the merged span. -/
theorem merge_covers (s t : Span) :
    (s.merge t).start ≤ s.start ∧ (s.merge t).start ≤ t.start ∧
      s.stop ≤ (s.merge t).stop ∧ t.stop ≤ (s.merge t).stop := by
  simp only [merge]
  omega

/-- The order of the two does not matter. -/
theorem merge_comm (s t : Span) : s.merge t = t.merge s := by
  simp only [merge, Nat.min_comm, Nat.max_comm]

end Span
end JsonFilter
