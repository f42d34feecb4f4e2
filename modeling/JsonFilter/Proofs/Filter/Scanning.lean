import JsonFilter.Filter.Lexer
import Mathlib.Data.List.Basic

/-!
# Scans

A scan reads one lexeme after the other and adds to its findings what each of them reports.

* `Lexeme.reports` — what a lexeme adds.
* `scan_cons` — a scan goes on behind the lexeme at its head.
* `tokenize_eq_ok_iff` — the tokens of a filter are those of a scan without faults.
-/

namespace JsonFilter.Filter

/-- What a lexeme adds to a scan, and the levels after it.  The lexeme stands at byte `offset` and ends
at byte `stop`; `start` tells the byte of a place within it. -/
def Lexeme.reports (nesting : Nesting) (offset stop : Nat) (start : Nat → Nat) :
    Lexeme → List (Finding ⊕ Token) × Nesting
  | .blank => ([], nesting)
  | .token kind =>
    let nesting := nesting.after kind
    let found := .inr ⟨kind, ⟨offset, stop⟩⟩
    if nesting.exceeded then
      ([.inl ⟨.nestingTooDeep, ⟨offset, stop⟩⟩, found], { nesting with reported := true })
    else ([found], nesting)
  | .fault wrong ahead => ([.inl ⟨wrong, ⟨start ahead, stop⟩⟩], nesting)

/-- A token begins where its lexeme stands. -/
theorem Lexeme.start_of_mem_reports {lexeme : Lexeme} {nesting : Nesting} {offset stop : Nat}
    {start : Nat → Nat} {token : Token}
    (h : .inr token ∈ (lexeme.reports nesting offset stop start).1) : token.span.start = offset := by
  unfold reports at h
  cases lexeme with
  | blank => cases h
  | fault fault ahead => cases List.mem_singleton.1 h
  | token kind =>
    dsimp only at h
    split at h
    · rcases List.mem_cons.1 h with heq | hmem
      · cases heq
      · cases List.mem_singleton.1 hmem
        rfl
    · cases List.mem_singleton.1 h
      rfl

theorem Lexeme.mem_reports (kind : TokenKind) (nesting : Nesting) (offset stop : Nat)
    (start : Nat → Nat) :
    .inr ⟨kind, ⟨offset, stop⟩⟩ ∈ ((Lexeme.token kind).reports nesting offset stop start).1 := by
  unfold reports
  dsimp only
  split
  · exact List.mem_cons_of_mem _ (List.mem_singleton.2 rfl)
  · exact List.mem_singleton.2 rfl

/-- A scan goes on behind the lexeme at its head. -/
theorem scan_cons (c : Char) (rest : List Char) (offset : Nat) (nesting : Nesting) :
    scan (c :: rest) 0 offset nesting =
      let start ahead := offset + Text.byteLength ((c :: rest).take ahead)
      let reported := (lexemeAt c rest).1.reports nesting offset (start (lexemeAt c rest).2) start
      reported.1 ++ scan rest ((lexemeAt c rest).2 - 1) (offset + c.utf8Size) reported.2 := by
  rw [scan.eq_def]
  dsimp only
  cases (lexemeAt c rest).1 with
  | blank => rfl
  | fault wrong ahead => rfl
  | token kind =>
    unfold Lexeme.reports
    dsimp only
    split <;> rfl

/-- No token begins before the place where the scan begins. -/
theorem le_start_of_mem_scan {xs : List Char} {token : Token} {skip offset : Nat} {nesting : Nesting}
    (h : .inr token ∈ scan xs skip offset nesting) : offset ≤ token.span.start := by
  induction xs generalizing skip offset nesting with
  | nil => cases h
  | cons c xs ih =>
    cases skip with
    | succ skip =>
      have htail : .inr token ∈ scan xs skip (offset + c.utf8Size) nesting := h
      exact Nat.le_trans (Nat.le_add_right _ _) (ih htail)
    | zero =>
      rw [scan_cons] at h
      rcases List.mem_append.1 h with hhead | hrest
      · exact Nat.le_of_eq (Lexeme.start_of_mem_reports hhead).symm
      · exact Nat.le_trans (Nat.le_add_right _ _) (ih hrest)

/-- The tokens of a filter are those of a scan that finds no fault. -/
theorem tokenize_eq_ok_iff {filter : String} {tokens : List Token} :
    tokenize filter = .ok tokens ↔
      (∀ finding, .inl finding ∉ scan filter.toList 0 0 .start) ∧
        tokens = (scan filter.toList 0 0 .start).filterMap Sum.getRight? ++
          [⟨.eof, .point (Text.byteLength filter.toList)⟩] := by
  unfold tokenize
  dsimp only
  split
  · rename_i hnone
    rw [List.isEmpty_iff, List.filterMap_eq_nil_iff] at hnone
    have hclean : ∀ finding, .inl finding ∉ scan filter.toList 0 0 .start := by
      intro finding hmem
      cases hnone _ hmem
    rw [List.filterMap_congr (g := Sum.getRight?) fun found _ => by cases found <;> rfl,
      Except.ok.injEq, eq_comm]
    exact (and_iff_right hclean).symm
  · rename_i hsome
    refine ⟨nofun, ?_⟩
    rintro ⟨hclean, -⟩
    refine absurd ?_ hsome
    rw [List.isEmpty_iff, List.filterMap_eq_nil_iff]
    intro found hfound
    cases found with
    | inl finding => exact absurd hfound (hclean finding)
    | inr token => rfl

/-- A scan that finds tokens only gives them all. -/
theorem tokenize_of_scan {text : List Char} {tokens : List Token} (h : scan text 0 0 .start = tokens.map .inr) :
    tokenize (.ofList text) = .ok (tokens ++ [⟨.eof, .point (Text.byteLength text)⟩]) := by
  rw [tokenize_eq_ok_iff, String.toList_ofList, h]
  refine ⟨fun finding hmem => ?_, ?_⟩
  · obtain ⟨token, -, heq⟩ := List.mem_map.1 hmem
    cases heq
  · rw [List.filterMap_map]
    congr 1
    exact List.filterMap_some.symm

end JsonFilter.Filter
