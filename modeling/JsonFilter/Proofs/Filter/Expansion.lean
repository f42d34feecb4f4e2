import JsonFilter.Proofs.Filter.Parts

/-!
# Expanding calls

A definition has no parameters, so a call of it can be replaced by its body.  What the body refers to must
be the same at the call as at the definition: nothing around the call may bind a name again that is free in
the body.

* `Expr.free` — the variables and definitions that a filter takes from around it.
* `Expr.binder?` — the name that a filter binds in one of its parts.
* `Expr.expand` — a filter with the bodies of some names in place of their calls.
* `Expr.inline` — the same for a single name.
-/

namespace JsonFilter.Filter

/-- The name of a variable or of a definition. -/
inductive Name where
  | variable (name : String)
  | definition (name : String)
deriving DecidableEq, Repr

namespace Expr

/-! ### Names -/

mutual

/-- The names that a filter takes from around it. -/
def free : Expr → List Name
  | .identity => []
  | .recurseAll => []
  | .literal _ => []
  | .field target _ => free target
  | .index target i => free target ++ free i
  | .slice target start stop => free target ++ freeMaybe start ++ freeMaybe stop
  | .iterate target => free target
  | .array body => freeMaybe body
  | .object entries => freeEntries entries
  | .neg operand => free operand
  | .binary _ left right => free left ++ free right
  | .alternative left right => free left ++ free right
  | .pipe left right => free left ++ free right
  | .comma left right => free left ++ free right
  | .cond test yes no => free test ++ free yes ++ freeMaybe no
  | .attempt body handler => free body ++ freeMaybe handler
  | .reduce source var init update =>
    free source ++ free init ++ (free update).filter (· ≠ .variable var)
  | .bind source var body => free source ++ (free body).filter (· ≠ .variable var)
  | .define name body rest => free body ++ (free rest).filter (· ≠ .definition name)
  | .variable name _ => [.variable name]
  | .call name args _ => (if args.isEmpty then [.definition name] else []) ++ freeAll args

/-- The names of a part that may be missing. -/
def freeMaybe : Option Expr → List Name
  | none => []
  | some e => free e

/-- The names of a list of filters. -/
def freeAll : List Expr → List Name
  | [] => []
  | e :: rest => free e ++ freeAll rest

/-- The names of the entries of an object construction. -/
def freeEntries : List (ObjectKey Expr × Option Expr) → List Name
  | [] => []
  | (key, value) :: rest => freeKey key ++ freeMaybe value ++ freeEntries rest

/-- The names of a key. -/
def freeKey : ObjectKey Expr → List Name
  | .static _ => []
  | .variable name _ => [.variable name]
  | .computed key => free key

end

/-- The name that a filter binds in one of its parts. -/
def binder? : Expr → Option Name
  | .reduce _ var _ _ => some (.variable var)
  | .bind _ var _ => some (.variable var)
  | .define name _ _ => some (.definition name)
  | _ => none

theorem free_subset_freeMaybe {o : Option Expr} {p : Expr} (hp : p ∈ o) : p.free ⊆ freeMaybe o := by
  cases hp
  exact List.Subset.refl _

theorem free_subset_freeAll {args : List Expr} {p : Expr} (hp : p ∈ args) : p.free ⊆ freeAll args := by
  induction args with
  | nil => cases hp
  | cons e args ih =>
    rcases List.mem_cons.1 hp with rfl | hp
    · exact List.subset_append_left _ _
    · exact List.subset_append_of_subset_right _ (ih hp)

theorem free_subset_freeEntries {entries : List ObjectEntry} {entry : ObjectEntry}
    (hentry : entry ∈ entries) {p : Expr} (hp : p ∈ entryParts entry) :
    p.free ⊆ freeEntries entries := by
  induction entries with
  | nil => cases hentry
  | cons other entries ih =>
    rcases List.mem_cons.1 hentry with rfl | hentry
    · obtain ⟨key, value⟩ := entry
      refine List.subset_append_of_subset_left _ ?_
      rcases List.mem_append.1 hp with hkey | hvalue
      · refine List.subset_append_of_subset_left _ ?_
        cases key with
        | static name => cases hkey
        | «variable» name span => cases hkey
        | computed e =>
          cases Option.mem_toList.1 hkey
          exact List.Subset.refl _
      · exact List.subset_append_of_subset_right _ (free_subset_freeMaybe (Option.mem_toList.1 hvalue))
    · exact List.subset_append_of_subset_right _ (ih hentry)

/-- A filter that binds nothing has the names of its parts. -/
theorem free_subset {e p : Expr} (hbinder : e.binder? = none) (hp : p ∈ e.parts) : p.free ⊆ e.free := by
  intro n hn
  cases e with
  | reduce | bind | define => cases hbinder
  | identity | recurseAll | literal | «variable» => cases hp
  | field | iterate | neg | index | binary | alternative | pipe | comma =>
    simp only [parts, List.mem_cons, List.not_mem_nil, or_false] at hp
    simp only [free, List.mem_append]
    grind
  | slice target start stop =>
    simp only [parts, List.mem_cons, List.mem_append, Option.mem_toList] at hp
    simp only [free, List.mem_append]
    rcases hp with rfl | hstart | hstop
    · exact .inl (.inl hn)
    · exact .inl (.inr (free_subset_freeMaybe hstart hn))
    · exact .inr (free_subset_freeMaybe hstop hn)
  | array body => exact free_subset_freeMaybe (Option.mem_toList.1 hp) hn
  | object entries =>
    obtain ⟨entry, hentry, hp⟩ := List.mem_flatMap.1 hp
    exact free_subset_freeEntries hentry hp hn
  | cond test yes no =>
    simp only [parts, List.mem_cons, Option.mem_toList] at hp
    simp only [free, List.mem_append]
    rcases hp with rfl | rfl | hno
    · exact .inl (.inl hn)
    · exact .inl (.inr hn)
    · exact .inr (free_subset_freeMaybe hno hn)
  | attempt body handler =>
    simp only [parts, List.mem_cons, Option.mem_toList] at hp
    simp only [free, List.mem_append]
    rcases hp with rfl | hhandler
    · exact .inl hn
    · exact .inr (free_subset_freeMaybe hhandler hn)
  | call name args span => exact List.mem_append_right _ (free_subset_freeAll hp hn)

/-! ### Expansion -/

mutual

/-- A filter with the bodies of some names in place of their calls. -/
def expand (bodies : String → Option Expr) : Expr → Expr
  | .identity => .identity
  | .recurseAll => .recurseAll
  | .literal value => .literal value
  | .field target name => .field (expand bodies target) name
  | .index target i => .index (expand bodies target) (expand bodies i)
  | .slice target start stop =>
    .slice (expand bodies target) (expandMaybe bodies start) (expandMaybe bodies stop)
  | .iterate target => .iterate (expand bodies target)
  | .array body => .array (expandMaybe bodies body)
  | .object entries => .object (expandEntries bodies entries)
  | .neg operand => .neg (expand bodies operand)
  | .binary op left right => .binary op (expand bodies left) (expand bodies right)
  | .alternative left right => .alternative (expand bodies left) (expand bodies right)
  | .pipe left right => .pipe (expand bodies left) (expand bodies right)
  | .comma left right => .comma (expand bodies left) (expand bodies right)
  | .cond test yes no => .cond (expand bodies test) (expand bodies yes) (expandMaybe bodies no)
  | .attempt body handler => .attempt (expand bodies body) (expandMaybe bodies handler)
  | .reduce source var init update =>
    .reduce (expand bodies source) var (expand bodies init) (expand bodies update)
  | .bind source var body => .bind (expand bodies source) var (expand bodies body)
  | .define name body rest => .define name (expand bodies body) (expand bodies rest)
  | .variable name span => .variable name span
  | .call name [] span => (bodies name).getD (.call name [] span)
  | .call name (arg :: others) span =>
    .call name (expand bodies arg :: expandAll bodies others) span

/-- A part that may be missing. -/
def expandMaybe (bodies : String → Option Expr) : Option Expr → Option Expr
  | none => none
  | some e => some (expand bodies e)

/-- All filters of a list. -/
def expandAll (bodies : String → Option Expr) : List Expr → List Expr
  | [] => []
  | e :: others => expand bodies e :: expandAll bodies others

/-- All entries of an object construction. -/
def expandEntries (bodies : String → Option Expr) :
    List (ObjectKey Expr × Option Expr) → List (ObjectKey Expr × Option Expr)
  | [] => []
  | (key, value) :: others =>
    (expandKey bodies key, expandMaybe bodies value) :: expandEntries bodies others

/-- The key of an entry. -/
def expandKey (bodies : String → Option Expr) : ObjectKey Expr → ObjectKey Expr
  | .static name => .static name
  | .variable name span => .variable name span
  | .computed key => .computed (expand bodies key)

end

/-- A filter with a body in place of every call of a name without arguments. -/
def inline (e : Expr) (name : String) (body : Expr) : Expr :=
  e.expand fun other => if other = name then some body else none

theorem length_expandAll (bodies : String → Option Expr) (args : List Expr) :
    (expandAll bodies args).length = args.length := by
  induction args with
  | nil => rfl
  | cons e args ih => rw [expandAll, List.length_cons, ih, List.length_cons]

/-! ### Without bodies -/

section

variable {o : Option Expr} {entries : List ObjectEntry} {args : List Expr}

theorem expandMaybe_none (h : ∀ e ∈ o, e.expand (fun _ => none) = e) :
    expandMaybe (fun _ => none) o = o := by
  cases o with
  | none => rfl
  | some e => rw [expandMaybe, h e rfl]

theorem expandAll_none (h : ∀ e ∈ args, e.expand (fun _ => none) = e) :
    expandAll (fun _ => none) args = args := by
  induction args with
  | nil => rfl
  | cons e args ih =>
    rw [expandAll, h e List.mem_cons_self, ih fun x hx => h x (List.mem_cons_of_mem e hx)]

theorem expandEntries_none (h : ∀ entry ∈ entries, ∀ e ∈ entryParts entry,
    e.expand (fun _ => none) = e) : expandEntries (fun _ => none) entries = entries := by
  induction entries with
  | nil => rfl
  | cons entry entries ih =>
    obtain ⟨key, value⟩ := entry
    have hentry := h (key, value) List.mem_cons_self
    have hkey : expandKey (fun _ => none) key = key := by
      cases key with
      | static name => rfl
      | «variable» name span => rfl
      | computed e =>
        rw [expandKey, hentry e (List.mem_append_left _ (Option.mem_toList.2 rfl))]
    have hvalue : expandMaybe (fun _ => none) value = value :=
      expandMaybe_none fun e he => hentry e (List.mem_append_right _ (Option.mem_toList.2 he))
    rw [expandEntries, hkey, hvalue,
      ih fun other hother => h other (List.mem_cons_of_mem _ hother)]

end

/-- Where no name has a body there is nothing to expand. -/
theorem expand_none (e : Expr) : e.expand (fun _ => none) = e := by
  induction e using Expr.induction with
  | step e ih =>
  cases e with
  | identity | recurseAll | literal | «variable» => rfl
  | field | iterate | neg | index | binary | alternative | pipe | comma | reduce | bind | define =>
    simp only [parts, List.mem_cons, List.not_mem_nil, or_false, forall_eq_or_imp, forall_eq] at ih
    simp only [expand, ih]
  | slice target start stop =>
    rw [expand, ih target List.mem_cons_self,
      expandMaybe_none fun e he => ih e (by simp [parts, Option.mem_toList.2 he]),
      expandMaybe_none fun e he => ih e (by simp [parts, Option.mem_toList.2 he])]
  | array body => rw [expand, expandMaybe_none fun e he => ih e (Option.mem_toList.2 he)]
  | object entries =>
    rw [expand, expandEntries_none fun entry hentry e he =>
      ih e (List.mem_flatMap.2 ⟨entry, hentry, he⟩)]
  | cond test yes no =>
    rw [expand, ih test (by simp [parts]), ih yes (by simp [parts]),
      expandMaybe_none fun e he => ih e (by simp [parts, Option.mem_toList.2 he])]
  | attempt body handler =>
    rw [expand, ih body (by simp [parts]),
      expandMaybe_none fun e he => ih e (by simp [parts, Option.mem_toList.2 he])]
  | call name args span =>
    cases args with
    | nil => rfl
    | cons arg others =>
      rw [expand, ih arg List.mem_cons_self,
        expandAll_none fun e he => ih e (List.mem_cons_of_mem arg he)]

end Expr
end JsonFilter.Filter
