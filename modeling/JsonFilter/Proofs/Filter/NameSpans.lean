import JsonFilter.Filter.Scope
import JsonFilter.Proofs.Filter.Derivations
import JsonFilter.Proofs.Filter.Locality

/-!
# Where names are written

A filter remembers where its variables and calls are written, so that a complaint about a name can point there.  The
span of a variable covers the dollar sign and the name.  The span of a call goes from its name to the parenthesis that
closes its arguments, and everything that is used inside of them lies in it.

Three layers are put on top of each other.  The tokens that a filter is built from hold one run of tokens for each of
its names, by induction over `Built`.  Tokens that tile a text show which part of it they are read from.  And what is
not defined is a name that is used.

* `NameUse`, `Uses` — the names that are used in a filter.
* `NameUse.From` — the tokens of a name.
* **`Built.shown`** — every name of a filter has its tokens among those the filter is built from.
* **`names_show_their_text`** — the spans of names, in filters that are read and in complaints about them.
-/

namespace JsonFilter.Filter

open Text (byteLength byteLength_append)

/-! ### Uses of names -/

/-- A name where it is used: a variable, be it a filter or a key, or a function with its arguments. -/
inductive NameUse where
  | variable (name : String) (span : Span)
  | call (name : String) (args : List Expr) (span : Span)

namespace NameUse

/-- Where the name is written, with its arguments. -/
def span : NameUse → Span
  | .variable _ span | .call _ _ span => span

/-- How the name is written. -/
def written : NameUse → List Char
  | .variable name _ => '$' :: name.toList
  | .call name _ _ => name.toList

/-- What is said if the name is not defined. -/
def complaint : NameUse → String
  | .variable name _ => s!"${name} is not defined"
  | .call name args _ => s!"{name}/{args.length} is not defined"

end NameUse

/-- A name is used in a filter or in one of its parts. -/
inductive Uses : Expr → NameUse → Prop
  | variable {name : String} {span : Span} : Uses (.variable name span) (.variable name span)
  | call {name : String} {args : List Expr} {span : Span} : Uses (.call name args span) (.call name args span)
  | key {entries : List ObjectEntry} {name : String} {span : Span} {value : Option Expr} :
    (.variable name span, value) ∈ entries → Uses (.object entries) (.variable name span)
  | part {e x : Expr} {u : NameUse} : x ∈ e.parts → Uses x u → Uses e u

section

variable {e : Expr} {u : NameUse} {entries : List ObjectEntry}

/-- A plain filter uses no name of its own. -/
theorem Uses.of_isPlain (h : Uses e u) (he : e.isPlain = true) : ∃ x ∈ e.parts, Uses x u := by
  cases h with
  | «variable» => cases he
  | call => cases he
  | key => cases he
  | part hx hu => exact ⟨_, hx, hu⟩

/-- An object uses what its entries use. -/
theorem Uses.of_object (h : Uses (.object entries) u) : ∃ x ∈ entries.flatMap Expr.entryFilters, Uses x u := by
  cases h with
  | key hentry =>
    exact ⟨_, List.mem_flatMap.2 ⟨_, hentry, List.mem_append_left _ (List.mem_singleton.2 rfl)⟩, .variable⟩
  | part hx hu =>
    obtain ⟨entry, hentry, hx⟩ := List.mem_flatMap.1 hx
    exact ⟨_, List.mem_flatMap.2 ⟨entry, hentry, Expr.mem_entryFilters hx⟩, hu⟩

end

/-! ### Parentheses -/

/-- Parentheses come in pairs. -/
inductive Balanced : List TokenKind → Prop
  | nil : Balanced []
  | other {k : TokenKind} {kinds : List TokenKind} : k ≠ .mark .leftParen → k ≠ .mark .rightParen → Balanced kinds →
    Balanced (k :: kinds)
  | parens {inner kinds : List TokenKind} : Balanced inner → Balanced kinds →
    Balanced (.mark .leftParen :: (inner ++ .mark .rightParen :: kinds))

namespace Balanced

variable {k : TokenKind} {kinds kinds' : List TokenKind}

theorem append (h : Balanced kinds) (h' : Balanced kinds') : Balanced (kinds ++ kinds') := by
  induction h with
  | nil => exact h'
  | other hleft hright _ ih => exact .other hleft hright ih
  | @parens inner rest hinner _ _ ih =>
    rw [List.cons_append, List.append_assoc]
    exact .parens hinner ih

theorem single (hleft : k ≠ .mark .leftParen) (hright : k ≠ .mark .rightParen) : Balanced [k] :=
  .other hleft hright .nil

theorem of_isDelimiter (h : isDelimiter k = false) : Balanced [k] :=
  .single (fun heq => by rw [heq] at h; cases h) fun heq => by rw [heq] at h; cases h

/-- Between a token and the one that closes it. -/
theorem wrap {k' : TokenKind} (h : closing? k = some k') (hkinds : Balanced kinds) :
    Balanced (k :: (kinds ++ [k'])) := by
  unfold closing? at h
  split at h <;> cases h
  · exact .parens hkinds .nil
  · exact .other nofun nofun (hkinds.append (.single nofun nofun))
  · exact .other nofun nofun (hkinds.append (.single nofun nofun))

theorem tail (h : Balanced (k :: kinds)) (hk : k ≠ .mark .leftParen) : Balanced kinds := by
  cases h with
  | other _ _ hkinds => exact hkinds
  | parens => exact absurd rfl hk

end Balanced

/-! ### Tokens of names -/

/-- **The tokens of a name.**  With arguments they go on to the parenthesis that closes the one behind the name, and
what is used in the arguments has its tokens between the two. -/
inductive NameUse.From : List Token → NameUse → Prop
  | variable {t : Token} {name : String} : t.kind = .variable name → From [t] (.variable name t.span)
  | name {t : Token} {name : String} : t.kind = .identifier name → From [t] (.call name [] t.span)
  | call {t left right : Token} {inner : List Token} {name : String} {args : List Expr} : t.kind = .identifier name →
    left.kind = .mark .leftParen → right.kind = .mark .rightParen → Balanced (inner.map Token.kind) → args ≠ [] →
    (∀ arg ∈ args, ∀ u, Uses arg u →
      ∃ first ∈ inner, ∃ last ∈ inner, u.span = ⟨first.span.start, last.span.stop⟩) →
    From (t :: left :: (inner ++ [right])) (.call name args ⟨t.span.start, right.span.stop⟩)

/-- Every name of a filter has its tokens among some others. -/
def Shown (s : List Token) (e : Expr) : Prop := ∀ u, Uses e u → ∃ run, run <:+: s ∧ u.From run

namespace NameUse.From

variable {run : List Token} {u : NameUse}

/-- The span goes from one of the tokens to another. -/
theorem ends (h : u.From run) : ∃ first ∈ run, ∃ last ∈ run, u.span = ⟨first.span.start, last.span.stop⟩ := by
  cases h with
  | @«variable» t => exact ⟨t, List.mem_singleton.2 rfl, t, List.mem_singleton.2 rfl, rfl⟩
  | @name t => exact ⟨t, List.mem_singleton.2 rfl, t, List.mem_singleton.2 rfl, rfl⟩
  | @call t left right => exact ⟨t, by simp, right, by simp, rfl⟩

/-- The tokens of a name do not begin with a mark. -/
theorem head (h : u.From run) : ∃ t more, run = t :: more ∧ ∀ m, t.kind ≠ .mark m := by
  cases h with
  | «variable» ht => exact ⟨_, _, rfl, fun m hm => by cases ht.symm.trans hm⟩
  | name ht => exact ⟨_, _, rfl, fun m hm => by cases ht.symm.trans hm⟩
  | call ht => exact ⟨_, _, rfl, fun m hm => by cases ht.symm.trans hm⟩

theorem infix_tail {t : Token} {s : List Token} {m : Mark} (h : u.From run) (hrun : run <:+: t :: s)
    (ht : t.kind = .mark m) : run <:+: s := by
  obtain ⟨first, more, rfl, hfirst⟩ := h.head
  rcases List.infix_cons_iff.1 hrun with hfront | hbehind
  · obtain ⟨rfl, -⟩ := List.cons_prefix_cons.1 hfront
    exact absurd ht (hfirst m)
  · exact hbehind

end NameUse.From

namespace Shown

variable {s t : List Token} {e : Expr}

theorem mono (h : Shown s e) (hst : s <:+: t) : Shown t e := fun u hu =>
  (h u hu).imp fun _ hrun => ⟨hrun.1.trans hst, hrun.2⟩

/-- A filter shows no other names than those it is made of. -/
theorem of_uses {es : List Expr} (h : ∀ x ∈ es, Shown s x) (he : ∀ u, Uses e u → ∃ x ∈ es, Uses x u) : Shown s e := by
  intro u hu
  obtain ⟨x, hx, hu⟩ := he u hu
  exact h x hx u hu

end Shown

theorem infix_wrap (left right : Token) (s : List Token) : s <:+: left :: (s ++ [right]) := ⟨[left], [right], rfl⟩

/-- **Names have their tokens among those that a filter is built from.** -/
theorem Built.shown {s : List Token} {es : List Expr} (h : Built s es) :
    Balanced (s.map Token.kind) ∧ ∀ e ∈ es, Shown s e := by
  induction h with
  | nil => exact ⟨.nil, List.forall_mem_nil _⟩
  | token ht => exact ⟨.of_isDelimiter ht, List.forall_mem_nil _⟩
  | @key comma t word hcomma hword =>
    rw [List.map_cons, List.map_singleton, hcomma, hword]
    exact ⟨.other nofun nofun (.single nofun nofun), List.forall_mem_nil _⟩
  | @wrap left right s es hpair _ ih =>
    rw [List.map_cons, List.map_append]
    exact ⟨ih.1.wrap hpair, fun e he => (ih.2 e he).mono (infix_wrap left right s)⟩
  | @append s t es es' _ _ ih ih' =>
    rw [List.map_append]
    refine ⟨ih.1.append ih'.1, fun e he => ?_⟩
    rcases List.mem_append.1 he with he | he
    · exact (ih.2 e he).mono (List.infix_append' [] s t)
    · exact (ih'.2 e he).mono (List.suffix_append s t).isInfix
  | among _ hes ih => exact ⟨ih.1, fun e he => ih.2 e (hes e he)⟩
  | plain _ he hparts ih =>
    refine ⟨ih.1, List.forall_mem_cons.2 ⟨.of_uses ih.2 fun u hu => ?_, ih.2⟩⟩
    obtain ⟨x, hx, hu⟩ := hu.of_isPlain he
    exact ⟨x, hparts x hx, hu⟩
  | @«variable» t name ht =>
    rw [List.map_singleton, ht]
    refine ⟨.single nofun nofun, List.forall_mem_singleton.2 fun u hu => ?_⟩
    cases hu with
    | «variable» => exact ⟨[t], List.infix_rfl, .variable ht⟩
    | part hx => cases hx
  | @name t name ht =>
    rw [List.map_singleton, ht]
    refine ⟨.single nofun nofun, List.forall_mem_singleton.2 fun u hu => ?_⟩
    cases hu with
    | call => exact ⟨[t], List.infix_rfl, .name ht⟩
    | part hx => cases hx
  | @call t left right name s args ht hleft hright hargs _ ih =>
    have hparens := ih.1.wrap (k := .mark .leftParen) rfl
    refine ⟨?_, List.forall_mem_singleton.2 fun u hu => ?_⟩
    · rw [List.map_cons, List.map_cons, List.map_append, List.map_singleton, ht, hleft, hright]
      exact .other nofun nofun hparens
    · cases hu with
      | call =>
        refine ⟨_, List.infix_rfl, .call ht hleft hright ih.1 hargs fun arg harg u hu => ?_⟩
        obtain ⟨run, hrun, hfrom⟩ := ih.2 arg harg u hu
        obtain ⟨first, hfirst, last, hlast, hspan⟩ := hfrom.ends
        exact ⟨first, hrun.subset hfirst, last, hrun.subset hlast, hspan⟩
      | part hx hu =>
        obtain ⟨run, hrun, hfrom⟩ := ih.2 _ hx u hu
        exact ⟨run, hrun.trans ((infix_wrap left right s).trans (List.suffix_cons t _).isInfix), hfrom⟩
  | @array left right s body hleft hright _ ih =>
    rw [List.map_cons, List.map_append, hleft, List.map_singleton, hright]
    refine ⟨ih.1.wrap rfl, List.forall_mem_singleton.2 ?_⟩
    refine (Shown.of_uses ih.2 fun u hu => ?_).mono (infix_wrap left right s)
    cases hu with
    | part hx hu => exact ⟨_, hx, hu⟩
  | @object left right s entries hleft hright _ _ ih =>
    -- no name begins with the comma
    obtain ⟨hbalanced, hshown⟩ := ih ⟨.mark .comma, default⟩ rfl
    rw [List.map_cons] at hbalanced
    rw [List.map_cons, List.map_append, hleft, List.map_singleton, hright]
    refine ⟨.other nofun nofun ((hbalanced.tail nofun).append (.single nofun nofun)), List.forall_mem_singleton.2 ?_⟩
    intro u hu
    obtain ⟨x, hx, hu⟩ := hu.of_object
    obtain ⟨run, hrun, hfrom⟩ := hshown x hx u hu
    exact ⟨run, (hfrom.infix_tail hrun rfl).trans (infix_wrap left right s), hfrom⟩

/-! ### The text of tokens -/

/-- A span covers a part of a text. -/
def Shows (chars : List Char) (span : Span) (part : List Char) : Prop :=
  ∃ before behind, chars = before ++ (part ++ behind) ∧
    span = ⟨byteLength before, byteLength before + byteLength part⟩

section

variable {before text : List Char} {front back : List Token} {t : Token}

/-- The text of a token stands behind a gap, and that of the other tokens behind it. -/
theorem Tiled.head (h : Tiled (byteLength before) text (t :: back)) :
    ∃ gap c cs behind, text = gap ++ (c :: cs ++ behind) ∧ lexemeAt c cs = (.token t.kind, cs.length + 1) ∧
      t.span = ⟨byteLength (before ++ gap), byteLength (before ++ gap) + byteLength (c :: cs)⟩ ∧
      Tiled (byteLength (before ++ gap ++ c :: cs)) behind back := by
  generalize hoffset : byteLength before = offset at h
  cases h with
  | @token _ gap cs behind c kind _ _ hread hrest =>
    refine ⟨gap, c, cs, behind, rfl, hread, ?_, ?_⟩
    · rw [byteLength_append, hoffset]
    · rwa [byteLength_append, byteLength_append, hoffset]

/-- The text of tokens stands behind the text of those in front of them. -/
theorem Tiled.behind (h : Tiled (byteLength before) text (front ++ back)) :
    ∃ passed rest, text = passed ++ rest ∧ Tiled (byteLength (before ++ passed)) rest back := by
  induction front generalizing before text with
  | nil => exact ⟨[], text, rfl, by rwa [List.append_nil]⟩
  | cons t front ih =>
    obtain ⟨gap, c, cs, behind, rfl, -, -, hrest⟩ := h.head
    obtain ⟨passed, rest, rfl, hback⟩ := ih hrest
    refine ⟨gap ++ (c :: cs ++ passed), rest, by simp only [List.append_assoc], ?_⟩
    simpa only [List.append_assoc] using hback

end

/-- The characters of a token that has one spelling. -/
theorem spells_of_token {t : Token} {c : Char} {cs : List Char} (h : lexemeAt c cs = (.token t.kind, cs.length + 1))
    {kind : TokenKind} (ht : t.kind = kind) (hstring : ∀ value, kind ≠ .string value) : kind.Spells (c :: cs) := by
  rw [ht] at h
  have hspells := spells_of_lexemeAt h hstring
  rwa [List.take_of_length_le (Nat.le_of_eq List.length_cons)] at hspells

theorem text_of_variable {name : String} {text : List Char} (h : (TokenKind.variable name).Spells text) :
    text = '$' :: name.toList := by
  cases h
  rfl

theorem text_of_identifier {name : String} {text : List Char} (h : (TokenKind.identifier name).Spells text) :
    text = name.toList := by
  cases h
  rfl

theorem text_of_mark {m : Mark} {text : List Char} (h : (TokenKind.mark m).Spells text) : text = m.text.toList := by
  cases h
  rfl

section

variable {chars : List Char} {tokens run : List Token}

/-- The part of a text that a token is read from. -/
theorem Tiled.shows (h : Tiled 0 chars tokens) {t : Token} (ht : [t] <:+: tokens) :
    ∃ c cs, Shows chars t.span (c :: cs) ∧ lexemeAt c cs = (.token t.kind, cs.length + 1) := by
  obtain ⟨front, back, rfl⟩ := ht
  rw [List.append_assoc] at h
  have htiled : Tiled (byteLength []) chars (front ++ ([t] ++ back)) := h
  obtain ⟨passed, rest, rfl, hrest⟩ := htiled.behind
  obtain ⟨gap, c, cs, behind, rfl, hread, hspan, -⟩ := hrest.head
  exact ⟨c, cs, ⟨passed ++ gap, behind, by simp only [List.append_assoc], hspan⟩, hread⟩

/-- The part of a text from the beginning of one token to the end of another. -/
theorem Tiled.shows_from_to (h : Tiled 0 chars tokens) {first last : Token} {inner : List Token}
    (hrun : first :: (inner ++ [last]) <:+: tokens) :
    ∃ c cs between d ds, Shows chars ⟨first.span.start, last.span.stop⟩ (c :: cs ++ (between ++ d :: ds)) ∧
      lexemeAt c cs = (.token first.kind, cs.length + 1) ∧ lexemeAt d ds = (.token last.kind, ds.length + 1) := by
  obtain ⟨front, back, rfl⟩ := hrun
  have hparts : front ++ first :: (inner ++ [last]) ++ back = front ++ (first :: (inner ++ last :: back)) := by simp
  rw [hparts] at h
  have htiled : Tiled (byteLength []) chars (front ++ (first :: (inner ++ last :: back))) := h
  obtain ⟨passed, rest, rfl, hrest⟩ := htiled.behind
  obtain ⟨gap, c, cs, behind, rfl, hread, hspan, hinner⟩ := hrest.head
  obtain ⟨passed', rest', rfl, hrest'⟩ := hinner.behind
  obtain ⟨gap', d, ds, behind', rfl, hread', hspan', -⟩ := hrest'.head
  refine ⟨c, cs, passed' ++ gap', d, ds, ⟨passed ++ gap, behind', by simp only [List.append_assoc], ?_⟩, hread, hread'⟩
  rw [hspan, hspan']
  simp only [byteLength_append, List.nil_append, Nat.add_assoc]

end

/-! ### Complaints -/

namespace Scope

variable {s : Scope} {err : NameError}

theorem mem_undefinedMaybe {o : Option Expr} (h : err ∈ s.undefinedMaybe o) : ∃ x ∈ o.toList, err ∈ s.undefined x := by
  cases o with
  | none => cases h
  | some x => exact ⟨x, List.mem_singleton.2 rfl, h⟩

theorem mem_undefinedAll {args : List Expr} (h : err ∈ s.undefinedAll args) : ∃ x ∈ args, err ∈ s.undefined x := by
  induction args with
  | nil => cases h
  | cons x args ih =>
    rcases List.mem_append.1 h with hx | hargs
    · exact ⟨x, List.mem_cons_self, hx⟩
    · obtain ⟨y, hy, herr⟩ := ih hargs
      exact ⟨y, List.mem_cons_of_mem x hy, herr⟩

/-- A complaint about entries is one about a variable that is a key, or about one of their filters. -/
theorem mem_undefinedEntries {entries : List ObjectEntry} (h : err ∈ s.undefinedEntries entries) :
    (∃ name span value, (.variable name span, value) ∈ entries ∧ err ∈ s.variableErrors name span) ∨
      ∃ x ∈ entries.flatMap Expr.entryParts, err ∈ s.undefined x := by
  induction entries with
  | nil => cases h
  | cons entry entries ih =>
    obtain ⟨key, value⟩ := entry
    rw [List.flatMap_cons]
    rcases List.mem_append.1 h with hentry | hothers
    · rcases List.mem_append.1 hentry with hkey | hvalue
      · cases key with
        | static => cases hkey
        | «variable» name span => exact .inl ⟨name, span, value, List.mem_cons_self, hkey⟩
        | computed x => exact .inr ⟨x, List.mem_append_left _ (List.mem_append_left _ (List.mem_singleton.2 rfl)), hkey⟩
      · obtain ⟨x, hx, herr⟩ := mem_undefinedMaybe hvalue
        exact .inr ⟨x, List.mem_append_left _ (List.mem_append_right _ hx), herr⟩
    · rcases ih hothers with ⟨name, span, value', hmem, herr⟩ | ⟨x, hx, herr⟩
      · exact .inl ⟨name, span, value', List.mem_cons_of_mem _ hmem, herr⟩
      · exact .inr ⟨x, List.mem_append_right _ hx, herr⟩

/-- A complaint is about a name. -/
def Complains (err : NameError) (u : NameUse) : Prop := err.message = u.complaint ∧ err.span = u.span

theorem complains_variable {name : String} {span : Span} (h : err ∈ s.variableErrors name span) :
    Complains err (.variable name span) := by
  unfold variableErrors at h
  split at h
  · cases h
  · cases List.mem_singleton.1 h
    exact ⟨rfl, rfl⟩

theorem complains_call {name : String} {args : List Expr} {span : Span}
    (h : err ∈ s.callErrors name args.length span) : Complains err (.call name args span) := by
  unfold callErrors at h
  split at h
  · cases h
  · cases List.mem_singleton.1 h
    exact ⟨rfl, rfl⟩

/-- **What is complained about is used.** -/
theorem uses_of_mem_undefined {e : Expr} (h : err ∈ s.undefined e) : ∃ u, Uses e u ∧ Complains err u := by
  induction e using Expr.induction generalizing s with
  | step e ih =>
  have hpart {s' : Scope} {x : Expr} (hx : x ∈ e.parts) (herr : err ∈ s'.undefined x) :
      ∃ u, Uses e u ∧ Complains err u := (ih x hx herr).imp fun u hu => ⟨.part hx hu.1, hu.2⟩
  have hmaybe {o : Option Expr} (ho : ∀ x ∈ o.toList, x ∈ e.parts) (herr : err ∈ s.undefinedMaybe o) :
      ∃ u, Uses e u ∧ Complains err u := by
    obtain ⟨x, hx, hmem⟩ := mem_undefinedMaybe herr
    exact hpart (ho x hx) hmem
  cases e with
  | identity | recurseAll | literal => cases h
  | field target | iterate target | neg target => exact hpart List.mem_cons_self h
  | index left right | binary _ left right | alternative left right | pipe left right | comma left right
  | bind left _ right | define _ left right =>
    rcases List.mem_append.1 h with hleft | hright
    · exact hpart List.mem_cons_self hleft
    · exact hpart (List.mem_cons_of_mem _ (List.mem_singleton.2 rfl)) hright
  | slice target start stop =>
    rcases List.mem_append.1 h with h | hstop
    · rcases List.mem_append.1 h with htarget | hstart
      · exact hpart List.mem_cons_self htarget
      · exact hmaybe (fun x hx => List.mem_cons_of_mem _ (List.mem_append_left _ hx)) hstart
    · exact hmaybe (fun x hx => List.mem_cons_of_mem _ (List.mem_append_right _ hx)) hstop
  | array body => exact hmaybe (fun x hx => hx) h
  | object entries =>
    rcases mem_undefinedEntries h with ⟨name, span, value, hentry, herr⟩ | ⟨x, hx, herr⟩
    · exact ⟨_, .key hentry, complains_variable herr⟩
    · exact hpart hx herr
  | cond test yes no =>
    rcases List.mem_append.1 h with h | hno
    · rcases List.mem_append.1 h with htest | hyes
      · exact hpart List.mem_cons_self htest
      · exact hpart (List.mem_cons_of_mem _ List.mem_cons_self) hyes
    · exact hmaybe (fun x hx => List.mem_cons_of_mem _ (List.mem_cons_of_mem _ hx)) hno
  | attempt body handler =>
    rcases List.mem_append.1 h with hbody | hhandler
    · exact hpart List.mem_cons_self hbody
    · exact hmaybe (fun x hx => List.mem_cons_of_mem _ hx) hhandler
  | reduce source name init update =>
    rcases List.mem_append.1 h with h | hupdate
    · rcases List.mem_append.1 h with hsource | hinit
      · exact hpart List.mem_cons_self hsource
      · exact hpart (List.mem_cons_of_mem _ List.mem_cons_self) hinit
    · exact hpart (List.mem_cons_of_mem _ (List.mem_cons_of_mem _ (List.mem_singleton.2 rfl))) hupdate
  | «variable» name span => exact ⟨_, .variable, complains_variable h⟩
  | call name args span =>
    rcases List.mem_append.1 h with hargs | hcall
    · obtain ⟨x, hx, herr⟩ := mem_undefinedAll hargs
      exact hpart hx herr
    · exact ⟨_, .call, complains_call hcall⟩

end Scope

/-! ### Spans -/

/-- The tokens of a filter that is read are those in front of the end, and they tile its text. -/
theorem exists_tokens_of_parse {source : String} {tokens : List Token} {e : Expr}
    (htokens : tokenize source = .ok tokens) (hparse : parse tokens = .ok e) :
    ∃ found, found <+: tokens ∧ Tiled 0 source.toList found ∧ Covered source.toList found ∧
      ∃ taken, taken <+: found ∧ Built taken [e] := by
  obtain ⟨found, hfound, htiled⟩ := tiled_of_tokenize htokens
  have hcovered : Covered source.toList found := by
    have hcovers := (tokenize_covers source).2
    rw [htokens] at hcovers
    obtain ⟨found', hfound', hcovered⟩ := hcovers
    exact List.append_cancel_right (hfound.symm.trans hfound') ▸ hcovered
  obtain ⟨taken, last, behind, htaken, -, hbuilt⟩ := parse_built hparse
  refine ⟨found, ⟨_, hfound.symm⟩, htiled, hcovered, taken, ?_, hbuilt⟩
  rcases List.eq_nil_or_concat behind with rfl | ⟨behind, final, rfl⟩
  · obtain ⟨rfl, -⟩ := List.append_inj' (hfound.symm.trans htaken) rfl
    exact List.prefix_rfl
  · have hparts : found ++ [endOf source.toList] = taken ++ last :: behind ++ [final] := by
      rw [← hfound, htaken, List.append_assoc, List.concat_eq_append, List.cons_append]
    obtain ⟨rfl, -⟩ := List.append_inj' hparts rfl
    exact List.prefix_append taken _

section

variable {chars : List Char} {tokens : List Token}

/-- What stands behind a name in its span: nothing, or the arguments up to the parenthesis that closes them. -/
def NameUse.Ends (behind : List Char) : NameUse → Prop
  | .variable _ _ | .call _ [] _ => behind = []
  | .call _ (_ :: _) _ => ∃ between, behind = between ++ [')']

/-- **The text of a name** begins with the name. -/
theorem NameUse.From.shows {run : List Token} {u : NameUse} (h : u.From run) (htiled : Tiled 0 chars tokens)
    (hrun : run <:+: tokens) : ∃ behind, Shows chars u.span (u.written ++ behind) ∧ u.Ends behind := by
  cases h with
  | @«variable» t name ht =>
    obtain ⟨c, cs, hshows, hread⟩ := htiled.shows hrun
    rw [text_of_variable (spells_of_token hread ht nofun)] at hshows
    exact ⟨[], by rwa [List.append_nil], rfl⟩
  | @name t name ht =>
    obtain ⟨c, cs, hshows, hread⟩ := htiled.shows hrun
    rw [text_of_identifier (spells_of_token hread ht nofun)] at hshows
    exact ⟨[], by rwa [List.append_nil], rfl⟩
  | @call t left right inner name args ht hleft hright _ hargs =>
    obtain ⟨arg, args, rfl⟩ := List.exists_cons_of_ne_nil hargs
    have hwhole : t :: (left :: inner ++ [right]) <:+: tokens := hrun
    obtain ⟨c, cs, between, d, ds, hshows, hread, hread'⟩ := htiled.shows_from_to hwhole
    rw [text_of_identifier (spells_of_token hread ht nofun),
      text_of_mark (spells_of_token hread' hright nofun)] at hshows
    exact ⟨_, hshows, between, rfl⟩

/-- What is used in the arguments of a call lies in its span. -/
theorem NameUse.From.within {run : List Token} {name : String} {args : List Expr} {span : Span}
    (h : (NameUse.call name args span).From run) (hcovered : Covered chars tokens) (hrun : run <:+: tokens) :
    ∀ arg ∈ args, ∀ u, Uses arg u → span.start ≤ u.span.start ∧ u.span.stop ≤ span.stop := by
  cases h with
  | name _ => exact List.forall_mem_nil _
  | @call t left right inner _ _ ht hleft hright _ hargs hinner =>
    have hordered := ((List.pairwise_append.1 hcovered.ordered).1).sublist hrun.sublist
    obtain ⟨hfirst, hothers⟩ := List.pairwise_cons.1 hordered
    have hlast := (List.pairwise_append.1 (List.pairwise_cons.1 hothers).2).2.2
    have hright : right.span.start ≤ right.span.stop :=
      Nat.le_of_lt (hcovered.covering right (hrun.subset (by simp))).bounds.2.1
    intro arg harg u hu
    obtain ⟨first, hmem, last, hmem', hspan⟩ := hinner arg harg u hu
    have hstart := (hfirst first (by simp [hmem])).1
    have hstop := (hlast last hmem' right (List.mem_singleton.2 rfl)).2
    rw [hspan]
    exact ⟨Nat.le_of_lt hstart, Nat.le_trans hstop hright⟩

end

/-- **Names point at their text.**  Let a text be tokenized and read.

Each name that is used has its own tokens: a variable its token, a call those from the name to the parenthesis that
closes its arguments.  The span of a variable covers a dollar sign and the name.  The span of a call covers the name
and nothing else, or with arguments the text from the name to the closing parenthesis; all that is used in the
arguments lies in it.  So what is complained about, in whatever scope, is a name that is used, and the span of the
complaint covers a text that begins with it. -/
theorem names_show_their_text {source : String} {tokens : List Token} {e : Expr}
    (htokens : tokenize source = .ok tokens) (hparse : parse tokens = .ok e) :
    (∀ u, Uses e u → ∃ run, run <:+: tokens ∧ u.From run) ∧
    (∀ name span, Uses e (.variable name span) → Shows source.toList span ('$' :: name.toList)) ∧
    (∀ name args span, Uses e (.call name args span) →
      (args = [] → Shows source.toList span name.toList) ∧
      (args ≠ [] → ∃ between, Shows source.toList span (name.toList ++ (between ++ [')']))) ∧
      ∀ arg ∈ args, ∀ u, Uses arg u → span.start ≤ u.span.start ∧ u.span.stop ≤ span.stop) ∧
    ∀ s : Scope, ∀ err ∈ s.undefined e, ∃ u behind, Uses e u ∧ err.message = u.complaint ∧
      Shows source.toList err.span (u.written ++ behind) := by
  obtain ⟨found, hfound, htiled, hcovered, taken, htaken, hbuilt⟩ := exists_tokens_of_parse htokens hparse
  have hruns (u : NameUse) (hu : Uses e u) : ∃ run, run <:+: found ∧ u.From run :=
    ((hbuilt.shown.2 e List.mem_cons_self).mono htaken.isInfix) u hu
  have hshows (u : NameUse) (hu : Uses e u) :
      ∃ behind, Shows source.toList u.span (u.written ++ behind) ∧ u.Ends behind := by
    obtain ⟨run, hrun, hfrom⟩ := hruns u hu
    exact hfrom.shows htiled hrun
  refine ⟨fun u hu => ?_, fun name span hu => ?_, fun name args span hu => ⟨fun hargs => ?_, fun hargs => ?_, ?_⟩,
    fun s err herr => ?_⟩
  · obtain ⟨run, hrun, hfrom⟩ := hruns u hu
    exact ⟨run, hrun.trans hfound.isInfix, hfrom⟩
  · obtain ⟨behind, hshown, rfl⟩ := hshows _ hu
    rwa [List.append_nil] at hshown
  · subst hargs
    obtain ⟨behind, hshown, rfl⟩ := hshows _ hu
    rwa [List.append_nil] at hshown
  · obtain ⟨arg, args, rfl⟩ := List.exists_cons_of_ne_nil hargs
    obtain ⟨behind, hshown, between, rfl⟩ := hshows _ hu
    exact ⟨between, hshown⟩
  · obtain ⟨run, hrun, hfrom⟩ := hruns _ hu
    exact hfrom.within hcovered hrun
  · obtain ⟨u, hu, hmessage, hspan⟩ := Scope.uses_of_mem_undefined herr
    obtain ⟨behind, hshown, -⟩ := hshows u hu
    exact ⟨u, behind, hu, hmessage, hspan ▸ hshown⟩

/-- A call is the value of an entry whose key is a variable, in the argument of another call. -/
theorem names_show_their_text_nested :
    let source := "map({$k: f($x)})"
    let inner := Expr.call "f" [.variable "x" ⟨11, 13⟩] ⟨9, 14⟩
    let e := Expr.call "map" [.object [(.variable "k" ⟨5, 7⟩, some inner)]] ⟨0, 16⟩
    ∃ tokens, tokenize source = .ok tokens ∧ parse tokens = .ok e ∧
      Shows source.toList ⟨5, 7⟩ "$k".toList ∧
      (∃ between, Shows source.toList ⟨9, 14⟩ ("f".toList ++ (between ++ [')']))) ∧
      ∃ err ∈ Scope.empty.undefined e, err.message = "f/1 is not defined" ∧
        ∃ u behind, Uses e u ∧ err.message = u.complaint ∧ Shows source.toList err.span (u.written ++ behind) := by
  intro source inner e
  let tokens : List Token := [⟨.identifier "map", ⟨0, 3⟩⟩, ⟨.mark .leftParen, ⟨3, 4⟩⟩, ⟨.mark .leftBrace, ⟨4, 5⟩⟩,
    ⟨.variable "k", ⟨5, 7⟩⟩, ⟨.mark .colon, ⟨7, 8⟩⟩, ⟨.identifier "f", ⟨9, 10⟩⟩, ⟨.mark .leftParen, ⟨10, 11⟩⟩,
    ⟨.variable "x", ⟨11, 13⟩⟩, ⟨.mark .rightParen, ⟨13, 14⟩⟩, ⟨.mark .rightBrace, ⟨14, 15⟩⟩,
    ⟨.mark .rightParen, ⟨15, 16⟩⟩, ⟨.eof, ⟨16, 16⟩⟩]
  have htokens : tokenize source = .ok tokens := by decide +kernel
  have hparse : parse tokens = .ok e := rfl
  obtain ⟨-, hvariables, hcalls, hcomplaints⟩ := names_show_their_text htokens hparse
  have hobject {u : NameUse} (hu : Uses (.object [(.variable "k" ⟨5, 7⟩, some inner)]) u) : Uses e u :=
    .part (List.mem_singleton.2 rfl) hu
  have hkey : Uses e (.variable "k" ⟨5, 7⟩) := hobject (.key List.mem_cons_self)
  have hinner : Uses e (.call "f" [.variable "x" ⟨11, 13⟩] ⟨9, 14⟩) :=
    hobject (.part (List.mem_singleton.2 rfl) .call)
  have herr : ⟨"f/1 is not defined", ⟨9, 14⟩, none⟩ ∈ Scope.empty.undefined e := by decide +kernel
  exact ⟨tokens, htokens, hparse, hvariables _ _ hkey, (hcalls _ _ _ hinner).2.1 (List.cons_ne_nil _ _), _, herr, rfl,
    hcomplaints _ _ herr⟩

end JsonFilter.Filter
