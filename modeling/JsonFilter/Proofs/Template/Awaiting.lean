import JsonFilter.Template.Awaited

/-!
# Both ways of rendering a template agree

There are two renderers.  One of them puts its results together on the way back, the other one carries
them along, so that neither is an instance of the other.  This file shows that they evaluate the same
filters in the same order and put the same things together, whatever the evaluation of a filter does on
the side and wherever an error stops them.

* **`awaitValue_eq_render`** — the two renderers are one function of the evaluation.
* **`Congruent.render`** — evaluations that agree give renderings that agree.
-/

namespace JsonFilter.Template

open Json (Value Members)

variable {m : Type → Type} [Monad m]

/-! ### The two renderers -/

section Renderers

variable [LawfulMonad m] (evaluate : String → m Value)

theorem appendSlots_eq (slots : List Slot) (text : List Char) :
    appendSlots evaluate slots text = (text ++ ·) <$> renderSlots evaluate slots := by
  induction slots generalizing text with
  | nil =>
    unfold appendSlots renderSlots
    rw [map_pure, List.append_nil]
  | cons slot rest ih =>
    unfold appendSlots renderSlots
    rw [map_bind]
    refine bind_congr fun value => ?_
    rw [ih, map_bind, map_eq_pure_bind]
    refine bind_congr fun more => ?_
    rw [map_pure, List.append_assoc, List.append_assoc, List.append_assoc]

theorem awaitText_eq (template : String) :
    awaitText evaluate template = renderText evaluate template := by
  unfold awaitText renderText
  cases scan template with
  | error fault => rfl
  | ok parts =>
    obtain ⟨slots, rest⟩ := parts
    cases slots with
    | nil => rfl
    | cons slot more =>
      dsimp only
      rw [appendSlots_eq]
      simp only [List.nil_append, id_map']

mutual

/-- **The two renderers agree** on every value. -/
theorem awaitValue_eq_render : ∀ v : Value, awaitValue evaluate v = render evaluate v
  | .null | .bool _ | .number _ => by
    unfold awaitValue render
    rfl
  | .string template => by
    unfold awaitValue render
    exact awaitText_eq evaluate template
  | .array items => by
    unfold awaitValue render
    rw [awaitItems_eq items #[], bind_map_left]
    refine bind_congr fun rendered => ?_
    simp
  | .object members => by
    unfold awaitValue render
    rw [awaitMembers_eq members []]

/-- The items behind those already rendered. -/
theorem awaitItems_eq : ∀ (items : List Value) (rendered : Array Value),
    awaitItems evaluate items rendered =
      (fun more : List Value => rendered ++ more) <$> renderItems evaluate items
  | [], rendered => by
    unfold awaitItems renderItems
    rw [map_pure]
    simp
  | item :: rest, rendered => by
    unfold awaitItems renderItems
    rw [awaitValue_eq_render item, map_bind]
    refine bind_congr fun value => ?_
    rw [awaitItems_eq rest, map_bind, map_eq_pure_bind]
    refine bind_congr fun more => ?_
    rw [map_pure]
    simp

/-- The members behind those already rendered. -/
theorem awaitMembers_eq : ∀ (members : List (String × Value)) (rendered : Members Value),
    awaitMembers evaluate members rendered = renderMembers evaluate members rendered
  | [], rendered => by
    unfold awaitMembers renderMembers
    rfl
  | (key, value) :: rest, rendered => by
    unfold awaitMembers renderMembers
    rw [awaitValue_eq_render value, awaitText_eq evaluate key]
    split
    · refine bind_congr fun spread => ?_
      refine bind_congr fun members => ?_
      exact awaitMembers_eq rest _
    · refine bind_congr fun name => ?_
      refine bind_congr fun name? => ?_
      cases name? with
      | none => exact awaitMembers_eq rest rendered
      | some name =>
        dsimp only
        refine bind_congr fun value => ?_
        exact awaitMembers_eq rest _

end

end Renderers

/-! ### Evaluations that agree -/

/-- **A congruence of effects**: it relates what has no effects to itself, and what is put together from
related parts is related. -/
structure Congruent (R : ∀ {α : Type}, m α → m α → Prop) : Prop where
  pure {α : Type} (a : α) : R (Pure.pure a : m α) (Pure.pure a)
  map {α β : Type} {s t : m α} (f : α → β) : R s t → R (f <$> s) (f <$> t)
  bind {α β : Type} {s t : m α} {f g : α → m β} :
    R s t → (∀ a, R (f a) (g a)) → R (s >>= f) (t >>= g)

namespace Congruent

variable {R : ∀ {α : Type}, m α → m α → Prop} (h : Congruent @R)
  {evaluate evaluate' : String → m Value}

include h

/-- Sequences that may stop with an error. -/
theorem bindError {ε α β : Type} {s t : ExceptT ε m α} {f g : α → ExceptT ε m β}
    (hs : R s.run t.run) (hf : ∀ a, R (f a).run (g a).run) : R (s >>= f).run (t >>= g).run := by
  refine h.bind hs fun result => ?_
  cases result with
  | ok a => exact hf a
  | error e => exact h.pure _

/-- An evaluation that stops with no error of its own. -/
theorem lift {ε α : Type} {s t : m α} (hs : R s t) :
    R (ExceptT.lift s : ExceptT ε m α).run (ExceptT.lift t : ExceptT ε m α).run := h.map Except.ok hs

/-- The check of a key evaluates nothing. -/
theorem checkKey (key : String) (rendered : Value) :
    R (checkKey key rendered : ExceptT RenderError m _).run (Template.checkKey key rendered).run := by
  unfold Template.checkKey
  cases rendered <;> exact h.pure _

/-- Nor does the check of a spread. -/
theorem checkSpread (key : String) (rendered : Value) :
    R (checkSpread key rendered : ExceptT RenderError m _).run (Template.checkSpread key rendered).run := by
  unfold Template.checkSpread
  cases rendered <;> exact h.pure _

theorem renderSlots (hevaluate : ∀ filter, R (evaluate filter) (evaluate' filter))
    (slots : List Slot) :
    R (renderSlots evaluate slots) (renderSlots evaluate' slots) := by
  induction slots with
  | nil => exact h.pure _
  | cons slot rest ih =>
    unfold Template.renderSlots
    exact h.bind (hevaluate _) fun value => h.bind ih fun more => h.pure _

theorem renderText (hevaluate : ∀ filter, R (evaluate filter) (evaluate' filter))
    (template : String) :
    R (renderText evaluate template).run (renderText evaluate' template).run := by
  unfold Template.renderText
  cases scan template with
  | error fault => exact h.pure _
  | ok parts =>
    obtain ⟨slots, rest⟩ := parts
    cases slots with
    | nil => exact h.pure _
    | cons slot more =>
      dsimp only
      split
      · exact h.lift (hevaluate _)
      · exact h.bindError (h.lift (h.renderSlots hevaluate _)) fun text => h.pure _

mutual

/-- **Renderings with evaluations that agree** agree. -/
theorem render (hevaluate : ∀ filter, R (evaluate filter) (evaluate' filter)) :
    ∀ v : Value, R (render evaluate v).run (Template.render evaluate' v).run
  | .null | .bool _ | .number _ => by
    unfold Template.render
    exact h.pure _
  | .string template => by
    unfold Template.render
    exact h.renderText hevaluate template
  | .array items => by
    unfold Template.render
    exact h.bindError (renderItems hevaluate items) fun rendered => h.pure _
  | .object members => by
    unfold Template.render
    exact h.bindError (renderMembers hevaluate members []) fun rendered => h.pure _

theorem renderItems (hevaluate : ∀ filter, R (evaluate filter) (evaluate' filter)) :
    ∀ items : List Value, R (renderItems evaluate items).run (Template.renderItems evaluate' items).run
  | [] => by
    unfold Template.renderItems
    exact h.pure _
  | item :: rest => by
    unfold Template.renderItems
    refine h.bindError (render hevaluate item) fun value => ?_
    exact h.bindError (renderItems hevaluate rest) fun more => h.pure _

theorem renderMembers (hevaluate : ∀ filter, R (evaluate filter) (evaluate' filter)) :
    ∀ (members : List (String × Value)) (rendered : Members Value),
    R (renderMembers evaluate members rendered).run
      (Template.renderMembers evaluate' members rendered).run
  | [], rendered => by
    unfold Template.renderMembers
    exact h.pure _
  | (key, value) :: rest, rendered => by
    unfold Template.renderMembers
    split
    · refine h.bindError (render hevaluate value) fun spread => ?_
      refine h.bindError (h.checkSpread key spread) fun members => ?_
      exact renderMembers hevaluate rest _
    · refine h.bindError (h.renderText hevaluate key) fun name => ?_
      refine h.bindError (h.checkKey key name) fun name? => ?_
      cases name? with
      | none => exact renderMembers hevaluate rest rendered
      | some name =>
        exact h.bindError (render hevaluate value) fun value => renderMembers hevaluate rest _

end

end Congruent

end JsonFilter.Template
