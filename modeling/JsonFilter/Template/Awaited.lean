import JsonFilter.Template.Render

/-!
# Rendering templates one result at a time

A renderer that waits for every result of a filter, because the filters are evaluated elsewhere.  It goes
through a template as `render` does and stops at the first error, too, but it carries along what it has
got so far: the text, the items and the members in front of the place where it waits.
-/

namespace JsonFilter.Template

open Json (Value Members)

variable {m : Type → Type} [Monad m]

/-- Puts the texts of the filters' results, each behind its literal text, behind the text so far. -/
def appendSlots (evaluate : String → m Value) : List Slot → List Char → m (List Char)
  | [], text => return text
  | slot :: rest, text => do
    let value ← evaluate (.ofList slot.filter)
    appendSlots evaluate rest (text ++ slot.before ++ value.toText.toList)

/-- Renders a text, waiting for its results. -/
def awaitText (evaluate : String → m Value) (template : String) : ExceptT RenderError m Value :=
  match scan template with
  | .error fault => throw (.braces fault)
  | .ok parts =>
    match parts.slots with
    | [] => return .string template
    | slot :: _ =>
      if isWhole template.toList parts then
        ExceptT.lift (evaluate (.ofList slot.filter))
      else do
        let text ← ExceptT.lift (appendSlots evaluate parts.slots [])
        return .string (.ofList (text ++ parts.rest))

mutual

/-- Renders a value, waiting for its results. -/
def awaitValue (evaluate : String → m Value) : Value → ExceptT RenderError m Value
  | .string template => awaitText evaluate template
  | .array items => return .array (← awaitItems evaluate items #[]).toList
  | .object members => return .object (← awaitMembers evaluate members [])
  | other => return other

/-- Renders the items of an array, behind those already rendered. -/
def awaitItems (evaluate : String → m Value) :
    List Value → Array Value → ExceptT RenderError m (Array Value)
  | [], rendered => return rendered
  | item :: rest, rendered => do
    let value ← awaitValue evaluate item
    awaitItems evaluate rest (rendered.push value)

/-- Renders the members of an object, behind those already rendered. -/
def awaitMembers (evaluate : String → m Value) :
    List (String × Value) → Members Value → ExceptT RenderError m (Members Value)
  | [], rendered => return rendered
  | (key, value) :: rest, rendered => do
    if isSpreadKey key then
      let spread ← awaitValue evaluate value
      let members ← checkSpread key spread
      awaitMembers evaluate rest (rendered.extend members)
    else
      let name ← awaitText evaluate key
      match ← checkKey key name with
      | none => awaitMembers evaluate rest rendered
      | some name =>
        let value ← awaitValue evaluate value
        awaitMembers evaluate rest (rendered.insert name value)

end

end JsonFilter.Template
