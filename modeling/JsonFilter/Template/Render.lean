import JsonFilter.Json.Printer
import JsonFilter.Template.Scan
import JsonFilter.Text.Blank
import JsonFilter.Text.Search

/-!
# Rendering templates

A text that is nothing but one filter renders to the filter's result, of whatever type.  Any other
text renders to a text, each filter replaced by the text of its result.  Arrays and objects are
rendered part by part, the keys of objects too.

The evaluation of a filter is a parameter and may have effects of its own; the filters of a template
are evaluated in the order in which they stand in it.
-/

namespace JsonFilter.Template

open Json (Value Members)

/-- Why a template cannot be rendered. -/
inductive RenderError where
  | braces (fault : BraceFault)
  /-- What should be spread over an object is not an object. -/
  | spreadNotObject (key : String) (rendered : Value)
  /-- A key renders to what is neither a string nor null. -/
  | invalidKey (key : String) (rendered : Value)
deriving Repr

/-- The wording. -/
def BraceFault.message : BraceFault → String
  | .nestedOpening place outer =>
    s!"found double braces at index {place} inside the template opened at index {outer}"
  | .unmatchedClosing place =>
    s!"found closing double braces at index {place} without opening double braces"
  | .unterminatedOpening place =>
    s!"found opening double braces at index {place} without closing double braces"

/-- The wording. -/
def RenderError.message : RenderError → String
  | .braces fault => fault.message
  | .spreadNotObject key rendered =>
    s!"value under `{key}` should render to an object, got {rendered.compact}"
  | .invalidKey key rendered =>
    s!"object key `{key}` should render to a string or null, got {rendered.compact}"

/-- The two characters that open a filter. -/
def opening : List Char := ['\x7b', '\x7b']

/-- The two characters that end a filter. -/
def closing : List Char := ['\x7d', '\x7d']

/-- Whether a text with the given parts is nothing but one filter and blanks around it. -/
def isWhole (template : List Char) (parts : Parts) : Bool :=
  let trimmed := Text.trim template
  parts.slots.length == 1 && opening.isPrefixOf trimmed && closing.isSuffixOf trimmed

/-- The word that asks for a value to be spread over the object around it. -/
def spreadWord : List Char := "spreadValue".toList

/-- Whether a key asks for its value to be spread: a filter that calls the word without arguments,
with blanks wherever they are allowed. -/
def isSpreadKey (key : String) : Bool :=
  let call : Option (List Char) := do
    let rest ← Text.dropStart? opening (Text.trim key.toList)
    let inner ← Text.dropEnd? closing rest
    let arguments ← Text.dropStart? spreadWord (Text.trim inner)
    let afterOpening ← Text.dropStart? ['('] (Text.trimStart arguments)
    return Text.trim afterOpening
  call == some [')']

variable {m : Type → Type} [Monad m]

/-- The text of the filters' results with the literal text between them. -/
def renderSlots (evaluate : String → m Value) : List Slot → m (List Char)
  | [] => return []
  | slot :: rest => do
    let value ← evaluate (.ofList slot.filter)
    let more ← renderSlots evaluate rest
    return slot.before ++ value.toText.toList ++ more

/-- Renders a text. -/
def renderText (evaluate : String → m Value) (template : String) :
    ExceptT RenderError m Value :=
  match scan template with
  | .error fault => throw (.braces fault)
  | .ok parts =>
    match parts.slots with
    | [] => return .string template
    | slot :: _ =>
      if isWhole template.toList parts then
        ExceptT.lift (evaluate (.ofList slot.filter))
      else do
        let text ← ExceptT.lift (renderSlots evaluate parts.slots)
        return .string (.ofList (text ++ parts.rest))

/-- The key that a rendered key stands for; null and the empty text stand for none. -/
def checkKey (key : String) (rendered : Value) : ExceptT RenderError m (Option String) :=
  match rendered with
  | .null => return none
  | .string name => return if name.isEmpty then none else some name
  | other => throw (.invalidKey key other)

/-- The members of a value that is to be spread. -/
def checkSpread (key : String) (rendered : Value) : ExceptT RenderError m (Members Value) :=
  match rendered with
  | .object members => return members
  | other => throw (.spreadNotObject key other)

mutual

/-- Renders a value. -/
def render (evaluate : String → m Value) : Value → ExceptT RenderError m Value
  | .string template => renderText evaluate template
  | .array items => return .array (← renderItems evaluate items)
  | .object members => return .object (← renderMembers evaluate members [])
  | other => return other

/-- Renders the items of an array. -/
def renderItems (evaluate : String → m Value) : List Value → ExceptT RenderError m (List Value)
  | [] => return []
  | item :: rest => do
    let rendered ← render evaluate item
    let more ← renderItems evaluate rest
    return rendered :: more

/-- Renders the members of an object, behind those already rendered. -/
def renderMembers (evaluate : String → m Value) :
    List (String × Value) → Members Value → ExceptT RenderError m (Members Value)
  | [], rendered => return rendered
  | (key, value) :: rest, rendered =>
    if isSpreadKey key then do
      let spread ← checkSpread key (← render evaluate value)
      renderMembers evaluate rest (rendered.extend spread)
    else do
      match ← checkKey key (← renderText evaluate key) with
      | none => renderMembers evaluate rest rendered
      | some name =>
        let value ← render evaluate value
        renderMembers evaluate rest (rendered.insert name value)

end

end JsonFilter.Template
