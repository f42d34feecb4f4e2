import JsonFilter.Json.Value
import JsonFilter.Numeric.DecimalText

/-!
# Writing JSON

`Value.compact` writes a value without any blanks, `Value.pretty` with one member or item a line.
Keys come in the order of their members.

Strings escape the quote, the backslash and the controls below the space, five of them by a letter
and the others by four hexadecimal digits; every other character stands for itself.
-/

namespace JsonFilter.Json

/-- Floats are positional from five places behind the point to sixteen before it. -/
def floatFormat : FloatFormat := ⟨-5, 15⟩

/-- The text of a number. -/
def Number.text : Number → List Char
  | .integer i => (if i < 0 then ['-'] else []) ++ decimalDigits i.natAbs
  | .float x => (floatFormat.render x).toList

/-- One character inside a string. -/
def escapedChar (c : Char) : List Char :=
  if c = '"' then ['\\', '"']
  else if c = '\\' then ['\\', '\\']
  else if c.toNat = 8 then ['\\', 'b']
  else if c = '\t' then ['\\', 't']
  else if c = '\n' then ['\\', 'n']
  else if c.toNat = 12 then ['\\', 'f']
  else if c = '\r' then ['\\', 'r']
  else if c.toNat < 32 then
    ['\\', 'u', '0', '0', Nat.digitChar (c.toNat / 16), Nat.digitChar (c.toNat % 16)]
  else [c]

/-- The text of a string, with its quotes. -/
def stringText (s : String) : List Char := '"' :: (s.toList.flatMap escapedChar ++ ['"'])

namespace Value

/-- The texts of null, true and false. -/
def wordText : Option Bool → List Char
  | none => "null".toList
  | some true => "true".toList
  | some false => "false".toList

mutual

/-- The compact text of a value. -/
def compactChars : Value → List Char
  | .null => wordText none
  | .bool b => wordText (some b)
  | .number n => n.text
  | .string s => stringText s
  | .array items => '[' :: compactItems items
  | .object members => '\x7b' :: compactMembers members

/-- The items of an array and its closing bracket. -/
def compactItems : List Value → List Char
  | [] => [']']
  | v :: rest => compactChars v ++ compactItemsRest rest

/-- The items behind the first one and the closing bracket. -/
def compactItemsRest : List Value → List Char
  | [] => [']']
  | v :: rest => ',' :: (compactChars v ++ compactItemsRest rest)

/-- The members of an object and its closing brace. -/
def compactMembers : List (String × Value) → List Char
  | [] => ['\x7d']
  | (k, v) :: rest => stringText k ++ ':' :: (compactChars v ++ compactMembersRest rest)

/-- The members behind the first one and the closing brace. -/
def compactMembersRest : List (String × Value) → List Char
  | [] => ['\x7d']
  | (k, v) :: rest => ',' :: (stringText k ++ ':' :: (compactChars v ++ compactMembersRest rest))

end

/-- The compact text of a value. -/
def compact (v : Value) : String := .ofList v.compactChars

/-- A line break and two blanks for each level. -/
def newline (level : Nat) : List Char := '\n' :: List.replicate (2 * level) ' '

mutual

/-- The text of a value with one part a line, at a level of nesting. -/
def prettyChars (level : Nat) : Value → List Char
  | .array [] => ['[', ']']
  | .array (v :: rest) =>
    '[' :: (newline (level + 1) ++ prettyChars (level + 1) v ++ prettyItemsRest level rest)
  | .object [] => ['\x7b', '\x7d']
  | .object ((k, v) :: rest) =>
    '\x7b' :: (newline (level + 1) ++ stringText k ++ [':', ' '] ++ prettyChars (level + 1) v ++
      prettyMembersRest level rest)
  | .null => wordText none
  | .bool b => wordText (some b)
  | .number n => n.text
  | .string s => stringText s

/-- The items behind the first one and the closing bracket. -/
def prettyItemsRest (level : Nat) : List Value → List Char
  | [] => newline level ++ [']']
  | v :: rest =>
    ',' :: (newline (level + 1) ++ prettyChars (level + 1) v ++ prettyItemsRest level rest)

/-- The members behind the first one and the closing brace. -/
def prettyMembersRest (level : Nat) : List (String × Value) → List Char
  | [] => newline level ++ ['\x7d']
  | (k, v) :: rest =>
    ',' :: (newline (level + 1) ++ stringText k ++ [':', ' '] ++ prettyChars (level + 1) v ++
      prettyMembersRest level rest)

end

/-- The text of a value with one part a line. -/
def pretty (v : Value) : String := .ofList (v.prettyChars 0)

/-- A string as it is, any other value by its compact text. -/
def toText : Value → String
  | .string s => s
  | v => v.compact

/-- How messages show a value: its type and its text, of which a long one loses its end. -/
def describe (v : Value) : String :=
  let chars := v.compactChars
  let shown := if 11 < chars.length then chars.take 10 ++ ['.', '.', '.'] else chars
  v.typeName ++ " (" ++ .ofList shown ++ ")"

end Value
end JsonFilter.Json
