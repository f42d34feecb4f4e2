import JsonFilter.Span
import JsonFilter.Text.Quoted

/-!
# Tokens of the filter language

The words, marks and literals that a filter is written with.  `Token.Kind.name` names a kind,
`display` is how messages show a token, `detail` how it is shown for inspection.
-/

namespace JsonFilter.Filter

/-- The reserved words. -/
inductive Keyword where
  | ifWord | thenWord | elifWord | elseWord | endWord | asWord | defWord | reduceWord
  | tryWord | catchWord | andWord | orWord | trueWord | falseWord | nullWord
deriving DecidableEq, Repr

namespace Keyword

/-- The spelling. -/
def text : Keyword → String
  | .ifWord => "if"
  | .thenWord => "then"
  | .elifWord => "elif"
  | .elseWord => "else"
  | .endWord => "end"
  | .asWord => "as"
  | .defWord => "def"
  | .reduceWord => "reduce"
  | .tryWord => "try"
  | .catchWord => "catch"
  | .andWord => "and"
  | .orWord => "or"
  | .trueWord => "true"
  | .falseWord => "false"
  | .nullWord => "null"

/-- All reserved words. -/
def all : List Keyword :=
  [.ifWord, .thenWord, .elifWord, .elseWord, .endWord, .asWord, .defWord, .reduceWord,
    .tryWord, .catchWord, .andWord, .orWord, .trueWord, .falseWord, .nullWord]

/-- The reserved word of a spelling. -/
def ofText? (word : String) : Option Keyword := all.find? (·.text == word)

end Keyword

/-- The marks. -/
inductive Mark where
  | dot | doubleDot | leftBracket | rightBracket | leftBrace | rightBrace | leftParen | rightParen
  | pipe | comma | colon | semicolon | question | alternative
  | plus | minus | star | slash | percent
  | equal | notEqual | less | lessEqual | greater | greaterEqual
deriving DecidableEq, Repr

namespace Mark

/-- The spelling. -/
def text : Mark → String
  | .dot => "."
  | .doubleDot => ".."
  | .leftBracket => "["
  | .rightBracket => "]"
  | .leftBrace => "\x7b"
  | .rightBrace => "\x7d"
  | .leftParen => "("
  | .rightParen => ")"
  | .pipe => "|"
  | .comma => ","
  | .colon => ":"
  | .semicolon => ";"
  | .question => "?"
  | .alternative => "//"
  | .plus => "+"
  | .minus => "-"
  | .star => "*"
  | .slash => "/"
  | .percent => "%"
  | .equal => "=="
  | .notEqual => "!="
  | .less => "<"
  | .lessEqual => "<="
  | .greater => ">"
  | .greaterEqual => ">="

end Mark

/-- What a token is, with its payload. -/
inductive TokenKind where
  | keyword (word : Keyword)
  | mark (mark : Mark)
  | identifier (name : String)
  /-- A dot directly followed by a name. -/
  | field (name : String)
  /-- A dollar sign directly followed by a name. -/
  | variable (name : String)
  /-- The digits as written. -/
  | number (text : String)
  /-- The decoded text. -/
  | string (value : String)
  /-- The end of the filter. -/
  | eof
deriving DecidableEq, Repr, Inhabited

namespace TokenKind

/-- The name of the kind: the spelling of words and marks, a noun for the others. -/
def name : TokenKind → String
  | .keyword w => w.text
  | .mark m => m.text
  | .identifier _ => "identifier"
  | .field _ => "field"
  | .variable _ => "variable"
  | .number _ => "number"
  | .string _ => "string"
  | .eof => "eof"

/-- The payload, where there is one. -/
def payload? : TokenKind → Option String
  | .identifier text | .field text | .variable text | .number text | .string text => some text
  | _ => none

/-- How messages show the token. -/
def display : TokenKind → String
  | .identifier name => "`" ++ name ++ "`"
  | .field name => "`." ++ name ++ "`"
  | .variable name => "`$" ++ name ++ "`"
  | .number text => "`" ++ text ++ "`"
  | .string value => Text.quoted value
  | .eof => "end of filter"
  | kind => "`" ++ kind.name ++ "`"

/-- How the token is shown for inspection. -/
def detail : TokenKind → String
  | .identifier name => "Identifier(" ++ name ++ ")"
  | .field name => "Field(" ++ name ++ ")"
  | .variable name => "Variable($" ++ name ++ ")"
  | .number text => "Number(" ++ text ++ ")"
  | .string value => "StringLiteral(" ++ Text.quoted value ++ ")"
  | kind => kind.name

/-- The token of a bare word: a reserved word or an identifier. -/
def ofWord (word : String) : TokenKind :=
  match Keyword.ofText? word with
  | some reserved => .keyword reserved
  | none => .identifier word

end TokenKind

/-- A token and the bytes it was read from. -/
structure Token where
  kind : TokenKind
  span : Span
deriving DecidableEq, Repr, Inhabited

end JsonFilter.Filter
