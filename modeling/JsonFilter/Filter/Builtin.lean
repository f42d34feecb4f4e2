/-!
# Builtin functions

The functions that a filter can call without defining them, by the number of their arguments.
`builtins` is the table by which the names of a filter are checked, `ofName?` finds the function that a
call means.
-/

namespace JsonFilter.Filter

/-- The builtins without arguments. -/
inductive Nullary where
  | length | utf8ByteLength | keys | keysUnsorted | values | add | any | all | empty | not | type
  | toText | toNumber | toJson | fromJson | asciiDowncase | asciiUpcase | floor | ceil | sqrt | abs
  | reverse | sort | unique | min | max | toEntries | fromEntries | env | infinite | nan | recurse
  | error | first | last
deriving DecidableEq, Repr

/-- The builtins with one argument. -/
inductive Unary where
  | map | select | recurse | first | last | range | «repeat» | has | contains | startsWith | endsWith
  | trimStart | trimEnd | split | join | withEntries | sortBy | error | any | all
deriving DecidableEq, Repr

/-- The builtins with two arguments. -/
inductive Binary where
  | limit | range | «until» | «while»
deriving DecidableEq, Repr

namespace Nullary

/-- The name in a filter. -/
def name : Nullary → String
  | .length => "length"
  | .utf8ByteLength => "utf8bytelength"
  | .keys => "keys"
  | .keysUnsorted => "keys_unsorted"
  | .values => "values"
  | .add => "add"
  | .any => "any"
  | .all => "all"
  | .empty => "empty"
  | .not => "not"
  | .type => "type"
  | .toText => "tostring"
  | .toNumber => "tonumber"
  | .toJson => "tojson"
  | .fromJson => "fromjson"
  | .asciiDowncase => "ascii_downcase"
  | .asciiUpcase => "ascii_upcase"
  | .floor => "floor"
  | .ceil => "ceil"
  | .sqrt => "sqrt"
  | .abs => "abs"
  | .reverse => "reverse"
  | .sort => "sort"
  | .unique => "unique"
  | .min => "min"
  | .max => "max"
  | .toEntries => "to_entries"
  | .fromEntries => "from_entries"
  | .env => "env"
  | .infinite => "infinite"
  | .nan => "nan"
  | .recurse => "recurse"
  | .error => "error"
  | .first => "first"
  | .last => "last"

/-- All of them, in order. -/
def listing : List Nullary :=
  [.length, .utf8ByteLength, .keys, .keysUnsorted, .values, .add, .any, .all, .empty, .not, .type,
    .toText, .toNumber, .toJson, .fromJson, .asciiDowncase, .asciiUpcase, .floor, .ceil, .sqrt,
    .abs, .reverse, .sort, .unique, .min, .max, .toEntries, .fromEntries, .env, .infinite, .nan,
    .recurse, .error, .first, .last]

/-- The builtin of a name. -/
def ofName? (name : String) : Option Nullary := listing.find? (·.name == name)

end Nullary

namespace Unary

/-- The name in a filter. -/
def name : Unary → String
  | .map => "map"
  | .select => "select"
  | .recurse => "recurse"
  | .first => "first"
  | .last => "last"
  | .range => "range"
  | .repeat => "repeat"
  | .has => "has"
  | .contains => "contains"
  | .startsWith => "startswith"
  | .endsWith => "endswith"
  | .trimStart => "ltrimstr"
  | .trimEnd => "rtrimstr"
  | .split => "split"
  | .join => "join"
  | .withEntries => "with_entries"
  | .sortBy => "sort_by"
  | .error => "error"
  | .any => "any"
  | .all => "all"

/-- All of them, in order. -/
def listing : List Unary :=
  [.map, .select, .recurse, .first, .last, .range, .repeat, .has, .contains, .startsWith, .endsWith,
    .trimStart, .trimEnd, .split, .join, .withEntries, .sortBy, .error, .any, .all]

/-- The builtin of a name. -/
def ofName? (name : String) : Option Unary := listing.find? (·.name == name)

end Unary

namespace Binary

/-- The name in a filter. -/
def name : Binary → String
  | .limit => "limit"
  | .range => "range"
  | .until => "until"
  | .while => "while"

/-- All of them, in order. -/
def listing : List Binary := [.limit, .range, .until, .while]

/-- The builtin of a name. -/
def ofName? (name : String) : Option Binary := listing.find? (·.name == name)

end Binary

/-- The names and numbers of arguments of all builtins, in the order in which suggestions consider
them. -/
def builtins : List (String × Nat) :=
  [("length", 0), ("utf8bytelength", 0), ("keys", 0), ("keys_unsorted", 0), ("values", 0),
    ("add", 0), ("any", 0), ("all", 0), ("empty", 0), ("not", 0), ("type", 0), ("tostring", 0),
    ("tonumber", 0), ("tojson", 0), ("fromjson", 0), ("ascii_downcase", 0), ("ascii_upcase", 0),
    ("floor", 0), ("ceil", 0), ("sqrt", 0), ("abs", 0), ("reverse", 0), ("sort", 0), ("unique", 0),
    ("min", 0), ("max", 0), ("to_entries", 0), ("from_entries", 0), ("env", 0), ("infinite", 0),
    ("nan", 0), ("recurse", 0), ("error", 0), ("first", 0), ("last", 0), ("map", 1), ("select", 1),
    ("recurse", 1), ("first", 1), ("last", 1), ("range", 1), ("repeat", 1), ("has", 1),
    ("contains", 1), ("startswith", 1), ("endswith", 1), ("ltrimstr", 1), ("rtrimstr", 1),
    ("split", 1), ("join", 1), ("with_entries", 1), ("sort_by", 1), ("error", 1), ("any", 1),
    ("all", 1), ("limit", 2), ("range", 2), ("until", 2), ("while", 2)]

/-- Whether a builtin has the name and the number of arguments. -/
def isBuiltin (name : String) (arity : Nat) : Bool :=
  builtins.any fun (n, a) => n == name && a == arity

/-- The numbers of arguments with which a name is a builtin. -/
def builtinArities (name : String) : List Nat :=
  (builtins.filter fun (n, _) => n == name).map Prod.snd

/-- The variable that is bound everywhere, to the environment. -/
def envVariable : String := "ENV"

end JsonFilter.Filter
