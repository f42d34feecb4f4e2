import JsonFilter.Executor.Config
import JsonFilter.Json.Printer
import JsonFilter.Json.Reader
import JsonFilter.Text.Quoted

/-!
# Settings in JSON text

`Config.ofJsonText` reads the settings from an object whose members are named like them, each at most
once, or from a list with the settings in their order.  Settings that are missing have their
defaults.  The text is read from left to right and the first fault is reported with its place.

A complaint about a single value has its place behind the value.  A complaint about a name, or about
a timeout that is no duration, has its place where the reading of the object or list stops after it:
behind the blanks that follow and the closing bracket, if there is one.
-/

namespace JsonFilter

open Json (Input Place ReadError ReadFault Reader)

namespace Json.Input

/-- A complaint about what was just read. -/
def complain {α : Type} (i : Input) (complaint : String) : Except ReadError α :=
  i.fail (.unsuitable complaint)

/-- The input behind its blanks and a closing bracket, if that comes next. -/
def closed (i : Input) (bracket : Char) : Input :=
  let i := i.skipSpace
  if i.rest.head? = some bracket then i.drop 1 else i

end Json.Input

namespace Config

/-- The input where the reading of an object stops after a complaint. -/
def objectEnd (i : Input) : Input := i.closed '\x7d'

/-- The input where the reading of a list stops after a complaint. -/
def listEnd (i : Input) : Input :=
  let i := i.skipSpace
  if i.rest.head? = some ',' then (i.drop 1).skipSpace else i.closed ']'

/-! ### Single values -/

/-- How a complaint shows a number. -/
def shownNumber (n : Json.Number) : String :=
  match n with
  | .integer _ => s!"integer `{String.ofList n.text}`"
  | .float _ => s!"floating point `{String.ofList n.text}`"

/-- Complains that something else was expected than what comes next. -/
def unexpected {α : Type} (expected : String) : Reader α := fun i =>
  let complain (i : Input) (shown : String) : Except ReadError (α × Input) :=
    i.complain s!"invalid type: {shown}, expected {expected}"
  match i.rest with
  | 'n' :: _ => do complain (← Json.readWord ['u', 'l', 'l'] (i.drop 1)).2 "null"
  | 't' :: _ => do complain (← Json.readWord ['r', 'u', 'e'] (i.drop 1)).2 "boolean `true`"
  | 'f' :: _ => do complain (← Json.readWord ['a', 'l', 's', 'e'] (i.drop 1)).2 "boolean `false`"
  | '"' :: _ => do
    let (s, i) ← Json.readString (i.drop 1)
    complain i ("string " ++ Text.quoted s)
  | '[' :: _ => complain i "sequence"
  | '\x7b' :: _ => complain i "map"
  | c :: _ =>
    if c = '-' || c.isDigit then do
      let (n, i) ← Json.readNumberValue i
      complain i (shownNumber n)
    else i.failBeyond .valueExpected
  | [] => i.failBeyond .valueExpected

/-- Reads a number, for which the complaint about anything else has a name. -/
def readNumber (expected : String) : Reader Json.Number := fun i =>
  let i := i.skipSpace
  match i.rest with
  | [] => i.failBeyond .endInValue
  | c :: _ =>
    if c = '-' || c.isDigit then Json.readNumberValue i else unexpected expected i

/-- Reads a count. -/
def readCountValue : Reader Nat := fun i => do
  let (n, i) ← readNumber "usize" i
  match n with
  | .integer (.ofNat count) => return (count, i)
  | .integer _ => i.complain s!"invalid value: {shownNumber n}, expected usize"
  | .float _ => i.complain s!"invalid type: {shownNumber n}, expected usize"

/-- Reads null or a value. -/
def readOptional {α : Type} (value : Reader α) : Reader (Option α) := fun i =>
  let i := i.skipSpace
  match i.rest with
  | 'n' :: _ => (Json.readWord ['u', 'l', 'l'] (i.drop 1)).map fun (_, i) => (none, i)
  | _ => (value i).map fun (v, i) => (some v, i)

/-- Reads null or a number of seconds; `stop` is where a complaint about its size has its place. -/
def readTimeout (stop : Input → Input) : Reader (Option Duration) := fun i => do
  let (seconds, i) ← readOptional (readNumber "f64") i
  match seconds with
  | none => return (none, i)
  | some n =>
    match Duration.ofSeconds n.toBinary64 with
    | .ok d => return (some d, i)
    | .error fault => (stop i).complain fault.message

/-- The policy of a name, at the place behind it. -/
def policyOfName (name : String) (i : Input) : Except ReadError Cache.SweepPolicy :=
  match Cache.SweepPolicy.ofName? name with
  | some policy => .ok policy
  | none => i.complain s!"unknown variant `{name}`, expected `stop-at-busy` or `skip-busy`"

/-- Reads null. -/
def readNull : Reader Unit := fun i =>
  let i := i.skipSpace
  match i.rest with
  | [] => i.failBeyond .endInValue
  | 'n' :: _ => Json.readWord ['u', 'l', 'l'] (i.drop 1)
  | _ => unexpected "unit" i

/-- Reads the name of a policy, or an object with the name as its only key and null behind it. -/
def readPolicy : Reader Cache.SweepPolicy := fun i =>
  let i := i.skipSpace
  match i.rest with
  | [] => i.failBeyond .endInValue
  | '"' :: _ => do
    let (name, i) ← Json.readString (i.drop 1)
    return (← policyOfName name i, i)
  | '\x7b' :: _ => do
    let i := (i.drop 1).skipSpace
    match i.rest with
    | [] => i.failBeyond .endInObject
    | '"' :: _ =>
      let (name, i) ← Json.readString (i.drop 1)
      let policy ← policyOfName name i
      let (_, i) ← Json.readColon i
      let (_, i) ← readNull i
      let i := i.skipSpace
      match i.rest with
      | [] => i.fail .endInObject
      | '\x7d' :: _ => return (policy, i.drop 1)
      | _ => i.fail .valueExpected
    | '\x7d' :: _ => i.failBeyond .valueExpected
    | _ => i.failBeyond .keyNotString
  | _ => i.failBeyond .valueExpected

/-! ### All settings -/

/-- The settings read so far. -/
structure Draft where
  cacheCapacity : Option Nat := none
  minCapacity : Option (Option Nat) := none
  workers : Option Nat := none
  defaultTimeout : Option (Option Duration) := none
  sweepPolicy : Option Cache.SweepPolicy := none

/-- The settings, with the defaults for those that were not read. -/
def Draft.finish (d : Draft) : Config :=
  let standard : Config := {}
  { cacheCapacity := d.cacheCapacity.getD standard.cacheCapacity
    minCapacity := d.minCapacity.getD standard.minCapacity
    workers := d.workers.getD standard.workers
    defaultTimeout := d.defaultTimeout.getD standard.defaultTimeout
    sweepPolicy := d.sweepPolicy.getD standard.sweepPolicy }

/-- A setting: its name, whether it was read, and how to read it.  The reading is told where a
complaint about the whole has its place. -/
structure Setting where
  name : String
  isRead : Draft → Bool
  read : (Input → Input) → Draft → Reader Draft

/-- The settings in order. -/
def settings : List Setting := [
  { name := "cache_capacity"
    isRead := fun d => d.cacheCapacity.isSome
    read := fun _ d i => do
      let (n, i) ← readCountValue i
      return ({ d with cacheCapacity := some n }, i) },
  { name := "min_capacity"
    isRead := fun d => d.minCapacity.isSome
    read := fun _ d i => do
      let (n, i) ← readOptional readCountValue i
      return ({ d with minCapacity := some n }, i) },
  { name := "workers"
    isRead := fun d => d.workers.isSome
    read := fun _ d i => do
      let (n, i) ← readCountValue i
      return ({ d with workers := some n }, i) },
  { name := "default_timeout"
    isRead := fun d => d.defaultTimeout.isSome
    read := fun stop d i => do
      let (t, i) ← readTimeout stop i
      return ({ d with defaultTimeout := some t }, i) },
  { name := "sweep_policy"
    isRead := fun d => d.sweepPolicy.isSome
    read := fun _ d i => do
      let (p, i) ← readPolicy i
      return ({ d with sweepPolicy := some p }, i) }]

/-- The names of the settings, as a complaint lists them. -/
def settingNames : String :=
  ", ".intercalate (settings.map fun s => "`" ++ s.name ++ "`")

/-- Reads the value of a member behind its name. -/
def readMember (d : Draft) (name : String) : Reader Draft := fun i =>
  match settings.find? (fun s => s.name = name) with
  | none => (objectEnd i).complain s!"unknown field `{name}`, expected one of {settingNames}"
  | some s =>
    if s.isRead d then (objectEnd i).complain s!"duplicate field `{name}`"
    else do
      let (_, i) ← Json.readColon i
      s.read objectEnd d i

/-- Reads the end of a list that has no more settings. -/
def readListEnd (d : Draft) : Reader Draft := fun i =>
  let i := i.skipSpace
  match i.rest with
  | [] => i.failBeyond .endInList
  | ']' :: _ => .ok (d, i.drop 1)
  | ',' :: _ =>
    let i := (i.drop 1).skipSpace
    if i.rest.head? = some ']' then i.failBeyond .trailingComma
    else i.failBeyond .trailingCharacters
  | _ => i.failBeyond .trailingCharacters

/-- Reads settings in their order behind the first `[`; a comma stands before all but the first. -/
def readInOrder : List Setting → Bool → Draft → Reader Draft
  | [], _, d, i => readListEnd d i
  | s :: rest, isFirst, d, i =>
    let i := i.skipSpace
    match i.rest with
    | [] => i.failBeyond .endInList
    | ']' :: _ => .ok (d, i.drop 1)
    | c :: _ =>
      if isFirst then do
        let (d, i) ← s.read listEnd d i
        readInOrder rest false d i
      else if c = ',' then
        let i := (i.drop 1).skipSpace
        match i.rest with
        | [] => i.failBeyond .endInValue
        | ']' :: _ => i.failBeyond .trailingComma
        | _ => do
          let (d, i) ← s.read listEnd d i
          readInOrder rest false d i
      else i.failBeyond .listCommaOrEndExpected

/-- Reads the settings. -/
def readSettings : Reader Draft := fun i =>
  let i := i.skipSpace
  match i.rest with
  | [] => i.failBeyond .endInValue
  | '\x7b' :: _ => Json.readMembers readMember {} (i.drop 1)
  | '[' :: _ => readInOrder settings true {} (i.drop 1)
  | _ => unexpected "struct ExecutorConfig" i

/-- The settings in a JSON text. -/
def ofJsonText (text : String) : Except ReadError Config := do
  let (d, rest) ← readSettings (.ofText text)
  Json.readEnd rest
  return d.finish

end Config
end JsonFilter
