import JsonFilter.Cache.SweepPolicy
import JsonFilter.Duration
import JsonFilter.Json.Value
import JsonFilter.Text.Blank

/-!
# Settings of an executor

The settings have defaults, a text may change them, and the environment may change them again.
`Config.withEnvironment` reads the environment; `Config.validate` tells what cannot be used.
-/

namespace JsonFilter

/-- A setting that cannot be used. -/
structure ConfigError where
  key : String
  value : String
  reason : String
deriving DecidableEq, Repr

/-- The wording. -/
def ConfigError.message (e : ConfigError) : String :=
  s!"invalid value `{e.value}` for {e.key}: {e.reason}"

/-- The settings of an executor. -/
structure Config where
  /-- How many compiled filters the cache is meant to hold. -/
  cacheCapacity : Nat := 100
  /-- The least capacity that the cache is given; by default one place for every worker. -/
  minCapacity : Option Nat := none
  /-- The number of workers. -/
  workers : Nat := 4
  /-- How long an evaluation may take that asks for no time of its own. -/
  defaultTimeout : Option Duration := none
  sweepPolicy : Cache.SweepPolicy := .stopAtBusy
deriving DecidableEq, Repr, Inhabited

/-! ### Settings as text -/

/-- Counts have 64 bits. -/
def countLimit : Nat := twoTo 64

/-- Why a text is no count. -/
inductive CountFault where
  | empty
  | invalidDigit
  | tooLarge
deriving DecidableEq, Repr

/-- The wording. -/
def CountFault.message : CountFault → String
  | .empty => "cannot parse integer from empty string"
  | .invalidDigit => "invalid digit found in string"
  | .tooLarge => "number too large to fit in target type"

/-- The digits behind a plus sign that may stand before them. -/
def unsignedPart : List Char → List Char
  | '+' :: rest => rest
  | text => text

/-- Reads digits from the left; the first character that is no digit counts before a count that is
too large behind it. -/
def readCountFrom : List Char → Nat → Except CountFault Nat
  | [], n => .ok n
  | c :: rest, n =>
    if !c.isDigit then .error .invalidDigit
    else
      let n := n * 10 + digitsValue [c]
      if countLimit ≤ n then .error .tooLarge else readCountFrom rest n

/-- Reads a count: decimal digits, with an optional plus sign. -/
def readCount (text : List Char) : Except CountFault Nat :=
  if text.isEmpty then .error .empty
  else
    match unsignedPart text with
    | [] => .error .invalidDigit
    | digits => readCountFrom digits 0

/-- Reads a count that is not zero, with blanks around it. -/
def readPositive (key value : String) : Except ConfigError Nat :=
  match readCount (Text.trim value.toList) with
  | .ok 0 => .error ⟨key, value, "must be positive"⟩
  | .ok n => .ok n
  | .error fault => .error ⟨key, value, fault.message⟩

/-- The complaint about a text that is no decimal number. -/
def notDecimal (text : List Char) : String :=
  if text.isEmpty then "cannot parse float from empty string" else "invalid float literal"

/-- Reads a number of seconds that is at least a nanosecond when rounded, with blanks around it. -/
def readSeconds (key value : String) : Except ConfigError Duration :=
  let trimmed := Text.trim value.toList
  match Binary64.ofText? (.ofList trimmed) with
  | none => .error ⟨key, value, notDecimal trimmed⟩
  | some seconds =>
    match Duration.ofSeconds seconds with
    | .ok d =>
      if d = .zero then .error ⟨key, value, "must be a positive number of seconds"⟩ else .ok d
    | .error _ => .error ⟨key, value, "must be a positive number of seconds"⟩

namespace Config

/-- The variable with the capacity of the cache. -/
def capacityVariable : String := "JQEXEC_CACHE_CAPACITY"

/-- The variable with the number of workers. -/
def workersVariable : String := "JQEXEC_WORKERS"

/-- The variable with the seconds that an evaluation may take. -/
def timeoutVariable : String := "JQEXEC_TIMEOUT_SECS"

/-- The settings after the environment had its say. -/
def withEnvironment (c : Config) (lookup : String → Option String) :
    Except ConfigError Config := do
  let capacity ← (lookup capacityVariable).mapM (readPositive capacityVariable)
  let workers ← (lookup workersVariable).mapM (readPositive workersVariable)
  let timeout ← (lookup timeoutVariable).mapM (readSeconds timeoutVariable)
  return { c with
    cacheCapacity := capacity.getD c.cacheCapacity
    workers := workers.getD c.workers
    defaultTimeout := timeout <|> c.defaultTimeout }

/-- The least capacity of the cache. -/
def leastCapacity (c : Config) : Nat := c.minCapacity.getD c.workers

/-- The capacity that the cache is given when one is asked for. -/
def effectiveCapacity (c : Config) (requested : Nat) : Nat := max requested c.leastCapacity

/-- A setting that must not be zero. -/
def zeroSetting (key : String) : ConfigError := ⟨key, "0", "must be positive"⟩

/-- Refuses settings that cannot be used. -/
def validate (c : Config) : Except ConfigError Unit :=
  if c.cacheCapacity = 0 then .error (zeroSetting "cache_capacity")
  else if c.workers = 0 then .error (zeroSetting "workers")
  else if c.minCapacity = some 0 then .error (zeroSetting "min_capacity")
  else if c.defaultTimeout = some .zero then .error (zeroSetting "default_timeout")
  else .ok ()

/-- The seconds of a timeout as a JSON number. -/
def secondsValue (d : Duration) : Json.Value :=
  match d.toSeconds with
  | .finite x => .number (.float x)
  | _ => .null

/-- The settings as an object. -/
def toJson (c : Config) : Json.Value :=
  .object [
    ("cache_capacity", .ofNat c.cacheCapacity),
    ("min_capacity", c.minCapacity.elim .null .ofNat),
    ("workers", .ofNat c.workers),
    ("default_timeout", c.defaultTimeout.elim .null secondsValue),
    ("sweep_policy", .string c.sweepPolicy.name)]

/-- Valid settings give the cache room. -/
theorem effectiveCapacity_pos (c : Config) (requested : Nat) (h : 0 < requested) :
    0 < c.effectiveCapacity requested := by
  unfold effectiveCapacity
  omega

end Config
end JsonFilter
