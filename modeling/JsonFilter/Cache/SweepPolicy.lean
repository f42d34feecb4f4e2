/-!
# Sweep policies

What a sweep does when the cache holds too many entries and the least recently used of them is in
use.
-/

namespace JsonFilter.Cache

/-- What a sweep does at an entry in use. -/
inductive SweepPolicy where
  /-- Ends there; the cache stays too full until the entry is given back. -/
  | stopAtBusy
  /-- Goes on with the entries used more recently. -/
  | skipBusy
deriving DecidableEq, Repr, Inhabited

namespace SweepPolicy

/-- The name. -/
def name : SweepPolicy → String
  | .stopAtBusy => "stop-at-busy"
  | .skipBusy => "skip-busy"

/-- The policy of a name. -/
def ofName? (text : String) : Option SweepPolicy :=
  if text = stopAtBusy.name then some .stopAtBusy
  else if text = skipBusy.name then some .skipBusy
  else none

/-- The complaint about a text that names no policy. -/
def unknown (text : String) : String :=
  s!"unknown sweep policy `{text}` (expected `stop-at-busy` or `skip-busy`)"

/-- Exactly the names name policies. -/
theorem ofName?_eq_some_iff (text : String) (p : SweepPolicy) :
    ofName? text = some p ↔ text = p.name := by
  cases p <;> grind [ofName?, name]

end SweepPolicy
end JsonFilter.Cache
