/-!
# Members of an object

An object keeps its members in the order in which their keys first came.  Members are a list of
pairs; every operation below leaves a list without repeated keys free of them.
-/

namespace JsonFilter.Json

/-- Keys with what they name, in order. -/
abbrev Members (α : Type) := List (String × α)

namespace Members

variable {α : Type}

/-- What a key names. -/
def get? (ms : Members α) (key : String) : Option α :=
  match ms with
  | [] => none
  | (k, v) :: rest => if k = key then some v else get? rest key

/-- Whether a key is there. -/
def hasKey (ms : Members α) (key : String) : Bool := (ms.get? key).isSome

/-- The keys in order. -/
def keys (ms : Members α) : List String := ms.map Prod.fst

/-- What the keys name, in order. -/
def values (ms : Members α) : List α := ms.map Prod.snd

/-- Gives a key a value: in its place if it is there, at the end if not. -/
def insert (ms : Members α) (key : String) (value : α) : Members α :=
  match ms with
  | [] => [(key, value)]
  | (k, v) :: rest => if k = key then (key, value) :: rest else (k, v) :: insert rest key value

/-- Inserts all members of the second list, one after the other. -/
def extend (ms more : Members α) : Members α :=
  more.foldl (fun ms (k, v) => ms.insert k v) ms

/-- Removes a key; the last member takes its place. -/
def swapRemove (ms : Members α) (key : String) : Members α :=
  match ms with
  | [] => []
  | (k, v) :: rest =>
    if k = key then
      match rest.getLast? with
      | some last => last :: rest.dropLast
      | none => []
    else (k, v) :: swapRemove rest key

/-- The members in ascending order of their keys. -/
def sortByKey (ms : Members α) : Members α := ms.mergeSort fun a b => a.1 ≤ b.1

@[simp] theorem get?_nil (key : String) : get? ([] : Members α) key = none := rfl

/-- An inserted key names its value, and the other keys name what they named before. -/
theorem get?_insert (ms : Members α) (key other : String) (value : α) :
    (ms.insert key value).get? other = if key = other then some value else ms.get? other := by
  induction ms with
  | nil => simp [insert, get?]
  | cons m rest ih =>
    obtain ⟨k, v⟩ := m
    by_cases hk : k = key
    · subst hk
      by_cases ho : k = other <;> simp [insert, get?, ho]
    · by_cases ho : k = other
      · subst ho
        simp [insert, get?, hk, Ne.symm hk]
      · simp [insert, get?, hk, ho, ih]

end Members
end JsonFilter.Json
