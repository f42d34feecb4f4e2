/-!
# Recency lists

A recency list keeps values in the order of their last use.  The values sit in an arena and link to
their neighbours by position, so that a value keeps its position for as long as it is in the list and
can be moved or removed without a search.  Positions that become free are used again.

`entries` is the list that the arena stands for: the positions with their values, the most recently
used first.
-/

namespace JsonFilter.Cache

/-- A value in the arena with the positions of its neighbours. -/
structure Node (α : Type) where
  value : α
  newer : Option Nat
  older : Option Nat
deriving DecidableEq, Repr

/-- Values in the order of their last use. -/
structure RecencyList (α : Type) where
  nodes : Array (Option (Node α))
  /-- The positions not in use, the next one to be used first. -/
  free : List Nat
  newest : Option Nat
  oldest : Option Nat
  size : Nat
deriving DecidableEq, Repr

namespace RecencyList

variable {α : Type}

/-- No values. -/
def empty : RecencyList α := ⟨#[], [], none, none, 0⟩

/-- The node at a position, if the position is in use. -/
def node? (l : RecencyList α) (i : Nat) : Option (Node α) := l.nodes[i]?.join

/-- The value at a position. -/
def get? (l : RecencyList α) (i : Nat) : Option α := (l.node? i).map Node.value

/-- The position used just after the one given. -/
def newer? (l : RecencyList α) (i : Nat) : Option Nat := (l.node? i).bind Node.newer

/-- Changes the node at a position. -/
def updateNode (l : RecencyList α) (i : Nat) (f : Node α → Node α) : RecencyList α :=
  { l with nodes := l.nodes.modify i (Option.map f) }

/-- Changes the value at a position. -/
def modify (l : RecencyList α) (i : Nat) (f : α → α) : RecencyList α :=
  l.updateNode i fun n => { n with value := f n.value }

/-- Sets what comes behind a position; without a position, the start of the list. -/
def setOlder (l : RecencyList α) (i target : Option Nat) : RecencyList α :=
  match i with
  | some i => l.updateNode i fun n => { n with older := target }
  | none => { l with newest := target }

/-- Sets what comes before a position; without a position, the end of the list. -/
def setNewer (l : RecencyList α) (i target : Option Nat) : RecencyList α :=
  match i with
  | some i => l.updateNode i fun n => { n with newer := target }
  | none => { l with oldest := target }

/-- Joins the neighbours of a position to each other. -/
def unlink? (l : RecencyList α) (i : Nat) : Option (RecencyList α) :=
  (l.node? i).map fun n => (l.setOlder n.newer n.older).setNewer n.older n.newer

/-- Makes a position the start of the list; its own links are already right. -/
def setFront (l : RecencyList α) (i : Nat) : RecencyList α :=
  let linked := match l.newest with
    | some head => l.updateNode head fun n => { n with newer := some i }
    | none => l
  { linked with newest := some i, oldest := l.oldest <|> some i }

/-- Adds a value as the most recently used; gives its position. -/
def pushFront (l : RecencyList α) (value : α) : Nat × RecencyList α :=
  let node : Node α := ⟨value, none, l.newest⟩
  let (i, stored) := match l.free with
    | i :: free => (i, { l with nodes := l.nodes.setIfInBounds i (some node), free := free })
    | [] => (l.nodes.size, { l with nodes := l.nodes.push (some node) })
  (i, { stored.setFront i with size := l.size + 1 })

/-- Makes the value at a position the most recently used. -/
def moveToFront (l : RecencyList α) (i : Nat) : RecencyList α :=
  if l.newest = some i then l
  else
    match l.unlink? i with
    | none => l
    | some u =>
      (u.updateNode i fun n => { n with newer := none, older := u.newest }).setFront i

/-- Removes the value at a position. -/
def remove (l : RecencyList α) (i : Nat) : Option α × RecencyList α :=
  match l.node? i, l.unlink? i with
  | some n, some u =>
    (some n.value,
      { u with nodes := u.nodes.setIfInBounds i none, free := i :: u.free, size := u.size - 1 })
  | _, _ => (none, l)

/-- At most `steps` positions with their values, from a position towards the older ones. -/
def walk (l : RecencyList α) : Nat → Option Nat → List (Nat × α)
  | 0, _ => []
  | _, none => []
  | steps + 1, some i =>
    match l.node? i with
    | none => []
    | some n => (i, n.value) :: l.walk steps n.older

/-- The positions with their values, the most recently used first. -/
def entries (l : RecencyList α) : List (Nat × α) := l.walk l.nodes.size l.newest

/-- The values, the most recently used first. -/
def toList (l : RecencyList α) : List α := l.entries.map Prod.snd

end RecencyList
end JsonFilter.Cache
