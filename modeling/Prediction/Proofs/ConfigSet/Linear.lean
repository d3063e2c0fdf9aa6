import Prediction.ConfigSet.Cursor
import Prediction.ConfigSet.Frozen
import Prediction.Proofs.Tree.Join

/-!
Linear sets: the meaning of writable and frozen sets of configurations. A linear set is a list that
is searched from the front, and it holds contexts as trees; it has no index, no cache and no
instances.
-/

namespace Prediction

/-- What can be seen of a configuration: its context counts by value. -/
structure Config.Value where
  state : StateId
  alt : Alternative
  context : Tree
  guard : Guard
  depth : UInt32
  reachesOuter : Bool
  hidden : Bool
  suppressed : Bool
deriving DecidableEq

def Config.value (c : Config) : Config.Value :=
  ⟨c.state, c.alt, c.context.tree, c.guard, c.depth, c.reachesOuter, c.hidden, c.suppressed⟩

namespace Config.Value

def key (c : Config.Value) : Config.Key := ⟨c.state, c.alt⟩

def mergesWith (c other : Config.Value) : Bool :=
  c.key = other.key && c.guard = other.guard

/-- The entry that stands for both configurations. -/
def absorb (c other : Config.Value) : Config.Value :=
  { c with
    context := c.context.join other.context
    depth := max c.depth other.depth
    suppressed := c.suppressed || other.suppressed }

def covers (c other : Config.Value) : Bool :=
  c.mergesWith other && c.context.covers other.context

end Config.Value

structure LinearSet where
  entries : List Config.Value
  uniqueAlt : Option Alternative
  guarded : Bool
  dips : Bool
  outermost : Bool
  conflict : Option Conflict
deriving DecidableEq

namespace LinearSet

def empty : LinearSet := ⟨[], none, false, false, false, none⟩

def starting (outermost guarded dips : Bool) : LinearSet :=
  { empty with outermost, guarded, dips }

def refusal? (s : LinearSet) (c : Config.Value) : Option ConfigSet.Error :=
  if s.outermost then
    if c.hidden then some (.hiddenInOutermost c.key)
    else if c.reachesOuter then some (.outerContextInOutermost c.key)
    else none
  else none

def uniqueAltAfter (s : LinearSet) (alt : Alternative) : Option Alternative :=
  if s.entries.isEmpty then some alt
  else if s.uniqueAlt = some alt then s.uniqueAlt
  else none

/-- Joins a configuration into an entry. The set has changed if the entry's context did. -/
def mergeInto (s : LinearSet) (index : Nat) (entry c : Config.Value) : Bool × LinearSet :=
  (entry.context.join c.context != entry.context,
    { s with
      entries := s.entries.set index (entry.absorb c)
      dips := s.dips || c.reachesOuter })

def append (s : LinearSet) (c : Config.Value) : LinearSet :=
  { s with
    entries := s.entries ++ [c]
    uniqueAlt := s.uniqueAltAfter c.alt
    guarded := s.guarded || !c.guard.isAlways
    dips := s.dips || c.reachesOuter }

/-- Looks for an entry of the configuration's key and guard. -/
def find? (s : LinearSet) (c : Config.Value) : Option (Config.Value × Nat) :=
  s.entries.zipIdx.find? fun entry => entry.1.mergesWith c

def insert (s : LinearSet) (c : Config.Value) : Bool × LinearSet :=
  match s.find? c with
  | some (entry, index) => s.mergeInto index entry c
  | none => (true, s.append c)

def add (s : LinearSet) (c : Config.Value) : Except ConfigSet.Error (Bool × LinearSet) :=
  match s.refusal? c with
  | some refusal => .error refusal
  | none => .ok (s.insert c)

def addAll (s : LinearSet) : List Config.Value → Except ConfigSet.Error Bool × LinearSet
  | [] => (.ok false, s)
  | c :: cs =>
    match s.add c with
    | .error refusal => (.error refusal, s)
    | .ok step =>
      let rest := step.2.addAll cs
      (rest.1.map (step.1 || ·), rest.2)

def contains (s : LinearSet) (c : Config.Value) : Bool :=
  s.entries.any (·.covers c)

def remove (s : LinearSet) (index : Nat) :
    Except ConfigSet.Error (Config.Value × LinearSet) :=
  match s.entries[index]? with
  | none => .error (.indexOutOfBounds index s.entries.length)
  | some c => .ok (c, { s with entries := s.entries.eraseIdx index })

def dropHidden (s : LinearSet) : LinearSet :=
  { s with entries := s.entries.filter fun c => !c.hidden }

def clear (s : LinearSet) : LinearSet :=
  starting s.outermost false false

def setOutermost (s : LinearSet) (outermost : Bool) : Except ConfigSet.Error LinearSet :=
  if s.outermost && !outermost then .error .outermostLatch
  else if outermost && s.dips then .error .dipsIntoOuterContext
  else .ok { s with outermost }

def setConflict (s : LinearSet) (conflict : Option Conflict) : LinearSet :=
  { s with conflict }

/-- A new set with the same entries. The conflict is not kept. -/
def thaw (s : LinearSet) : Except ConfigSet.Error LinearSet :=
  let replayed := (starting s.outermost s.guarded s.dips).addAll s.entries
  replayed.1.map fun _ => replayed.2

structure Cursor where
  set : LinearSet
  next : Nat
  state : ConfigSet.CursorState

def cursor (s : LinearSet) : Cursor := ⟨s, 0, .fresh⟩

namespace Cursor

def advance (k : Cursor) : Option Config.Value × Cursor :=
  match k.set.entries[k.next]? with
  | some c => (some c, { k with next := k.next + 1, state := .produced k.next })
  | none => (none, k)

def remove (k : Cursor) : Except ConfigSet.Error (Config.Value × Cursor) :=
  match k.state with
  | .fresh => .error .noCurrentConfig
  | .removed index => .error (.alreadyRemoved index)
  | .produced index =>
    match k.set.remove index with
    | .error refusal => .error refusal
    | .ok (c, set) => .ok (c, ⟨set, index, .removed index⟩)

end Cursor

end LinearSet

/-- The linear set with the same entries. -/
def ConfigContents.linear (s : ConfigContents) : LinearSet :=
  ⟨s.configs.map Config.value, s.uniqueAlt, s.guarded, s.dips, s.outermost, s.conflict⟩

def ConfigSet.Cursor.linear (k : ConfigSet.Cursor) : LinearSet.Cursor :=
  ⟨k.set.linear, k.next, k.state⟩

end Prediction
