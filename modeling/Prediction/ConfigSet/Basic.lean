import Prediction.ConfigSet.Contents
import Prediction.ConfigSet.Error
import Prediction.Network.Intern

/-!
Writable sets of configurations. At most one entry stands for a key and a guard: adding another
configuration of both merges it into that entry. For each key the position of one entry, its
representative, is on record; the positions of the other entries make up the overflow.
-/

namespace Prediction

structure ConfigSet extends ConfigContents where
  representatives : List (Config.Key × Nat)
  overflow : List Nat

namespace ConfigSet

def empty : ConfigSet := ⟨.empty, [], []⟩

/-- An empty set that is already known to be what the flags say. -/
def starting (outermost guarded dips : Bool) : ConfigSet :=
  { empty with outermost, guarded, dips }

/-- The outcome of adding a configuration: whether the set holds more than before, the set, and what
joins were made with. -/
structure Insertion where
  changed : Bool
  set : ConfigSet
  joiner : Joiner

/-- Why a configuration must not be added. -/
def refusal? (s : ConfigSet) (c : Config) : Option ConfigSet.Error :=
  if s.outermost then
    if c.hidden then some (.hiddenInOutermost c.key)
    else if c.reachesOuter then some (.outerContextInOutermost c.key)
    else none
  else none

def representative? (s : ConfigSet) (key : Config.Key) : Option Nat :=
  s.representatives.lookup key

/-- Whether the entry at a position can take in a configuration. -/
def mergesAt (s : ConfigSet) (c : Config) (index : Nat) : Bool :=
  s.configs[index]?.any (·.mergesWith c)

/-- Merges a configuration into the entry at a position. The set has changed if the entry's context
is another instance afterwards. -/
def mergeAt (s : ConfigSet) (index : Nat) (c : Config) (j : Joiner) : Insertion :=
  match s.configs[index]? with
  | none => ⟨false, s, j⟩
  | some entry =>
    let joined := entry.context.join c.context j
    let changed := !joined.1.identical entry.context
    let absorbed := entry.absorb c
    let merged := if changed then absorbed.withContext joined.1 else absorbed
    let set := { s with
      configs := s.configs.set index merged
      dips := s.dips || c.reachesOuter }
    ⟨changed, set, joined.2⟩

/-- Makes an entry of the overflow the representative of its key. -/
def promote (s : ConfigSet) (key : Config.Key) (index : Nat) : ConfigSet :=
  { s with
    representatives := s.representatives ++ [(key, index)]
    overflow := s.overflow.erase index }

def uniqueAltAfter (s : ConfigSet) (alt : Alternative) : Option Alternative :=
  if s.configs.isEmpty then some alt
  else if s.uniqueAlt = some alt then s.uniqueAlt
  else none

/-- Adds a configuration as an entry of its own. -/
def append (s : ConfigSet) (c : Config) : ConfigSet :=
  let isFirst := (s.representative? c.key).isNone
  { s with
    configs := s.configs ++ [c]
    uniqueAlt := s.uniqueAltAfter c.alt
    guarded := s.guarded || !c.guard.isAlways
    dips := s.dips || c.reachesOuter
    representatives :=
      if isFirst then s.representatives ++ [(c.key, s.size)] else s.representatives
    overflow := if isFirst then s.overflow else s.overflow ++ [s.size] }

/-- Adds a configuration that was not refused. -/
def insert (s : ConfigSet) (c : Config) (j : Joiner) : Insertion :=
  match (s.representative? c.key).filter (s.mergesAt c) with
  | some index => s.mergeAt index c j
  | none =>
    match s.overflow.find? (s.mergesAt c) with
    | some index =>
      let merged := s.mergeAt index c j
      if (s.representative? c.key).isNone then
        { merged with set := merged.set.promote c.key index }
      else merged
    | none => ⟨true, s.append c, j⟩

def add (s : ConfigSet) (c : Config) (j : Joiner) : Except ConfigSet.Error Insertion :=
  match s.refusal? c with
  | some refusal => .error refusal
  | none => .ok (s.insert c j)

/-- Adds configurations until one is refused. What was added before that one stays. -/
def addAll (s : ConfigSet) :
    List Config → Joiner → Except ConfigSet.Error Bool × ConfigSet × Joiner
  | [], j => (.ok false, s, j)
  | c :: cs, j =>
    match s.add c j with
    | .error refusal => (.error refusal, s, j)
    | .ok step =>
      let rest := step.set.addAll cs step.joiner
      (rest.1.map (step.changed || ·), rest.2)

/-- Whether an entry stands for everything that a configuration may do. -/
def contains (s : ConfigSet) (c : Config) : Bool :=
  match (s.representative? c.key).bind (s.configs[·]?) with
  | some entry => if entry.mergesWith c then entry.covers c else inOverflow
  | none => inOverflow
where
  inOverflow : Bool := s.overflow.any fun index => s.configs[index]?.any (·.covers c)

/-- Takes out the entry at a position. What is known of the set as a whole is not looked into
again. -/
def remove (s : ConfigSet) (index : Nat) : Except ConfigSet.Error (Config × ConfigSet) :=
  match s.configs[index]? with
  | none => .error (.indexOutOfBounds index s.size)
  | some c =>
    let represents := s.representative? c.key == some index
    let representatives :=
      if represents then s.representatives.filter (·.1 != c.key) else s.representatives
    let overflow := if represents then s.overflow else s.overflow.erase index
    .ok (c, { s with
      configs := s.configs.eraseIdx index
      representatives := representatives.map fun slot => (slot.1, shift slot.2)
      overflow := overflow.map shift })
where
  shift (slot : Nat) : Nat := if index < slot then slot - 1 else slot

/-- Where an entry is once hidden ones are gone. -/
def visiblePosition? (s : ConfigSet) (index : Nat) : Option Nat :=
  match s.configs[index]? with
  | some c =>
    if c.hidden then none else some ((s.configs.take index).countP fun before => !before.hidden)
  | none => none

/-- Takes out all hidden entries. -/
def dropHidden (s : ConfigSet) : ConfigSet :=
  if s.configs.any (·.hidden) then
    { s with
      configs := s.configs.filter fun c => !c.hidden
      representatives := s.representatives.filterMap fun slot =>
        (s.visiblePosition? slot.2).map (slot.1, ·)
      overflow := s.overflow.filterMap s.visiblePosition? }
  else s

/-- Empties the set. The latch stays. -/
def clear (s : ConfigSet) : ConfigSet :=
  starting s.outermost false false

/-- Sets the latch, which cannot be undone. -/
def setOutermost (s : ConfigSet) (outermost : Bool) : Except ConfigSet.Error ConfigSet :=
  if s.outermost && !outermost then .error .outermostLatch
  else if outermost && s.dips then .error .dipsIntoOuterContext
  else .ok { s with outermost }

def setConflict (s : ConfigSet) (conflict : Option Conflict) : ConfigSet :=
  { s with conflict }

def internAll : List Config → Network → Supply → List Config × Network × Supply
  | [], n, supply => ([], n, supply)
  | c :: cs, n, supply =>
    let interned := n.intern c.context supply
    let rest := internAll cs interned.2.1 interned.2.2
    (c.withContext interned.1 :: rest.1, rest.2)

/-- Exchanges the contexts of all entries for the network's canonical instances. -/
def internContexts (s : ConfigSet) (n : Network) (supply : Supply) : ConfigSet × Network × Supply :=
  let interned := internAll s.configs n supply
  ({ s with configs := interned.1 }, interned.2)

theorem refusal?_of_not_outermost {s : ConfigSet} (h : s.outermost = false) (c : Config) :
    s.refusal? c = none := by
  simp [refusal?, h]

theorem remove_eq_error_iff {s : ConfigSet} {index : Nat} {e : ConfigSet.Error} :
    s.remove index = .error e ↔ s.size ≤ index ∧ e = .indexOutOfBounds index s.size := by
  unfold remove
  split
  · rename_i missing
    have beyond := List.getElem?_eq_none_iff.1 missing
    simp [beyond, eq_comm]
  · rename_i c present
    obtain ⟨within, -⟩ := List.getElem?_eq_some_iff.1 present
    simp only [reduceCtorEq, ConfigContents.size_eq, false_iff, not_and]
    omega

theorem configs_of_remove {s later : ConfigSet} {index : Nat} {c : Config}
    (removed : s.remove index = .ok (c, later)) :
    s.configs[index]? = some c ∧ later.configs = s.configs.eraseIdx index := by
  unfold remove at removed
  split at removed
  · exact absurd removed (by simp)
  · obtain ⟨rfl, rfl⟩ := Prod.mk.inj (Except.ok.inj removed)
    exact ⟨‹_›, rfl⟩

theorem configs_dropHidden (s : ConfigSet) :
    s.dropHidden.configs = s.configs.filter fun c => !c.hidden := by
  unfold dropHidden
  split
  · rfl
  · rename_i visible
    symm
    simpa using visible

end ConfigSet

end Prediction
