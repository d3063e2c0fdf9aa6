import Prediction.Context.Table

/-!
Transition networks, as far as predictions need them: states numbered in the order they were added,
and a table of the contexts interned so far.
-/

namespace Prediction

/-- The number of a state. -/
abbrev StateId := UInt32

namespace Network

inductive StateKind where
  | basic
  | ruleStart
  | ruleStop
  | blockStart
  | blockEnd
  | starLoopEntry
  | plusLoopBack
  | loopEnd
deriving DecidableEq

/-- Whether a prediction is made in states of this kind. -/
def StateKind.isDecision : StateKind → Bool
  | .blockStart | .starLoopEntry | .plusLoopBack => true
  | _ => false

structure State where
  id : StateId
  kind : StateKind
  rule : UInt32
deriving DecidableEq

end Network

structure Network where
  states : Array Network.State
  interned : Context.Table

namespace Network

/-- Every state number is taken. -/
inductive FullError where
  | full
deriving DecidableEq

def FullError.message : FullError → String
  | .full => "every state number is taken"

def empty : Network := ⟨#[], .empty⟩

def size (n : Network) : Nat := n.states.size

def isEmpty (n : Network) : Bool := n.states.isEmpty

/-- The number of states so far becomes the new state's number. -/
def addState (n : Network) (kind : StateKind) (rule : UInt32) :
    Except FullError (StateId × Network) :=
  if n.states.size < UInt32.size then
    let id := UInt32.ofNat n.states.size
    .ok (id, { n with states := n.states.push ⟨id, kind, rule⟩ })
  else .error .full

def state? (n : Network) (id : StateId) : Option State :=
  n.states[id.toNat]?

/-- Number of contexts on record. -/
def internedCount (n : Network) : Nat := n.interned.size

def text (n : Network) : String :=
  "Atn \x7b states: " ++ toString n.size ++
    ", interned_contexts: " ++ toString n.internedCount ++ " \x7d"

instance : ToString Network := ⟨text⟩

theorem addState_eq_error_iff {n : Network} {kind : StateKind} {rule : UInt32} :
    n.addState kind rule = .error .full ↔ UInt32.size ≤ n.size := by
  unfold addState size
  split <;> simp <;> omega

end Network

end Prediction
