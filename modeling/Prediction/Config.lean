import Prediction.Alternatives.Basic
import Prediction.Context.Join
import Prediction.Context.Text
import Prediction.Guard.Basic
import Prediction.Network.Basic

/-!
Configurations: one live parse thread during a prediction. It has a state of the network, the
alternative it argues for, a context and a guard. Configurations of one key and one guard may be
merged.
-/

namespace Prediction

structure Config.Key where
  state : StateId
  alt : Alternative
deriving DecidableEq

/-- Keys are ordered by state first. -/
def Config.Key.compare (a b : Config.Key) : Ordering :=
  (Ord.compare a.state b.state).then (Ord.compare a.alt b.alt)

structure Config where
  state : StateId
  alt : Alternative
  context : Context
  guard : Guard
  /-- How many rules above the start of the prediction the thread has returned to. -/
  depth : UInt32
  reachesOuter : Bool
  /-- Only there to evaluate predicates during lookahead. -/
  hidden : Bool
  /-- Exempt from precedence filtering. -/
  suppressed : Bool

namespace Config

/-- Zero is no alternative. -/
inductive NewError where
  | zeroAlternative
deriving DecidableEq

def NewError.message : NewError → String
  | .zeroAlternative => "alternative numbers start at 1"

def new (state : StateId) (alt : Alternative) (context : Context) : Except NewError Config :=
  if alt = 0 then .error .zeroAlternative
  else .ok ⟨state, alt, context, .always, 0, false, false, false⟩

def withGuard (c : Config) (guard : Guard) : Config := { c with guard }

/-- A positive depth means that the outer context was reached. -/
def withDepth (c : Config) (depth : UInt32) : Config :=
  { c with depth, reachesOuter := c.reachesOuter || 0 < depth }

def withReachesOuter (c : Config) (reachesOuter : Bool) : Config := { c with reachesOuter }

def hide (c : Config) : Config := { c with hidden := true }

def withSuppressed (c : Config) (suppressed : Bool) : Config := { c with suppressed }

def withContext (c : Config) (context : Context) : Config := { c with context }

/-- The thread after a move to another state. -/
def transition (c : Config) (state : StateId) (context : Context) : Config :=
  { c with state, context }

def key (c : Config) : Config.Key := ⟨c.state, c.alt⟩

def mergesWith (c other : Config) : Bool :=
  c.key = other.key && c.guard = other.guard

/-- Everything the other thread may do, this one may do as well. -/
def covers (c other : Config) : Bool :=
  c.mergesWith other && c.context.covers other.context

/-- Takes over what a merge keeps apart from contexts. -/
def absorb (c other : Config) : Config :=
  { c with
    depth := max c.depth other.depth
    suppressed := c.suppressed || other.suppressed }

/-- Equality, contexts by value. The depth does not matter. -/
def equal (c other : Config) : Bool :=
  c.state == other.state && c.alt == other.alt && c.reachesOuter == other.reachesOuter &&
    c.hidden == other.hidden && c.suppressed == other.suppressed &&
    c.context.equal other.context && c.guard = other.guard

/-- What a hash of a configuration is computed from. -/
structure Fingerprint where
  state : StateId
  alt : Alternative
  reachesOuter : Bool
  hidden : Bool
  context : Digest
  guard : Guard
deriving DecidableEq

def fingerprint (rule : DigestRule) (c : Config) : Fingerprint :=
  ⟨c.state, c.alt, c.reachesOuter, c.hidden, c.context.digest rule, c.guard⟩

/-- The text with or without the context. -/
def textWith (showContext : Bool) (c : Config) : String :=
  "(" ++ toString c.state ++ "," ++ toString c.alt ++
    (if showContext then ",[" ++ c.context.text ++ "]" else "") ++
    (if c.guard.isAlways then "" else "," ++ c.guard.text) ++
    (if c.reachesOuter then ",up=" ++ toString c.depth else "") ++
    (if c.hidden then ",hidden" else "") ++ ")"

instance : ToString Config := ⟨textWith false⟩

theorem new_eq_error_iff {state : StateId} {alt : Alternative} {context : Context} :
    new state alt context = .error .zeroAlternative ↔ alt = 0 := by
  unfold new
  split <;> simp_all

theorem mergesWith_iff {c other : Config} :
    c.mergesWith other = true ↔ c.key = other.key ∧ c.guard = other.guard := by
  simp [mergesWith]

@[simp] theorem mergesWith_self (c : Config) : c.mergesWith c = true :=
  mergesWith_iff.2 ⟨rfl, rfl⟩

theorem mergesWith_comm (c other : Config) : c.mergesWith other = other.mergesWith c := by
  rw [Bool.eq_iff_iff, mergesWith_iff, mergesWith_iff, eq_comm, @eq_comm _ c.guard]

end Config

end Prediction
