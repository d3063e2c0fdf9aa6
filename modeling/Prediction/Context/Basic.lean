import Prediction.Supply

/-!
Contexts: what is left to do once the current rule of a parse thread finishes. A context is the
outermost one (nothing is left), the wildcard (any caller may follow), or a node with one path or
more, each a return state over a parent context. Contexts are shared freely, so a context is a graph
written as a tree whose nodes carry labels.
-/

namespace Prediction

inductive Context where
  | outermostAt (label : Label)
  | wildcardAt (label : Label)
  | node (label : Label) (digest : Digest) (paths : List (ReturnState × Context))

/-- One way to continue: where to resume, and what to do after that. -/
abbrev Path := ReturnState × Context

/-- Marks the path to the outermost context among the paths of a node. Being the largest return
state, it comes last. -/
def outermostKey : ReturnState := 0xFFFFFFFF

namespace Context

/-- The outermost context that all supplies share. Other instances of it are copies. -/
abbrev outermost : Context := .outermostAt Supply.reserved

/-- The wildcard that all supplies share. -/
abbrev wildcard : Context := .wildcardAt Supply.reserved

def paths : Context → List Path
  | .node _ _ ps => ps
  | _ => []

def size (c : Context) : Nat := c.paths.length

def isOutermost : Context → Bool
  | .outermostAt _ => true
  | _ => false

def isWildcard : Context → Bool
  | .wildcardAt _ => true
  | _ => false

def isEmpty (c : Context) : Bool := c.isOutermost || c.isWildcard

/-- Whether a thread with this context may return to the outermost invocation. -/
def hasOutermost : Context → Bool
  | .node _ _ ps => ps.getLast?.any (·.1 == outermostKey)
  | _ => true

def digest (rule : DigestRule) : Context → Digest
  | .outermostAt _ => rule.outermost
  | .wildcardAt _ => rule.wildcard
  | .node _ d _ => d

/-- The same instance. -/
def identical : Context → Context → Bool
  | .outermostAt l, .outermostAt l' => l == l'
  | .wildcardAt l, .wildcardAt l' => l == l'
  | .node l _ _, .node l' _ _ => l == l'
  | _, _ => false

mutual

/-- Equality of what two contexts stand for, node by node: nodes of one label are equal at once, and
nodes with different digests are told apart at once. -/
def equal : Context → Context → Bool
  | .outermostAt _, .outermostAt _ => true
  | .wildcardAt _, .wildcardAt _ => true
  | .node l d ps, .node l' d' qs => l == l' || (d == d' && equalPaths ps qs)
  | _, _ => false
termination_by structural c => c

def equalPaths : List Path → List Path → Bool
  | [], [] => true
  | (k, p) :: ps, (k', q) :: qs => k == k' && equal p q && equalPaths ps qs
  | _, _ => false
termination_by structural ps => ps

end

/-- Why a path cannot be read. -/
inductive PathError where
  | noSuchPath (index : Nat)
  | beyondPaths (size index : Nat)
deriving DecidableEq

def PathError.message : PathError → String
  | .noSuchPath i => "context path index " ++ toString i ++ " out of bounds"
  | .beyondPaths n i =>
    "index out of bounds: the len is " ++ toString n ++ " but the index is " ++ toString i

/-- The path at a position. Only a context with several paths reports how many it has. -/
def path (c : Context) (index : Nat) : Except PathError Path :=
  match c.paths[index]? with
  | some p => .ok p
  | none => .error (if c.size ≤ 1 then .noSuchPath index else .beyondPaths c.size index)

theorem path_eq_ok_iff {c : Context} {index : Nat} {p : Path} :
    c.path index = .ok p ↔ c.paths[index]? = some p := by
  unfold path
  split <;> simp_all

theorem path_isOk_iff {c : Context} {index : Nat} :
    (∃ p, c.path index = .ok p) ↔ index < c.size := by
  simp only [path_eq_ok_iff, size, ← Option.isSome_iff_exists]
  simp

@[simp] theorem identical_self (c : Context) : c.identical c = true := by
  cases c <;> simp [identical]

theorem equal_of_identical {a b : Context} (h : a.identical b = true) : a.equal b = true := by
  cases a <;> cases b <;> simp_all [identical, equal]

end Context

end Prediction
