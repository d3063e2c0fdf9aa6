import Prediction.Context.Basic

/-!
Building contexts. A node always has a path, and one path to the outermost context alone is that
context itself. Lists of paths are given in strictly ascending order of their return states.
-/

namespace Prediction

/-- A new node with the given paths. -/
def Supply.node (s : Supply) (ps : List Path) : Context × Supply :=
  (.node s.next (s.rule.ofPaths (ps.map fun p => (p.1, p.2.digest s.rule))) ps, s.fresh.2)

namespace Context

/-- Another instance of a context, over the same parents. -/
def copy (c : Context) (s : Supply) : Context × Supply :=
  match c with
  | .outermostAt _ => (.outermostAt s.next, s.fresh.2)
  | .wildcardAt _ => (.wildcardAt s.next, s.fresh.2)
  | .node _ d ps => (.node s.next d ps, s.fresh.2)

/-- Push a return state. -/
def push (c : Context) (k : ReturnState) (s : Supply) : Context × Supply :=
  if k = outermostKey then (.outermost, s) else s.node [(k, c)]

/-- Push a stack of return states, the last one first. -/
def pushAll (c : Context) (stack : List ReturnState) (s : Supply) : Context × Supply :=
  stack.foldr (fun k built => built.1.push k built.2) (c, s)

def ofPaths (ps : List Path) (s : Supply) : Context × Supply :=
  match ps with
  | [] => (.outermost, s)
  | [(k, p)] => p.push k s
  | ps => s.node ps

/-- Why lists of parents and return states do not describe a context. -/
inductive BuildError where
  | unequalLengths
  | notAscending
deriving DecidableEq

def BuildError.message : BuildError → String
  | .unequalLengths =>
    "assertion `left == right` failed: every return state needs exactly one parent"
  | .notAscending => "assertion failed: return_states.windows(2).all(|w| w[0] < w[1])"

def strictlyAscending : List ReturnState → Bool
  | k :: k' :: ks => k < k' && strictlyAscending (k' :: ks)
  | _ => true

/-- Lengths are compared before the order is. -/
def ofParts (parents : List Context) (returnStates : List ReturnState) (s : Supply) :
    Except BuildError (Context × Supply) :=
  if parents.length ≠ returnStates.length then .error .unequalLengths
  else if ¬ strictlyAscending returnStates then .error .notAscending
  else .ok (ofPaths (returnStates.zip parents) s)

/-- Make the outermost context one of the continuations. -/
def addOutermost (c : Context) (s : Supply) : Context × Supply :=
  if c.hasOutermost then (c, s) else ofPaths (c.paths ++ [(outermostKey, .outermost)]) s

theorem strictlyAscending_iff (ks : List ReturnState) :
    strictlyAscending ks = true ↔ ks.Pairwise (· < ·) := by
  induction ks with
  | nil => simp [strictlyAscending]
  | cons k ks ih =>
    cases ks with
    | nil => simp [strictlyAscending]
    | cons k' ks =>
      simp only [strictlyAscending, Bool.and_eq_true, decide_eq_true_eq, ih]
      constructor
      · rintro ⟨below, rest⟩
        refine List.pairwise_cons.2 ⟨?_, rest⟩
        intro j hj
        rcases List.mem_cons.1 hj with rfl | hj
        · exact below
        · exact UInt32.lt_trans below ((List.pairwise_cons.1 rest).1 j hj)
      · intro h
        exact ⟨(List.pairwise_cons.1 h).1 k' (by simp), (List.pairwise_cons.1 h).2⟩

end Context

end Prediction
