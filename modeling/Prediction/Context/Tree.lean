import Prediction.Context.Build

/-!
Contexts by value. The tree of a context forgets labels and digests, so that contexts built apart
from one another can be compared; building a context from contexts depends on their trees alone.
-/

namespace Prediction

inductive Tree where
  | outermost
  | wildcard
  | node (paths : List (ReturnState × Tree))

namespace Context

mutual

def tree : Context → Tree
  | .outermostAt _ => .outermost
  | .wildcardAt _ => .wildcard
  | .node _ _ ps => .node (treePaths ps)
termination_by structural c => c

def treePaths : List Path → List (ReturnState × Tree)
  | [] => []
  | (k, p) :: ps => (k, tree p) :: treePaths ps
termination_by structural ps => ps

end

theorem isOutermost_iff_tree {c : Context} : c.isOutermost = true ↔ c.tree = .outermost := by
  cases c <;> simp [isOutermost, tree]

theorem treePaths_eq_map (ps : List Path) : treePaths ps = ps.map fun p => (p.1, p.2.tree) := by
  induction ps with
  | nil => rfl
  | cons p ps ih => simp [treePaths, ih]

@[simp] theorem treePaths_append (ps qs : List Path) :
    treePaths (ps ++ qs) = treePaths ps ++ treePaths qs := by
  simp [treePaths_eq_map]

end Context

end Prediction
