import Prediction.Context.Basic

/-!
A context as the graph of its nodes. Instances are listed once each, in preorder of the first
visit, paths in order.
-/

namespace Prediction.Context

mutual

/-- Adds the instances below a context to those already seen, the latest first. -/
def visit : Context → List Context → List Context
  | c@(.node _ _ ps), seen =>
    if seen.any (·.identical c) then seen else visitPaths ps (c :: seen)
  | c, seen => if seen.any (·.identical c) then seen else c :: seen
termination_by structural c => c

def visitPaths : List Path → List Context → List Context
  | [], seen => seen
  | (_, p) :: ps, seen => visitPaths ps (visit p seen)
termination_by structural ps => ps

end

/-- The instances that a context reaches, itself first. -/
def nodes (c : Context) : List Context :=
  (c.visit []).reverse

def nodeCount (c : Context) : Nat :=
  c.nodes.length

/-- A node of the graph, its parents named by their positions. -/
inductive GraphNode where
  | outermost
  | wildcard
  | paths (edges : List (ReturnState × Nat))

def graph (c : Context) : List GraphNode :=
  let listed := c.nodes
  listed.map fun
    | .outermostAt _ => .outermost
    | .wildcardAt _ => .wildcard
    | .node _ _ ps => .paths (ps.map fun p => (p.1, listed.findIdx (·.identical p.2)))

theorem length_graph (c : Context) : c.graph.length = c.nodeCount := by
  simp [graph, nodeCount]

end Prediction.Context
