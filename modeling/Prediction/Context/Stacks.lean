import Prediction.Context.Basic

/-!
The stacks of return states that a context stands for. The outermost context stands for the empty
stack, the wildcard for every stack, and a node for the stacks of its parents with the return state
pushed on top.
-/

namespace Prediction.Context

mutual

/-- A thread with this context may return through exactly this stack, listed from the top. -/
def Allows : Context → List Nat → Prop
  | .outermostAt _, stack => stack = []
  | .wildcardAt _, _ => True
  | .node _ _ ps, stack => AllowsSome ps stack
termination_by structural c => c

/-- One of the paths allows the stack. The path to the outermost context pushes nothing. -/
def AllowsSome : List Path → List Nat → Prop
  | [], _ => False
  | (k, p) :: ps, stack =>
    (if k = outermostKey then stack = []
      else ∃ below, stack = k.toNat :: below ∧ Allows p below) ∨ AllowsSome ps stack
termination_by structural ps => ps

end

end Prediction.Context
