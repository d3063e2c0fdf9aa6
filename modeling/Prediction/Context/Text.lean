import Prediction.Context.Basic

/-!
The text of a context. A stack lists its return states from the top, an outermost context below a
return state is left out, and several paths stand in brackets.
-/

namespace Prediction.Context

/-- One path, given the text of its parent. -/
def pathText (k : ReturnState) (parent : Context) (parentText : String) : String :=
  if k = outermostKey then "$"
  else if parent.isOutermost then toString k
  else toString k ++ " " ++ parentText

def bracketed : List String → String
  | [path] => path
  | paths => "[" ++ ", ".intercalate paths ++ "]"

mutual

def text : Context → String
  | .outermostAt _ => "$"
  | .wildcardAt _ => "*"
  | .node _ _ ps => bracketed (pathTexts ps)
termination_by structural c => c

def pathTexts : List Path → List String
  | [] => []
  | (k, p) :: ps => pathText k p (text p) :: pathTexts ps
termination_by structural ps => ps

end

instance : ToString Context := ⟨text⟩

end Prediction.Context
