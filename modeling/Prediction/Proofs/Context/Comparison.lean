import Prediction.Context.Basic

/-!
Comparing contexts, with all shortcuts in the order in which they are taken: one instance is equal
to itself, contexts with different digests are told apart, and only then contents are compared, with
the same shortcuts for the parents.
-/

namespace Prediction.Context

/-- The same instance, or an equal one. -/
def same (a b : Context) : Bool :=
  a.identical b || a.equal b

/-- Whether two contexts are of one kind, with the same return states over the same parents. -/
def sameContent : Context → Context → Bool
  | .outermostAt _, .outermostAt _ => true
  | .wildcardAt _, .wildcardAt _ => true
  | .node _ _ ps, .node _ _ qs =>
    ps.map (·.1) == qs.map (·.1) && (ps.zip qs).all fun pair => pair.1.2.same pair.2.2
  | _, _ => false

/-- Instances are compared first, digests next, and contents last. -/
def compare (rule : DigestRule) (a b : Context) : Bool :=
  if a.identical b then true
  else if a.digest rule != b.digest rule then false
  else a.sameContent b

theorem same_eq_equal (a b : Context) : a.same b = a.equal b := by
  cases one : a.identical b with
  | true => simp [same, one, equal_of_identical one]
  | false => simp [same, one]

/-- Return states and parents may be compared apart, since no row is cut short. -/
theorem equalPaths_eq (ps qs : List Path) :
    equalPaths ps qs = (ps.map (·.1) == qs.map (·.1) &&
      (ps.zip qs).all fun pair => pair.1.2.same pair.2.2) := by
  induction ps generalizing qs with
  | nil => cases qs <;> rfl
  | cons path ps ih =>
    cases qs with
    | nil => rfl
    | cons other qs =>
      rw [equalPaths, ih qs, List.map_cons, List.map_cons, List.zip_cons_cons, List.all_cons,
        same_eq_equal, List.cons_beq_cons]
      grind

/-- Comparing contexts is one such comparison, whose parents are compared in the same way. -/
theorem equal_eq_compare (rule : DigestRule) (a b : Context) :
    a.equal b = a.compare rule b := by
  cases a with
  | node l d ps =>
    cases b with
    | node l' d' qs =>
      simp only [equal, compare, identical, sameContent, digest, equalPaths_eq]
      grind
    | _ => simp [equal, compare, identical, sameContent]
  | _ => cases b <;> simp [equal, compare, identical, sameContent, digest]

end Prediction.Context
