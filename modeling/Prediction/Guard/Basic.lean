/-!
Guards of configurations: predicates and precedence tests combined by conjunction and disjunction.
Guards are compared by structure. `and` and `or` flatten one level and drop repeated operands, so
that equal conditions tend to be written in one way.
-/

namespace Prediction

inductive Guard where
  | always
  | predicate (rule index : UInt32) (contextDependent : Bool)
  | precedence (level : Int32)
  | all (operands : List Guard)
  | any (operands : List Guard)

namespace Guard

mutual

def sameAs : Guard → Guard → Bool
  | .always, .always => true
  | .predicate r i d, .predicate r' i' d' => r == r' && i == i' && d == d'
  | .precedence n, .precedence n' => n == n'
  | .all gs, .all hs => sameList gs hs
  | .any gs, .any hs => sameList gs hs
  | _, _ => false
termination_by structural g => g

def sameList : List Guard → List Guard → Bool
  | [], [] => true
  | g :: gs, h :: hs => sameAs g h && sameList gs hs
  | _, _ => false
termination_by structural gs => gs

end

mutual

theorem sameAs_self : ∀ g : Guard, sameAs g g = true
  | .always => rfl
  | .predicate .. => by simp [sameAs]
  | .precedence _ => by simp [sameAs]
  | .all gs => by simpa [sameAs] using sameList_self gs
  | .any gs => by simpa [sameAs] using sameList_self gs

theorem sameList_self : ∀ gs : List Guard, sameList gs gs = true
  | [] => rfl
  | g :: gs => by simp [sameList, sameAs_self g, sameList_self gs]

end

mutual

theorem eq_of_sameAs : ∀ {g h : Guard}, sameAs g h = true → g = h
  | .always, .always, _ => rfl
  | .predicate .., .predicate .., same => by simpa [sameAs, and_assoc] using same
  | .precedence _, .precedence _, same => by simpa [sameAs] using same
  | .all _, .all _, same => congrArg Guard.all (eq_of_sameList (by simpa [sameAs] using same))
  | .any _, .any _, same => congrArg Guard.any (eq_of_sameList (by simpa [sameAs] using same))

theorem eq_of_sameList : ∀ {gs hs : List Guard}, sameList gs hs = true → gs = hs
  | [], [], _ => rfl
  | _ :: _, _ :: _, same => by
    simp only [sameList, Bool.and_eq_true] at same
    rw [eq_of_sameAs same.1, eq_of_sameList same.2]

end

instance : DecidableEq Guard := fun g h =>
  decidable_of_iff (sameAs g h = true) ⟨eq_of_sameAs, fun same => same ▸ sameAs_self g⟩

def isAlways : Guard → Bool
  | .always => true
  | _ => false

@[simp] theorem isAlways_iff {g : Guard} : g.isAlways = true ↔ g = .always := by
  cases g <;> simp [isAlways]

/-- What a conjunction takes over from one of its sides. -/
def conjuncts : Guard → List Guard
  | .all gs => gs
  | g => [g]

/-- What a disjunction takes over from one of its sides. -/
def disjuncts : Guard → List Guard
  | .any gs => gs
  | g => [g]

def and (left right : Guard) : Guard :=
  if left.isAlways then right
  else if right.isAlways || left = right then left
  else .all (left.conjuncts ++ right.conjuncts).eraseDups

def or (left right : Guard) : Guard :=
  if left.isAlways || right.isAlways then .always
  else if left = right then left
  else .any (left.disjuncts ++ right.disjuncts).eraseDups

mutual

/-- Operands are joined without parentheses. -/
def text : Guard → String
  | .always => "\x7btrue\x7d?"
  | .predicate r i d =>
    "\x7b" ++ toString r ++ ":" ++ toString i ++ "\x7d?" ++ (if d then "@" else "")
  | .precedence n => "\x7b" ++ toString n ++ ">=prec\x7d?"
  | .all gs => "&&".intercalate (texts gs)
  | .any gs => "||".intercalate (texts gs)
termination_by structural g => g

def texts : List Guard → List String
  | [] => []
  | g :: gs => text g :: texts gs
termination_by structural gs => gs

end

instance : ToString Guard := ⟨text⟩

end Guard

end Prediction
