import Prediction.Guard.Basic

/-!
The truth of guards under an assignment of truth values to predicates and precedence tests.
-/

namespace Prediction.Guard

structure Assignment where
  predicate : UInt32 → UInt32 → Bool → Bool
  precedence : Int32 → Bool

variable (v : Assignment)

mutual

def holds : Guard → Bool
  | .always => true
  | .predicate r i d => v.predicate r i d
  | .precedence n => v.precedence n
  | .all gs => allHold gs
  | .any gs => anyHolds gs
termination_by structural g => g

def allHold : List Guard → Bool
  | [] => true
  | g :: gs => holds g && allHold gs
termination_by structural gs => gs

def anyHolds : List Guard → Bool
  | [] => false
  | g :: gs => holds g || anyHolds gs
termination_by structural gs => gs

end

variable {v}

theorem allHold_iff {gs : List Guard} : allHold v gs = true ↔ ∀ g ∈ gs, holds v g = true := by
  induction gs with
  | nil => simp [allHold]
  | cons g gs ih => simp [allHold, ih]

theorem anyHolds_iff {gs : List Guard} : anyHolds v gs = true ↔ ∃ g ∈ gs, holds v g = true := by
  induction gs with
  | nil => simp [anyHolds]
  | cons g gs ih => simp [anyHolds, ih]

theorem forall_conjuncts_iff {g : Guard} :
    (∀ h ∈ g.conjuncts, holds v h = true) ↔ holds v g = true := by
  cases g <;> simp [conjuncts, holds, allHold_iff]

theorem exists_disjuncts_iff {g : Guard} :
    (∃ h ∈ g.disjuncts, holds v h = true) ↔ holds v g = true := by
  cases g <;> simp [disjuncts, holds, anyHolds_iff]

end Prediction.Guard
