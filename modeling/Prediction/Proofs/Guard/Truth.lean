import Prediction.Guard.Truth

/-!
Simplification keeps the meaning of guards. Flattening one level, dropping repeated operands and the
shortcuts for `always` and for equal sides leave the truth value as it is, under every assignment
and for guards of any shape.
-/

namespace Prediction.Guard

variable {v : Assignment} {l r : Guard}

theorem holds_and : holds v (l.and r) = true ↔ holds v l = true ∧ holds v r = true := by
  unfold and
  split
  · rename_i trivial
    rw [isAlways_iff.mp trivial]
    simp [holds]
  · split
    · rename_i trivialOrSame
      rw [Bool.or_eq_true, isAlways_iff, decide_eq_true_eq] at trivialOrSame
      rcases trivialOrSame with rfl | rfl <;> simp [holds]
    · rw [holds, allHold_iff, ← forall_conjuncts_iff, ← forall_conjuncts_iff]
      simp only [List.mem_eraseDups, List.forall_mem_append]

theorem holds_or : holds v (l.or r) = true ↔ holds v l = true ∨ holds v r = true := by
  unfold or
  split
  · rename_i trivial
    rw [Bool.or_eq_true, isAlways_iff, isAlways_iff] at trivial
    rcases trivial with rfl | rfl <;> simp [holds]
  · split
    · rename_i same
      rw [same, or_self]
    · rw [holds, anyHolds_iff, ← exists_disjuncts_iff, ← exists_disjuncts_iff]
      simp only [List.mem_eraseDups, List.mem_append, or_and_right, exists_or]

/-- Whatever the two guards are: built by simplification or not, with `always` or no operands
inside. -/
theorem combined_holds_iff (v : Assignment) (l r : Guard) :
    (holds v (l.and r) = true ↔ holds v l = true ∧ holds v r = true) ∧
      (holds v (l.or r) = true ↔ holds v l = true ∨ holds v r = true) :=
  ⟨holds_and, holds_or⟩

end Prediction.Guard
