import Prediction.Proofs.Context.Join
import Prediction.Proofs.Tree.Stacks

/-!
Contexts and the stacks they stand for. Covering, which is decided on rows of paths without building
anything, is the same as a join that changes nothing; for contexts in proper form it is inclusion of
stacks.
-/

namespace Prediction.Context

/-- Every path marked as the one to the outermost context has that context as its parent. -/
def Proper (c : Context) : Prop := c.tree.Proper

variable {known : Set Context} {s : Supply} {j : Joiner} {a b : Context} {ps qs : List Path}

theorem coversPaths_iff
    (parents : ∀ path ∈ ps, ∀ c ∈ known,
      path.2.covers c = true ↔ path.2.tree.join c.tree = path.2.tree)
    (right : ∀ path ∈ qs, path.2 ∈ known) :
    coversPaths ps qs = true ↔ Tree.merge (treePaths ps) (treePaths qs) = treePaths ps := by
  induction ps, qs using Tree.merge_induction with
  | left qs => cases qs <;> simp [coversPaths, treePaths]
  | right ps => cases ps <;> simp [coversPaths, treePaths]
  | below k p ps k' q qs smaller ih =>
    have different : k ≠ k' := by grind
    have notAbove : ¬ k' < k := by grind
    have rest := ih (List.forall_mem_cons.mp parents).2 right
    simp only [treePaths] at rest
    simp only [coversPaths, notAbove, different, if_false, treePaths, Tree.merge_below smaller,
      rest, List.cons.injEq, true_and]
  | equal k p ps q qs ih =>
    have irreflexive : ¬ k < k := by grind
    obtain ⟨firstRight, restRight⟩ := List.forall_mem_cons.mp right
    have first := (List.forall_mem_cons.mp parents).1 q firstRight
    have rest := ih (List.forall_mem_cons.mp parents).2 restRight
    simp only [coversPaths, irreflexive, if_false, if_true, Bool.and_eq_true, treePaths,
      Tree.merge_equal, first, rest, List.cons.injEq, Prod.mk.injEq, true_and]
  | above k p ps k' q qs larger ih =>
    have different : k' ≠ k := by grind
    simp [coversPaths, larger, treePaths, Tree.merge_above larger, different]

/-- Covering says that joining the other context in would change nothing. -/
theorem covers_iff_join_tree (coherent : Coherent s known) (left : a ∈ known) (right : b ∈ known) :
    a.covers b = true ↔ a.tree.join b.tree = a.tree := by
  induction a generalizing b with
  | outermostAt => cases b <;> simp [covers, isOutermost, tree, Tree.join, Tree.addOutermost]
  | wildcardAt => simp [covers, tree, Tree.join]
  | node l d ps ih =>
    have same := coherent.equal_iff left right
    cases b with
    | outermostAt =>
      rw [covers, Bool.or_eq_true, same, hasOutermost_iff]
      simp [tree, Tree.join]
    | wildcardAt =>
      rw [covers, Bool.or_eq_true, same]
      simp [tree, Tree.join]
    | node l' d' qs =>
      have rows : coversPaths ps qs = true ↔
          Tree.merge (treePaths ps) (treePaths qs) = treePaths ps := coversPaths_iff
        (fun path inRow c present => ih path inRow (coherent.parent left inRow) present)
        fun path inRow => coherent.parent right inRow
      rw [covers, Bool.or_eq_true, same, rows]
      simp only [tree, Tree.join, Tree.node.injEq]
      constructor
      · rintro (equal | merged)
        · rw [← equal, Tree.merge_self fun path _ => Tree.join_self path.2]
        · exact merged
      · exact .inr

theorem covers_eq (coherent : Coherent s known) (left : a ∈ known) (right : b ∈ known) :
    a.covers b = a.tree.covers b.tree := by
  rw [Bool.eq_iff_iff, covers_iff_join_tree coherent left right, Tree.covers, decide_eq_true_eq]

/-- Whatever the join works with, covering can be read off its result. -/
theorem covers_iff_join (sound : j.Sound known) (left : a ∈ known) (right : b ∈ known) :
    a.covers b = true ↔ (a.join b j).1.equal a = true := by
  obtain ⟨wider, included, sound', present, value⟩ := (joinable a sound left right).1
  rw [covers_iff_join_tree sound.coherent left right,
    sound'.coherent.equal_iff present (included left), value]

/-- What has the value of a join allows the stacks of both operands. -/
theorem allows_of_joins (coherent : Coherent s known) (left : a ∈ known) (right : b ∈ known)
    {joined : Context × Joiner} (joins : Joins known (a.tree.join b.tree) joined)
    (stack : List Nat) : joined.1.Allows stack ↔ a.Allows stack ∨ b.Allows stack := by
  obtain ⟨wider, -, -, -, value⟩ := joins
  rw [← allows_tree, value,
    Tree.allows_join (coherent.canonical left) (coherent.canonical right), allows_tree, allows_tree]

theorem covers_iff_allows (coherent : Coherent s known) (left : a ∈ known) (right : b ∈ known)
    (leftProper : a.Proper) (rightProper : b.Proper) :
    a.covers b = true ↔ ∀ stack, b.Allows stack → a.Allows stack := by
  rw [covers_eq coherent left right, Tree.covers_iff_allows (coherent.canonical left)
    (coherent.canonical right) leftProper rightProper]
  simp only [allows_tree]

end Prediction.Context
