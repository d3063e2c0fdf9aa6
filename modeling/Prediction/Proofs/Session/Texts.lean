import Prediction.Proofs.Context.Text
import Prediction.Proofs.Session.Refinement

/-!
Texts of contexts in sessions. Comparing the texts of two contexts in proper form is comparing the
contexts, so that a client may tell contexts apart by what is printed of them.
-/

namespace Prediction.Session

/-- For all contexts of every session that a program leads to. A path that is marked as the one to
the outermost context is printed without its parent, which is why that parent has to be the
outermost context. -/
theorem texts_equal_iff (rule : DigestRule) (program : List Command) (i k : Nat)
    (left : ((reached rule program).contexts i).Proper)
    (right : ((reached rule program).contexts k).Proper) :
    let s := reached rule program
    (s.contexts i).text = (s.contexts k).text ↔ (s.contexts i).equal (s.contexts k) = true := by
  intro s
  obtain ⟨known, sound⟩ := sound_reached rule program
  have coherent := sound.coherent
  have legible : (s.contexts i).Legible := ⟨coherent.canonical (sound.contexts i), left⟩
  have legible' : (s.contexts k).Legible := ⟨coherent.canonical (sound.contexts k), right⟩
  rw [Context.text_eq_iff legible legible',
    coherent.equal_iff (sound.contexts i) (sound.contexts k)]

/-- The callers 2 and 3 below the caller 1, and the outermost context; built in one go, and by
pushing first and making the result optional afterwards. -/
def optionalNesting : List Command :=
  [.context 3 (.ofParts [0, 0] [2, 3]), .context 4 (.ofParts [3, 0] [1, outermostKey]),
    .context 5 (.push 3 1), .context 6 (.addOutermost 5)]

theorem texts_equal_iff_optionalNesting :
    let s := reached .sha256 optionalNesting
    (s.contexts 4).Proper ∧ (s.contexts 6).Proper ∧ (s.contexts 4).text = "[1 [2, 3], $]" ∧
      ((s.contexts 4).text = (s.contexts 6).text ↔ (s.contexts 4).equal (s.contexts 6) = true) := by
  intro s
  have callers : Tree.Proper (.node [(2, .outermost), (3, .outermost)]) :=
    .node (by simp) (by simpa using .outermost)
  have proper : Tree.Proper (.node [(1, .node [(2, .outermost), (3, .outermost)]),
      (outermostKey, .outermost)]) :=
    .node (by simp [outermostKey]) (by simpa using ⟨callers, .outermost⟩)
  have printed : (s.contexts 4).text = "[1 [2, 3], $]" := by decide +kernel
  exact ⟨proper, proper, printed, texts_equal_iff .sha256 optionalNesting 4 6 proper proper⟩

end Prediction.Session
