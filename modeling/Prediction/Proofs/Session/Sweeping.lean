import Prediction.Proofs.ConfigSet.Sweeping
import Prediction.Proofs.Session.Refinement

/-!
Dropping the hidden entries of a set of a session, at once and one by one.
-/

namespace Prediction.Session

/-- Whatever a program has done to a set, dropping its hidden entries leaves the set that a cursor
leaves which removes every hidden entry it meets, and that removing the hidden entries from the last
to the first leaves; and there is nothing more to drop after that. -/
theorem dropHidden_one_by_one (rule : DigestRule) (program : List Command) (i : Nat) :
    let s := (reached rule program).sets i
    s.cursor.sweep.map (·.set) = .ok s.dropHidden ∧
      s.removeAll s.hiddenPositions.reverse = .ok s.dropHidden ∧
      s.dropHidden.dropHidden = s.dropHidden := by
  obtain ⟨known, sound⟩ := sound_reached rule program
  intro s
  have indexed : s.Indexed := sound.indexed i
  have start : ∀ c ∈ s.cursor.set.configs.take s.cursor.next, c.hidden = false := by
    simp [ConfigSet.cursor]
  exact ⟨ConfigSet.Cursor.sweep_hidden indexed start,
    ConfigSet.removeAll_hidden indexed s.listsHidden_hiddenPositions, s.dropHidden_dropHidden⟩

end Prediction.Session
