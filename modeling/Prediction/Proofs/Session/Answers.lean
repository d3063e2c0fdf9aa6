import Prediction.Proofs.ConfigSet.Answers
import Prediction.Proofs.ConfigSet.Changes
import Prediction.Proofs.Session.Refinement

/-!
Asking about configurations in sessions. In every session that a program leads to, a set that
accepts a configuration answers in one way, whether it is asked, searched or added to.
-/

namespace Prediction

theorem ConfigSet.refusal?_eq_none_iff {s : ConfigSet} {c : Config} : s.refusal? c = none ↔
    (s.outermost = true → c.hidden = false ∧ c.reachesOuter = false) :=
  LinearSet.refusal?_eq_none_iff (s := s.linear) (c := c.value)

namespace Session

/-- For every set and every cache, and for every configuration that an outermost set may have if the
set is outermost: it is added, and the answer is the one that goes with what becomes of the set. -/
theorem additions_answer (rule : DigestRule) (program : List Command) (i cache : Nat)
    (draft : Draft) (accepted : ((reached rule program).sets i).outermost = true →
      draft.hidden = false ∧ draft.reachesOuter = false) :
    let s := reached rule program
    let c := draft.config s
    ∃ step, (s.sets i).add c (s.joiner cache) = .ok step ∧
      (s.sets i).Answers c step.changed step.set.toConfigContents := by
  intro s c
  obtain ⟨known, sound⟩ := sound_reached rule program
  have added : (s.sets i).add c (s.joiner cache) = .ok ((s.sets i).insert c (s.joiner cache)) := by
    rw [ConfigSet.add, (ConfigSet.refusal?_eq_none_iff (c := c)).mpr accepted]
  exact ⟨_, added, ConfigSet.answers_insert (sound.indexed i) (sound.joiner cache) (sound.sets i)
    (sound.draft draft)⟩

/-- A thread in an outermost set, and another caller of it. -/
def anotherCaller : List Command :=
  [.edit 0 (.setOutermost true), .context 0 (.push 2 7),
    .edit 0 (.add ⟨5, 1, 0, .always, 0, false, false, false⟩ 0), .context 1 (.push 2 9)]

theorem additions_answer_anotherCaller :
    let s := reached .sha256 anotherCaller
    let c := Draft.config s ⟨5, 1, 1, .always, 0, false, false, true⟩
    ∃ step, (s.sets 0).add c (s.joiner 0) = .ok step ∧
      (s.sets 0).Answers c step.changed step.set.toConfigContents :=
  additions_answer .sha256 anotherCaller 0 0 ⟨5, 1, 1, .always, 0, false, false, true⟩
    fun _ => ⟨rfl, rfl⟩

end Session

end Prediction
