import Prediction.Proofs.ConfigSet.Stripping
import Prediction.Proofs.Session.Additions

/-!
Dropping the hidden entries of a set that was added to. An entry is hidden if the first of the
configurations that were added under its identity was, so that the order of additions decides
whether visible configurations are kept.
-/

namespace Prediction.Session

variable {known : Set Context} {s : Session} {i : Nat}

theorem collects_run (sound : s.Sound known) (new : s.sets i = .empty) (program : List Command)
    (adds : ∀ command ∈ program, command.onlyAdds i = true) :
    ((s.run program).2.linear.sets i).Collects ((s.inserted i program).map Config.value) := by
  have start : s.linear.sets i = .empty := by
    rw [linear_sets, new]
    rfl
  have collects := LinearSet.collects_empty.insertAll (canonical_inserted sound program i)
  rw [← start] at collects
  exact collects.congr (holdings_run sound program adds).entries

/-- A configuration that was added is still covered once hidden entries are dropped, if and only if
the first one that was added under its identity was visible. -/
theorem covered_after_dropHidden_iff (rule : DigestRule) (history program : List Command) (i : Nat)
    (adds : ∀ command ∈ program, command.onlyAdds i = true) {c : Config}
    (added : c ∈ (opening rule history i).inserted i program) :
    (((opening rule history i).run program).2.sets i).dropHidden.contains c = true ↔
      ∃ first, ((opening rule history i).inserted i program).find?
        (·.identity = c.identity) = some first ∧ first.hidden = false := by
  obtain ⟨known, sound⟩ := sound_opening rule history i
  have collects := collects_run sound (sets_opening rule history i) program adds
  obtain ⟨wider, -, later, contexts⟩ := known_inserted sound program i
  have answer := ConfigSet.contains_linear (ConfigSet.indexed_dropHidden (later.indexed i))
    later.coherent (ConfigSet.Known.dropHidden (later.sets i)) (contexts c added)
  have covered := collects.contains_dropHidden_iff (List.mem_map_of_mem added)
  rw [answer, ConfigSet.dropHidden_linear]
  refine covered.trans ?_
  rw [List.find?_map]
  simp only [Option.map_eq_some_iff]
  constructor
  · rintro ⟨_, ⟨first, found, rfl⟩, visible⟩
    exact ⟨first, found, visible⟩
  · rintro ⟨first, found, visible⟩
    exact ⟨first.value, ⟨first, found, rfl⟩, visible⟩

/-- A thread is added, and after that a hidden one of its identity that any caller may follow. -/
def visibleFirst : List Command :=
  [.context 1 .wildcard, .edit 0 (.add ⟨1, 1, 0, .always, 0, false, false, false⟩ 0),
    .edit 0 (.add ⟨1, 1, 1, .always, 0, false, true, false⟩ 0)]

theorem covered_after_dropHidden_visibleFirst :
    (∀ command ∈ visibleFirst, command.onlyAdds 0 = true) ∧
      ∃ c ∈ (opening .sha256 [] 0).inserted 0 visibleFirst,
        (((opening .sha256 [] 0).run visibleFirst).2.sets 0).dropHidden.contains c = true := by
  have adds : ∀ command ∈ visibleFirst, command.onlyAdds 0 = true := by decide
  have added : (⟨1, 1, .outermost, .always, 0, false, false, false⟩ : Config) ∈
      (opening .sha256 [] 0).inserted 0 visibleFirst := List.mem_cons_self
  exact ⟨adds, _, added,
    (covered_after_dropHidden_iff .sha256 [] visibleFirst 0 adds added).mpr ⟨_, rfl, rfl⟩⟩

/-- The hidden thread is added first. -/
def hiddenFirst : List Command :=
  [.edit 0 (.add ⟨1, 1, 0, .always, 0, false, true, false⟩ 0),
    .edit 0 (.add ⟨1, 1, 0, .always, 0, false, false, false⟩ 0)]

/-- Then the visible one is lost. -/
theorem not_covered_after_dropHidden_hiddenFirst :
    ∃ c ∈ (opening .sha256 [] 0).inserted 0 hiddenFirst, c.hidden = false ∧
      (((opening .sha256 [] 0).run hiddenFirst).2.sets 0).dropHidden.contains c = false :=
  ⟨⟨1, 1, .outermost, .always, 0, false, false, false⟩, List.mem_cons_of_mem _ List.mem_cons_self,
    rfl, rfl⟩

end Prediction.Session
