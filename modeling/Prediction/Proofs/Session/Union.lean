import Prediction.Proofs.ConfigSet.Union
import Prediction.Proofs.Session.Additions

/-!
What a set holds after any number of additions, whatever else the session does in between: an entry
for each identity that was added, which stands for all configurations of it and for nothing else.
-/

namespace Prediction

/-- The entries are the distinct identities among some configurations, in the order in which they
came first. Each entry allows the stacks that a configuration of its identity allows, has the
greatest depth among them, and is suppressed if one of them is. -/
structure ConfigSet.Unites (s : ConfigSet) (inserted : List Config) : Prop where
  identities : s.configs.map Config.identity = (inserted.map Config.identity).eraseDups
  distinct : (s.configs.map Config.identity).Nodup
  allows : ∀ entry ∈ s.configs, ∀ stack, entry.context.Allows stack ↔
    ∃ c ∈ inserted, c.identity = entry.identity ∧ c.context.Allows stack
  depth_le : ∀ entry ∈ s.configs, ∀ c ∈ inserted, c.identity = entry.identity →
    c.depth ≤ entry.depth
  depth_eq : ∀ entry ∈ s.configs, ∃ c ∈ inserted, c.identity = entry.identity ∧
    c.depth = entry.depth
  suppressed : ∀ entry ∈ s.configs, (entry.suppressed = true ↔
    ∃ c ∈ inserted, c.identity = entry.identity ∧ c.suppressed = true)

theorem ConfigSet.unites_of_linear {s : ConfigSet} {inserted : List Config}
    (unites : s.linear.Unites (inserted.map Config.value)) : s.Unites inserted := by
  have identities (cs : List Config) :
      (cs.map Config.value).map Config.Value.identity = cs.map Config.identity := by
    rw [List.map_map]
    rfl
  have stands (entry : Config) (present : entry ∈ s.configs) :=
    unites.stands entry.value (List.mem_map_of_mem present)
  have entries : s.linear.entries = s.configs.map Config.value := rfl
  constructor
  · rw [← identities, ← identities, ← entries]
    exact unites.identities
  · rw [← identities, ← entries]
    exact unites.distinct
  · intro entry present stack
    have allows := (stands entry present).allows stack
    simp only [List.mem_map, exists_exists_and_eq_and, Config.value, Context.allows_tree] at allows
    exact allows
  · intro entry present c new
    exact (stands entry present).depth_le c.value (List.mem_map_of_mem new)
  · intro entry present
    have attained := (stands entry present).depth_eq
    simp only [List.mem_map, exists_exists_and_eq_and] at attained
    exact attained
  · intro entry present
    have suppressed := (stands entry present).suppressed
    simp only [List.mem_map, exists_exists_and_eq_and] at suppressed
    exact suppressed

namespace Session

variable {known : Set Context} {s : Session} {i : Nat} {before : List Config}

theorem unites_run (sound : s.Sound known)
    (unites : (s.linear.sets i).Unites (before.map Config.value)) (program : List Command)
    (adds : ∀ command ∈ program, command.onlyAdds i = true) :
    ((s.run program).2.linear.sets i).Unites
      ((before ++ s.inserted i program).map Config.value) := by
  have united := unites.insertAll (canonical_inserted sound program i)
  rw [List.map_append]
  exact united.congr (holdings_run sound program adds).entries

/-- However a program adds to a new set, and whatever else it does, the set unites what it added. -/
theorem additions_unite (rule : DigestRule) (history program : List Command) (i : Nat)
    (adds : ∀ command ∈ program, command.onlyAdds i = true) :
    (((opening rule history i).run program).2.sets i).Unites
      ((opening rule history i).inserted i program) := by
  obtain ⟨known, sound⟩ := sound_reached rule history
  obtain ⟨-, -, wider, -, sound'⟩ := perform_realizes sound (.newSet i)
  have isNew : ((opening rule history i).sets i) = .empty := Function.update_self _ _ _
  have unites : ((opening rule history i).linear.sets i).Unites
      (([] : List Config).map Config.value) := by
    simp only [linear, isNew]
    exact LinearSet.unites_empty
  exact ConfigSet.unites_of_linear (unites_run sound' unites program adds)

/-- One thread with two callers: both are added under one key, and interning comes between. -/
def twoCallers : List Command :=
  [.context 0 (.push 2 7), .edit 0 (.add ⟨5, 1, 0, .always, 0, false, false, false⟩ 0),
    .edit 0 (.internContexts 0), .context 1 (.push 2 9),
    .edit 0 (.addAll [⟨5, 1, 1, .always, 3, true, false, true⟩] 0)]

theorem additions_unite_twoCallers :
    (∀ command ∈ twoCallers, command.onlyAdds 0 = true) ∧
      (((opening .sha256 [.newCache 0 true 8] 0).run twoCallers).2.sets 0).Unites
        ((opening .sha256 [.newCache 0 true 8] 0).inserted 0 twoCallers) :=
  have adds : ∀ command ∈ twoCallers, command.onlyAdds 0 = true := by decide
  ⟨adds, additions_unite .sha256 [.newCache 0 true 8] twoCallers 0 adds⟩

end Session

end Prediction
