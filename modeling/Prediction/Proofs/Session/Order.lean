import Prediction.Proofs.ConfigSet.Records
import Prediction.Proofs.Session.Additions

/-!
The order of additions. What a new set records after any additions depends on which configurations
were added and how often, and on nothing else: not on their order, not on how programs obtain their
contexts, and not on caches and networks.
-/

namespace Prediction

def Config.record (c : Config) : Config.Record := c.value.record

/-- The configurations of two sets correspond one to one, each to one of its state, alternative and
guard with the same context, depth and suppression, and the same is known of all of them
together. -/
structure ConfigContents.SameRecords (s t : ConfigContents) : Prop where
  records : (s.configs.map Config.record).Perm (t.configs.map Config.record)
  size : s.size = t.size
  uniqueAlt : s.uniqueAlt = t.uniqueAlt
  guarded : s.guarded = t.guarded
  dips : s.dips = t.dips

theorem ConfigContents.sameRecords_of_linear {s t : ConfigContents}
    (same : s.linear.SameRecords t.linear) : s.SameRecords t := by
  have records (s : ConfigContents) :
      s.linear.entries.map Config.Value.record = s.configs.map Config.record := List.map_map
  have perm := same.records
  rw [records, records] at perm
  have size := perm.length_eq
  rw [List.length_map, List.length_map] at size
  exact ⟨perm, size, same.uniqueAlt, same.guarded, same.dips⟩

namespace Session

variable {rule rule' : DigestRule} {history history' program program' : List Command} {i i' : Nat}

/-- A new set holds what it holds after all that the program adds to it. -/
theorem holdings_opening (rule : DigestRule) (history program : List Command) (i : Nat)
    (adds : ∀ command ∈ program, command.onlyAdds i = true) :
    (((opening rule history i).run program).2.sets i).linear.SameHoldings
      (LinearSet.empty.insertAll
        (((opening rule history i).inserted i program).map Config.value)) := by
  obtain ⟨known, sound⟩ := sound_opening rule history i
  have holdings := holdings_run sound program adds
  rw [linear_sets, linear_sets, sets_opening] at holdings
  exact holdings

/-- Programs that add the same configurations to a new set, in any order, lead to sets with the same
records. -/
theorem sameRecords_of_inserted_perm
    (adds : ∀ command ∈ program, command.onlyAdds i = true)
    (adds' : ∀ command ∈ program', command.onlyAdds i' = true)
    (proper : ∀ c ∈ (opening rule history i).inserted i program, c.context.Proper)
    (perm : (((opening rule history i).inserted i program).map Config.value).Perm
      (((opening rule' history' i').inserted i' program').map Config.value)) :
    (((opening rule history i).run program).2.sets i).SameRecords
      (((opening rule' history' i').run program').2.sets i').toConfigContents := by
  obtain ⟨known, sound⟩ := sound_opening rule history i
  have properValues : ∀ c ∈ ((opening rule history i).inserted i program).map Config.value,
      c.context.Proper := List.forall_mem_map.mpr proper
  have same := LinearSet.sameRecords_of_perm perm (canonical_inserted sound program i) properValues
  have left := holdings_opening rule history program i adds
  have right := holdings_opening rule' history' program' i' adds'
  apply ConfigContents.sameRecords_of_linear
  constructor
  · rw [left.entries, right.entries]
    exact same.records
  · rw [left.uniqueAlt, right.uniqueAlt, same.uniqueAlt]
  · rw [left.guarded, right.guarded, same.guarded]
  · rw [left.dips, right.dips, same.dips]

/-- Three threads, of which two are merged: the second caller becomes one more path. -/
def threeThreads : List Command :=
  [.context 0 (.push 9 7), .context 1 (.push 9 8),
    .edit 0 (.addAll [⟨5, 1, 0, .always, 0, false, false, false⟩,
      ⟨5, 1, 1, .always, 2, true, false, false⟩, ⟨6, 1, 0, .always, 0, false, false, true⟩] 0)]

/-- They are added the other way round, one by one, with a cache and with interning in between. -/
def threeThreadsReversed : List Command :=
  [.newCache 0 true 8, .context 0 (.push 9 7), .context 1 (.push 9 8),
    .edit 0 (.add ⟨6, 1, 0, .always, 0, false, false, true⟩ 0), .edit 0 (.internContexts 0),
    .edit 0 (.add ⟨5, 1, 1, .always, 2, true, false, false⟩ 0),
    .edit 0 (.add ⟨5, 1, 0, .always, 0, false, false, false⟩ 0)]

theorem sameRecords_threeThreads :
    (((opening .sha256 [] 0).inserted 0 threeThreads).map Config.value).Perm
        (((opening .sha256 [] 0).inserted 0 threeThreadsReversed).map Config.value) ∧
      (((opening .sha256 [] 0).run threeThreads).2.sets 0).SameRecords
        (((opening .sha256 [] 0).run threeThreadsReversed).2.sets 0).toConfigContents := by
  have adds : ∀ command ∈ threeThreads, command.onlyAdds 0 = true := by decide
  have adds' : ∀ command ∈ threeThreadsReversed, command.onlyAdds 0 = true := by decide
  have perm : (((opening .sha256 [] 0).inserted 0 threeThreads).map Config.value).Perm
      (((opening .sha256 [] 0).inserted 0 threeThreadsReversed).map Config.value) := by
    decide +kernel
  have single : ∀ k ≠ outermostKey, (Tree.node [(k, .outermost)]).Proper :=
    fun k regular => .node (by simp [regular]) (by simpa using .outermost)
  have proper : ∀ c ∈ (opening .sha256 [] 0).inserted 0 threeThreads, c.context.Proper := by
    intro c added
    have trees : ((opening .sha256 [] 0).inserted 0 threeThreads).map (·.context.tree) =
        [.node [(7, .outermost)], .node [(8, .outermost)], .node [(7, .outermost)]] := by
      decide +kernel
    have listed := List.mem_map_of_mem (f := fun c : Config => c.context.tree) added
    rw [trees, List.mem_cons, List.mem_cons, List.mem_singleton] at listed
    rcases listed with value | value | value <;> rw [Context.Proper, value]
    · exact single 7 (by decide)
    · exact single 8 (by decide)
    · exact single 7 (by decide)
  exact ⟨perm, sameRecords_of_inserted_perm adds adds' proper perm⟩

end Session

end Prediction
