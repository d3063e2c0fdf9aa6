import Prediction.Proofs.Session.Refinement

/-!
What holds in every session that a program can lead to: the tables of every writable set divide its
entries among them, joins of contexts are unions of stacks, and covering is inclusion.
-/

namespace Prediction.Session

open Context

/-- Each position is in one of the tables once, a representative has the key of its slot, and no two
entries could be merged. -/
theorem tables_partition (rule : DigestRule) (program : List Command) (i : Nat) :
    let set := (reached rule program).sets i
    (set.representatives.map (·.2) ++ set.overflow).Perm (List.range set.configs.length) ∧
      (∀ slot ∈ set.representatives, ∃ c, set.configs[slot.2]? = some c ∧ c.key = slot.1) ∧
      (set.representatives.map (·.1)).Nodup ∧
      set.configs.Pairwise fun c other => c.mergesWith other = false := by
  obtain ⟨known, sound⟩ := sound_reached rule program
  intro set
  have indexed : set.Indexed := sound.indexed i
  refine ⟨?_, ?_, indexed.keys, ?_⟩
  · have size : set.identities.length = set.configs.length := List.length_map _
    exact size ▸ indexed.partition
  · intro slot listed
    have keyed := indexed.keyed slot listed
    rw [ConfigSet.identities_getElem?, Option.map_map, Option.map_eq_some_iff] at keyed
    exact keyed
  · apply (List.pairwise_map.mp indexed.distinct).imp
    intro c other different
    rw [Bool.eq_false_iff]
    exact mt Config.mergesWith_iff_identity.mp different

/-- Joining two contexts of a session unites their stacks, with and without the memory. Covering
says that a join outside any memory would change nothing, and that the stacks of the one include
those of the other. -/
structure UnitesStacks (s : Session) (i k cache : Nat) : Prop where
  join : ∀ stack, ((s.contexts i).join (s.contexts k) (s.joiner cache)).1.Allows stack ↔
    (s.contexts i).Allows stack ∨ (s.contexts k).Allows stack
  cachedJoin : ∀ stack, ((s.contexts i).cachedJoin (s.contexts k) (s.joiner cache)).1.Allows stack ↔
    (s.contexts i).Allows stack ∨ (s.contexts k).Allows stack
  covers_iff_join : (s.contexts i).covers (s.contexts k) = true ↔
    ((s.contexts i).join (s.contexts k) ⟨s.supply, .disabled⟩).1.equal (s.contexts i) = true
  covers : (s.contexts i).covers (s.contexts k) = true ↔
    ∀ stack, (s.contexts k).Allows stack → (s.contexts i).Allows stack

/-- Whatever the cache has met before, a join is the exact union. -/
theorem reached_unitesStacks (rule : DigestRule) (program : List Command) (i k cache : Nat)
    (left : ((reached rule program).contexts i).Proper)
    (right : ((reached rule program).contexts k).Proper) :
    (reached rule program).UnitesStacks i k cache := by
  obtain ⟨known, sound⟩ := sound_reached rule program
  have known_left := sound.contexts i
  have known_right := sound.contexts k
  have joins := joinable _ (sound.joiner cache) known_left known_right
  have cached := Joinable.remember (joinable _) (sound.joiner cache) known_left known_right
  have uncached : Joiner.Sound known ⟨(reached rule program).supply, .disabled⟩ :=
    ⟨sound.coherent, Cache.sound_new known false 0⟩
  exact ⟨allows_of_joins sound.coherent known_left known_right joins.1,
    allows_of_joins sound.coherent known_left known_right cached,
    covers_iff_join uncached known_left known_right,
    covers_iff_allows sound.coherent known_left known_right left right⟩

/-- One caller, and after that a context that may also end there. -/
def optionalCaller : List Command :=
  [.newCache 0 true 4, .context 0 (.push 2 7), .context 1 (.addOutermost 0)]

theorem unitesStacks_optionalCaller :
    ((reached .sha256 optionalCaller).contexts 0).Proper ∧
      ((reached .sha256 optionalCaller).contexts 1).Proper ∧
      (reached .sha256 optionalCaller).UnitesStacks 0 1 0 := by
  have caller : ((reached .sha256 optionalCaller).contexts 0).Proper := by
    have value : ((reached .sha256 optionalCaller).contexts 0).tree = .node [(7, .outermost)] := rfl
    rw [Context.Proper, value]
    exact .node (by simp) (by simpa using .outermost)
  have optional : ((reached .sha256 optionalCaller).contexts 1).Proper := by
    have value : ((reached .sha256 optionalCaller).contexts 1).tree =
        .node [(7, .outermost), (outermostKey, .outermost)] := rfl
    rw [Context.Proper, value]
    exact .node (by simp) (by simpa using .outermost)
  exact ⟨caller, optional, reached_unitesStacks .sha256 optionalCaller 0 1 0 caller optional⟩

end Prediction.Session
