import Prediction.Proofs.ConfigSet.Thawing

/-!
Depths of entries. A configuration with a positive depth has reached the outer context, and is
marked so from the start. Merging takes over the depth and not the mark, so that an entry is marked
as its depth demands, if and only if it was marked before or nothing with a depth is merged into it.
-/

namespace Prediction

namespace Config

/-- A positive depth means that the outer context was reached. -/
def KnowsReach (c : Config) : Prop := 0 < c.depth → c.reachesOuter = true

variable {entry c : Config}

theorem depth_absorb_pos : 0 < (entry.absorb c).depth ↔ 0 < entry.depth ∨ 0 < c.depth := by
  obtain ⟨left, right, attained⟩ := Value.max_depth entry.depth c.depth
  constructor
  · intro positive
    rcases attained with same | same
    · exact .inl (same ▸ positive)
    · exact .inr (same ▸ positive)
  · rintro (positive | positive)
    · exact UInt32.lt_of_lt_of_le positive left
    · exact UInt32.lt_of_lt_of_le positive right

theorem knowsReach_absorb_iff : (entry.absorb c).KnowsReach ↔
    entry.KnowsReach ∧ (0 < c.depth → entry.reachesOuter = true) := by
  rw [KnowsReach, depth_absorb_pos, or_imp]
  rfl

end Config

/-- Each entry is marked as its depth demands. -/
def ConfigContents.KnowReach (s : ConfigContents) : Prop := ∀ c ∈ s.configs, c.KnowsReach

def LinearSet.KnowReach (s : LinearSet) : Prop :=
  ∀ entry ∈ s.entries, 0 < entry.depth → entry.reachesOuter = true

theorem LinearSet.knowReach_linear {s : ConfigContents} : s.linear.KnowReach ↔ s.KnowReach :=
  List.forall_mem_map

theorem LinearSet.KnowReach.subset {s t : LinearSet} (know : s.KnowReach)
    (included : t.entries ⊆ s.entries) : t.KnowReach :=
  fun entry listed => know entry (included listed)

namespace ConfigSet

/-- The merges that adding configurations makes, each as an entry and what is merged into it. -/
def merges (s : ConfigSet) : List Config → Joiner → List (Config × Config)
  | [], _ => []
  | c :: cs, j =>
    match s.add c j with
    | .error _ => []
    | .ok step =>
      (s.configs.filter (·.mergesWith c)).map (·, c) ++ step.set.merges cs step.joiner

/-- Nothing with a depth is merged into an entry that is not marked. -/
def Marked (merges : List (Config × Config)) : Prop :=
  ∀ merge ∈ merges, 0 < merge.2.depth → merge.1.reachesOuter = true

variable {s : ConfigSet} {entry c : Config} {cs : List Config} {i : Nat} {j : Joiner}

theorem knowReach_mergeAt_iff (present : s.configs[i]? = some entry) :
    (s.mergeAt i c j).set.KnowReach ↔
      s.KnowReach ∧ (0 < c.depth → entry.reachesOuter = true) := by
  rw [mergeAt_of_entry present]
  have taken (changed : Bool) (context : Context) :
      (if changed then (entry.absorb c).withContext context else entry.absorb c).KnowsReach ↔
        entry.KnowsReach ∧ (0 < c.depth → entry.reachesOuter = true) := by
    cases changed <;> exact Config.knowsReach_absorb_iff
  have within : i < s.configs.length := (List.getElem?_eq_some_iff.mp present).1
  constructor
  · intro after
    obtain ⟨mine, marked⟩ := (taken _ _).mp (after _ (List.mem_set within _))
    refine ⟨?_, marked⟩
    intro other listed
    obtain ⟨k, found⟩ := List.mem_iff_getElem?.mp listed
    by_cases here : i = k
    · subst here
      obtain rfl := Option.some.inj (present.symm.trans found)
      exact mine
    · apply after other
      exact List.mem_of_getElem? ((List.getElem?_set_ne here).trans found)
  · rintro ⟨before, marked⟩ other listed
    rcases List.mem_or_eq_of_mem_set listed with old | rfl
    · exact before other old
    · exact (taken _ _).mpr ⟨before entry (List.mem_of_getElem? present), marked⟩

theorem knowReach_insert_iff (indexed : s.Indexed) (knows : c.KnowsReach) :
    (s.insert c j).set.KnowReach ↔ s.KnowReach ∧
      ∀ entry ∈ s.configs, entry.mergesWith c = true → 0 < c.depth → entry.reachesOuter = true := by
  rcases insert_cases indexed c j with
    ⟨i, entry, present, merges, -, contents⟩ | ⟨unmerged, inserted⟩
  · rw [contents, knowReach_mergeAt_iff present]
    have listed := List.mem_of_getElem? present
    refine and_congr_right fun _ => ⟨?_, fun marked => marked entry listed merges⟩
    intro marked other listed' merges'
    exact eq_of_mergesWith indexed listed merges listed' merges' ▸ marked
  · rw [inserted]
    constructor
    · intro after
      refine ⟨fun entry listed => after entry (List.mem_append_left _ listed), ?_⟩
      intro entry listed merges
      exact absurd merges (Bool.eq_false_iff.mp (unmerged entry listed))
    · rintro ⟨before, -⟩ entry listed
      rcases List.mem_append.mp listed with old | new
      · exact before entry old
      · exact List.mem_singleton.mp new ▸ knows

/-- By induction on the configurations. Once an entry lacks its mark, further merges into it do not
help. -/
theorem knowReach_addAll_iff (indexed : s.Indexed) (knows : ∀ c ∈ cs, c.KnowsReach) :
    (s.addAll cs j).2.1.KnowReach ↔ s.KnowReach ∧ Marked (s.merges cs j) := by
  induction cs generalizing s j with
  | nil => simp [addAll, merges, Marked]
  | cons c cs ih =>
    obtain ⟨first, others⟩ := List.forall_mem_cons.mp knows
    unfold addAll merges add
    cases s.refusal? c with
    | some refusal => simp [Marked]
    | none =>
      have step := knowReach_insert_iff (j := j) indexed first
      rw [ih (indexed_insert indexed c j) others, step, and_assoc]
      refine and_congr_right fun _ => ?_
      simp only [Marked, List.forall_mem_append, List.forall_mem_map, List.mem_filter, and_imp]

end ConfigSet

end Prediction
