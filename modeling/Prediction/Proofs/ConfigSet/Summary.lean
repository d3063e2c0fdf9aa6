import Prediction.Proofs.ConfigSet.Union

/-!
What a linear set knows of all its configurations together, as long as none is taken out. A merged
configuration changes less than one that is appended, and yet what is known after either is what the
list of all additions says.
-/

namespace Prediction.LinearSet

/-- What a set knows is what some configurations say that were inserted into it. The two flags may
have been set before. -/
structure Summarizes (guarded dips : Bool) (s : LinearSet) (inserted : List Config.Value) :
    Prop where
  origin : ∀ entry ∈ s.entries, ∃ c ∈ inserted, c.identity = entry.identity
  entries : s.entries = [] ↔ inserted = []
  uniqueAlt : ∀ alt, s.uniqueAlt = some alt ↔ inserted ≠ [] ∧ ∀ c ∈ inserted, c.alt = alt
  guarded : s.guarded = (guarded || inserted.any fun c => !c.guard.isAlways)
  dips : s.dips = (dips || inserted.any (·.reachesOuter))

variable {guarded dips : Bool} {s : LinearSet} {inserted : List Config.Value}
  {entry c : Config.Value} {index : Nat}

theorem summarizes_starting (outermost guarded dips : Bool) :
    (starting outermost guarded dips).Summarizes guarded dips [] where
  origin _ listed := absurd listed List.not_mem_nil
  entries := Iff.rfl
  uniqueAlt alt := by simp [starting, empty]
  guarded := (Bool.or_false guarded).symm
  dips := (Bool.or_false dips).symm

theorem uniqueAltAfter_eq_some_iff {alt after : Alternative} :
    s.uniqueAltAfter alt = some after ↔
      alt = after ∧ (s.entries = [] ∨ s.uniqueAlt = some after) := by
  unfold uniqueAltAfter
  split
  · rename_i isNew
    simp [List.isEmpty_iff.mp isNew]
  · rename_i old
    have nonempty : s.entries ≠ [] := mt List.isEmpty_iff.mpr old
    split
    · rename_i same
      simp [nonempty, same]
    · rename_i different
      simp only [reduceCtorEq, false_iff, nonempty, false_or, not_and]
      rintro rfl
      exact different

namespace Summarizes

/-- The entry that takes in a configuration has the alternative and the guard of one that was
inserted before. -/
theorem mergeInto (summarizes : s.Summarizes guarded dips inserted)
    (present : s.entries[index]? = some entry) (merges : entry.mergesWith c = true) :
    (s.mergeInto index entry c).2.Summarizes guarded dips (inserted ++ [c]) := by
  obtain ⟨earlier, old, same⟩ := summarizes.origin entry (List.mem_of_getElem? present)
  rw [Config.Value.mergesWith_iff_identity.mp merges] at same
  have alt : earlier.alt = c.alt := congrArg (fun id => id.1.alt) same
  have guard : earlier.guard = c.guard := congrArg Prod.snd same
  constructor
  · intro other listed
    rcases List.mem_or_eq_of_mem_set listed with before | rfl
    · obtain ⟨c', old', same'⟩ := summarizes.origin other before
      exact ⟨c', List.mem_append_left _ old', same'⟩
    · exact ⟨c, List.mem_append_right _ List.mem_cons_self,
        (Config.Value.mergesWith_iff_identity.mp merges).symm⟩
  · have nonempty : s.entries ≠ [] := List.ne_nil_of_mem (List.mem_of_getElem? present)
    simp [LinearSet.mergeInto, nonempty]
  · intro alternative
    have before := summarizes.uniqueAlt alternative
    simp only [LinearSet.mergeInto, before, List.forall_mem_append, List.forall_mem_singleton]
    constructor
    · rintro ⟨-, all⟩
      exact ⟨by simp, all, alt ▸ all earlier old⟩
    · rintro ⟨-, all, -⟩
      exact ⟨List.ne_nil_of_mem old, all⟩
  · have said : (!c.guard.isAlways) = true →
        (inserted.any fun c => !c.guard.isAlways) = true :=
      fun isGuarded => List.any_eq_true.mpr ⟨earlier, old, guard ▸ isGuarded⟩
    rw [List.any_append, List.any_cons, List.any_nil, Bool.or_false,
      Bool.or_eq_left_iff_imp.mpr said]
    exact summarizes.guarded
  · simp [LinearSet.mergeInto, summarizes.dips, Bool.or_assoc]

theorem append (summarizes : s.Summarizes guarded dips inserted) (c : Config.Value) :
    (s.append c).Summarizes guarded dips (inserted ++ [c]) := by
  constructor
  · intro other listed
    rcases List.mem_append.mp listed with before | new
    · obtain ⟨c', old, same⟩ := summarizes.origin other before
      exact ⟨c', List.mem_append_left _ old, same⟩
    · exact ⟨c, List.mem_append_right _ List.mem_cons_self, List.mem_singleton.mp new ▸ rfl⟩
  · simp [LinearSet.append]
  · intro alternative
    have after : (s.append c).uniqueAlt = s.uniqueAltAfter c.alt := rfl
    rw [after, uniqueAltAfter_eq_some_iff, summarizes.entries, summarizes.uniqueAlt]
    by_cases isFirst : inserted = []
    · simp [isFirst]
    · simp [isFirst, or_imp, forall_and, and_comm]
  · simp [LinearSet.append, summarizes.guarded, Bool.or_assoc]
  · simp [LinearSet.append, summarizes.dips, Bool.or_assoc]

theorem insertAll (summarizes : s.Summarizes guarded dips inserted) (cs : List Config.Value) :
    (s.insertAll cs).Summarizes guarded dips (inserted ++ cs) :=
  insertAll_induction (fun before _ present merges => before.mergeInto present merges)
    (fun before _ _ => before.append _) summarizes fun _ _ => trivial

end Summarizes

end Prediction.LinearSet
