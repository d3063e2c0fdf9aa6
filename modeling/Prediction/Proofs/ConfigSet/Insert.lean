import Prediction.Proofs.ConfigSet.Linear

/-!
Insertions in linear sets. An insertion merges a configuration into an entry of its key and guard,
or appends it if there is none; it depends on neither the latch nor the conflict of the set, and
adding is inserting until something is refused.
-/

namespace Prediction.LinearSet

/-- Inserts one configuration after another. -/
def insertAll (s : LinearSet) : List Config.Value → LinearSet
  | [] => s
  | c :: cs => (s.insert c).2.insertAll cs

/-- Sets with the same entries that know the same of them. They may differ in the latch and in the
conflict. -/
structure SameHoldings (s t : LinearSet) : Prop where
  entries : s.entries = t.entries
  uniqueAlt : s.uniqueAlt = t.uniqueAlt
  guarded : s.guarded = t.guarded
  dips : s.dips = t.dips

variable {s t : LinearSet} {inserted cs : List Config.Value} {entry c : Config.Value} {index : Nat}

theorem insert_cases (s : LinearSet) (c : Config.Value) :
    (∃ entry index, s.entries[index]? = some entry ∧ entry.mergesWith c = true ∧
        s.insert c = s.mergeInto index entry c) ∨
      (∀ entry ∈ s.entries, entry.mergesWith c = false) ∧ s.insert c = (true, s.append c) := by
  unfold insert find?
  split
  · rename_i entry index found
    have present := List.mem_zipIdx_iff_getElem?.mp (List.mem_of_find?_eq_some found)
    have merges := List.find?_some found
    exact .inl ⟨entry, index, present, merges, rfl⟩
  · rename_i missing
    refine .inr ⟨?_, rfl⟩
    intro entry present
    obtain ⟨index, place⟩ := List.mem_iff_getElem?.mp present
    have inSearch : (entry, index) ∈ s.entries.zipIdx := List.mem_zipIdx_iff_getElem?.mpr place
    exact Bool.eq_false_iff.mpr (List.find?_eq_none.mp missing _ inSearch)

/-- What merging leaves as it was in an entry is the same for all entries afterwards. -/
theorem map_mergeInto {β : Type} {f : Config.Value → β} (present : s.entries[index]? = some entry)
    (kept : f (entry.absorb c) = f entry) :
    (s.mergeInto index entry c).2.entries.map f = s.entries.map f := by
  obtain ⟨within, rfl⟩ := List.getElem?_eq_some_iff.mp present
  rw [mergeInto, List.map_set, kept, ← List.map_set, List.set_getElem_self]

theorem refusal?_insert (s : LinearSet) (c other : Config.Value) :
    (s.insert c).2.refusal? other = s.refusal? other := by
  rcases insert_cases s c with ⟨entry, index, -, -, inserted⟩ | ⟨-, inserted⟩ <;>
    rw [inserted] <;> rfl

theorem SameHoldings.refl (s : LinearSet) : s.SameHoldings s := ⟨rfl, rfl, rfl, rfl⟩

theorem SameHoldings.trans {u : LinearSet} (first : s.SameHoldings t) (second : t.SameHoldings u) :
    s.SameHoldings u :=
  ⟨first.entries.trans second.entries, first.uniqueAlt.trans second.uniqueAlt,
    first.guarded.trans second.guarded, first.dips.trans second.dips⟩

theorem SameHoldings.insert (same : s.SameHoldings t) (c : Config.Value) :
    (s.insert c).2.SameHoldings (t.insert c).2 := by
  obtain ⟨entries, uniqueAlt, guarded, dips⟩ := same
  unfold LinearSet.insert find?
  rw [entries]
  split
  · constructor <;> simp only [mergeInto, entries, uniqueAlt, guarded, dips]
  · constructor <;> simp only [append, uniqueAltAfter, entries, uniqueAlt, guarded, dips]

theorem SameHoldings.insertAll (same : s.SameHoldings t) (cs : List Config.Value) :
    (s.insertAll cs).SameHoldings (t.insertAll cs) := by
  induction cs generalizing s t with
  | nil => exact same
  | cons c cs ih => exact ih (same.insert c)

theorem insertAll_append (s : LinearSet) (cs ds : List Config.Value) :
    s.insertAll (cs ++ ds) = (s.insertAll cs).insertAll ds := by
  induction cs generalizing s with
  | nil => rfl
  | cons c cs ih => exact ih (s.insert c).2

/-- Induction over insertions: what a merge and an append carry over to one more configuration holds
of all that was inserted, if it held of what was there before. -/
theorem insertAll_induction {motive : LinearSet → List Config.Value → Prop}
    {admitted : Config.Value → Prop}
    (merge : ∀ {s inserted c entry index}, motive s inserted → admitted c →
      s.entries[index]? = some entry → entry.mergesWith c = true →
      motive (s.mergeInto index entry c).2 (inserted ++ [c]))
    (append : ∀ {s inserted c}, motive s inserted → admitted c →
      (∀ entry ∈ s.entries, entry.mergesWith c = false) → motive (s.append c) (inserted ++ [c]))
    (before : motive s inserted) (all : ∀ c ∈ cs, admitted c) :
    motive (s.insertAll cs) (inserted ++ cs) := by
  induction cs generalizing s inserted with
  | nil => simpa only [insertAll, List.append_nil] using before
  | cons c cs ih =>
    obtain ⟨first, others⟩ := List.forall_mem_cons.mp all
    have step : motive (s.insert c).2 (inserted ++ [c]) := by
      rcases insert_cases s c with ⟨entry, index, present, merges, same⟩ | ⟨new, same⟩
      · exact same ▸ merge before first present merges
      · exact same ▸ append before first new
    have rest := ih step others
    rwa [List.append_assoc] at rest

/-- The configurations before the first one that is refused are inserted. What is refused does not
change on the way. -/
theorem addAll_eq_insertAll (s : LinearSet) (cs : List Config.Value) :
    (s.addAll cs).2 = s.insertAll (cs.takeWhile fun c => (s.refusal? c).isNone) := by
  induction cs generalizing s with
  | nil => rfl
  | cons c cs ih =>
    unfold addAll add
    cases refusal : s.refusal? c with
    | some refusal => simp [refusal, insertAll]
    | none =>
      have rest := ih (s.insert c).2
      simp only [refusal?_insert] at rest
      simpa [refusal, insertAll] using rest

end Prediction.LinearSet
