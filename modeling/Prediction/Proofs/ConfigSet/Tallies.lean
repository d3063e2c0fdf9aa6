import Mathlib.Data.List.TakeWhile
import Prediction.Proofs.ConfigSet.Aggregates
import Prediction.Proofs.ConfigSet.Thawing

/-!
Sets and the history of their additions. As long as nothing is taken out of a set, what it says of
all its configurations is what a recomputation over everything that was added to it says, merged or
not. A set that is thawed keeps the history of the one that was frozen.
-/

namespace Prediction

/-- What the set says of all its configurations together is what some configurations say that were
added to it. -/
structure ConfigContents.Tallies (s : ConfigContents) (added : List Config) : Prop where
  uniqueAlt : ∀ alt, s.uniqueAlt = some alt ↔ added ≠ [] ∧ ∀ c ∈ added, c.alt = alt
  guarded : s.guarded = true ↔ ∃ c ∈ added, c.guard ≠ .always
  dips : s.dips = true ↔ ∃ c ∈ added, c.reachesOuter = true

namespace LinearSet

/-- The unique alternative is also the one that the entries share, as they are all that is left of
what was added when a set is thawed. -/
structure Tallies (s : LinearSet) (added : List Config.Value) : Prop where
  summary : s.Summarizes false false added
  exactAlt : s.ExactAlt

variable {s t : LinearSet} {added cs : List Config.Value}

theorem Tallies.contents {s : ConfigContents} {added : List Config}
    (tallies : s.linear.Tallies (added.map Config.value)) : s.Tallies added := by
  obtain ⟨-, -, uniqueAlt, guarded, dips⟩ := tallies.summary
  constructor
  · intro alt
    refine (uniqueAlt alt).trans ?_
    rw [List.forall_mem_map, ne_eq, List.map_eq_nil_iff]
    rfl
  · have recomputed : s.guarded = added.any fun c => !c.guard.isAlways := by
      rw [Bool.false_or, List.any_map] at guarded
      exact guarded
    simp only [recomputed, List.any_eq_true, Bool.not_eq_true', Bool.eq_false_iff, ne_eq,
      Guard.isAlways_iff]
  · have recomputed : s.dips = added.any (·.reachesOuter) := by
      rw [Bool.false_or, List.any_map] at dips
      exact dips
    rw [recomputed, List.any_eq_true]

theorem tallies_starting (outermost : Bool) : (starting outermost false false).Tallies [] :=
  ⟨summarizes_starting outermost false false, exactAlt_starting outermost false false⟩

theorem Tallies.insertAll (tallies : s.Tallies added) (cs : List Config.Value) :
    (s.insertAll cs).Tallies (added ++ cs) :=
  ⟨tallies.summary.insertAll cs, tallies.exactAlt.insertAll cs⟩

theorem Tallies.congr (tallies : s.Tallies added) (same : t.SameHoldings s) : t.Tallies added := by
  obtain ⟨⟨origin, entries, uniqueAlt, guarded, dips⟩, exactAlt⟩ := tallies
  exact ⟨⟨same.entries ▸ origin, same.entries ▸ entries, same.uniqueAlt ▸ uniqueAlt,
    same.guarded.trans guarded, same.dips.trans dips⟩, exactAlt.congr same⟩

theorem accepted_of_addAll {changed : Bool} (all : (s.addAll cs).1 = .ok changed) :
    ∀ c ∈ cs, s.refusal? c = none := by
  induction cs generalizing s changed with
  | nil => exact fun c listed => absurd listed List.not_mem_nil
  | cons c cs ih =>
    unfold addAll add at all
    cases refusal : s.refusal? c with
    | some refused => simp [refusal] at all
    | none =>
      simp only [refusal] at all
      cases rest : ((s.insert c).2.addAll cs).1 with
      | error refused => simp [rest, Except.map] at all
      | ok later =>
        have others := ih rest
        simp only [refusal?_insert] at others
        exact List.forall_mem_cons.mpr ⟨refusal, others⟩

/-- Replaying the entries of a set whose flags tell the truth leads to the same entries and
flags. -/
theorem sameHoldings_of_thaw (distinct : s.Distinct) (guards : s.NotesGuards)
    (reach : ∀ entry ∈ s.entries, entry.reachesOuter = true → s.dips = true)
    (exactAlt : s.ExactAlt) (thawed : s.thaw = .ok t) : t.SameHoldings s := by
  have found : t.ExactAlt := exactAlt_of_thaw thawed
  have accepted : ∀ c ∈ s.entries,
      (starting s.outermost s.guarded s.dips).refusal? c = none := by
    cases replay : ((starting s.outermost s.guarded s.dips).addAll s.entries).1 with
    | error refused => simp [thaw, replay, Except.map] at thawed
    | ok changed => exact accepted_of_addAll replay
  have replayed : t = (starting s.outermost s.guarded s.dips).insertAll s.entries := by
    rw [eq_of_thaw thawed, addAll_eq_insertAll,
      List.takeWhile_eq_self_iff.mpr fun c listed => by simp [accepted c listed]]
  have entries : t.entries = s.entries := replayed ▸ entries_insertAll distinct
  have summarizes := (summarizes_starting s.outermost s.guarded s.dips).insertAll s.entries
  rw [← replayed] at summarizes
  obtain ⟨guarded, dips⟩ := flags_of_replay guards reach summarizes
  refine ⟨entries, ?_, guarded, dips⟩
  apply Option.ext
  intro alt
  rw [found alt, exactAlt alt, SharesAlt, SharesAlt, entries]

end LinearSet

end Prediction
