import Prediction.Proofs.ConfigSet.Changes
import Prediction.Proofs.ConfigSet.Summary

/-!
The alternative that a set gives for all of its entries. Whatever happens to a set, no entry has
another one. It is exact as long as entries are only added: taking entries out leaves it as it was,
though those that remain may have one in common, or there may be none left.
-/

namespace Prediction

open LinearSet (Change Invariant)

/-- There are entries, and all of them argue for the alternative. -/
def ConfigContents.SharesAlt (s : ConfigContents) (alt : Alternative) : Prop :=
  s.configs ≠ [] ∧ ∀ c ∈ s.configs, c.alt = alt

/-- The unique alternative is the one that all entries share. -/
def ConfigContents.ExactAlt (s : ConfigContents) : Prop :=
  ∀ alt, s.uniqueAlt = some alt ↔ s.SharesAlt alt

namespace LinearSet

/-- A unique alternative is that of each entry. -/
def NotesAlts (s : LinearSet) : Prop :=
  ∀ alt, s.uniqueAlt = some alt → ∀ entry ∈ s.entries, entry.alt = alt

def SharesAlt (s : LinearSet) (alt : Alternative) : Prop :=
  s.entries ≠ [] ∧ ∀ entry ∈ s.entries, entry.alt = alt

def ExactAlt (s : LinearSet) : Prop := ∀ alt, s.uniqueAlt = some alt ↔ s.SharesAlt alt

variable {s t : LinearSet} {entry c : Config.Value} {index : Nat} {alt : Alternative}

theorem NotesAlts.change (notes : s.NotesAlts) (change : Change s t) : t.NotesAlts := by
  intro alt unique
  cases change with
  | @merge _ target _ _ present =>
    intro entry listed
    rcases List.mem_or_eq_of_mem_set listed with old | rfl
    · exact notes alt unique entry old
    · exact notes alt unique target (List.mem_of_getElem? present)
  | @append c =>
    obtain ⟨rfl, before⟩ := uniqueAltAfter_eq_some_iff.mp unique
    intro entry listed
    rcases List.mem_append.mp listed with old | new
    · rcases before with nothing | same
      · exact absurd (nothing ▸ old) List.not_mem_nil
      · exact notes c.alt same entry old
    · exact List.mem_singleton.mp new ▸ rfl
  | remove =>
    exact fun entry listed => notes alt unique entry (List.mem_of_mem_eraseIdx listed)
  | dropHidden => exact fun entry listed => notes alt unique entry (List.mem_filter.mp listed).1
  | clear => exact fun entry listed => absurd listed List.not_mem_nil
  | setConflict => exact notes alt unique

theorem invariant_notesAlts : Invariant NotesAlts where
  empty := fun _ _ entry listed => absurd listed List.not_mem_nil
  change := NotesAlts.change
  latch notes set := by
    obtain ⟨rfl, -⟩ := eq_of_latch set
    exact notes
  starting _ := fun _ _ entry listed => absurd listed List.not_mem_nil

theorem exactAlt_linear {s : ConfigContents} : s.linear.ExactAlt ↔ s.ExactAlt := by
  simp only [ExactAlt, ConfigContents.ExactAlt, SharesAlt, ConfigContents.SharesAlt,
    ConfigContents.linear, List.forall_mem_map, ne_eq, List.map_eq_nil_iff]
  rfl

theorem exactAlt_starting (outermost guarded dips : Bool) :
    (starting outermost guarded dips).ExactAlt := by
  intro alt
  simp [starting, empty, SharesAlt]

/-- The entry that takes in a configuration keeps its alternative. -/
theorem sharesAlt_mergeInto (present : s.entries[index]? = some entry) :
    (s.mergeInto index entry c).2.SharesAlt alt ↔ s.SharesAlt alt := by
  have alts : (s.mergeInto index entry c).2.entries.map (·.alt) = s.entries.map (·.alt) :=
    map_mergeInto present rfl
  have shares (entries : List Config.Value) : (entries ≠ [] ∧ ∀ entry ∈ entries, entry.alt = alt) ↔
      entries.map (·.alt) ≠ [] ∧ ∀ a ∈ entries.map (·.alt), a = alt := by
    simp
  exact (shares _).trans (alts ▸ (shares s.entries).symm)

theorem ExactAlt.congr (exact : t.ExactAlt) (same : s.SameHoldings t) : s.ExactAlt := by
  unfold ExactAlt SharesAlt
  rw [same.entries, same.uniqueAlt]
  exact exact

theorem ExactAlt.insert (exact : s.ExactAlt) (c : Config.Value) : (s.insert c).2.ExactAlt := by
  intro alt
  rcases insert_cases s c with ⟨entry, index, present, -, inserted⟩ | ⟨-, inserted⟩
  · rw [inserted, sharesAlt_mergeInto present]
    exact exact alt
  · rw [inserted]
    refine uniqueAltAfter_eq_some_iff.trans ?_
    simp only [exact alt, SharesAlt, append, List.forall_mem_append, List.forall_mem_singleton]
    by_cases isFirst : s.entries = []
    · simp [isFirst]
    · simp [isFirst, and_comm]

theorem ExactAlt.insertAll (exact : s.ExactAlt) (cs : List Config.Value) :
    (s.insertAll cs).ExactAlt := by
  induction cs generalizing s with
  | nil => exact exact
  | cons c cs ih => exact ih (exact.insert c)

/-- Replaying finds the unique alternative out again. -/
theorem exactAlt_of_thaw (thawed : s.thaw = .ok t) : t.ExactAlt := by
  rw [eq_of_thaw thawed, addAll_eq_insertAll]
  exact (exactAlt_starting s.outermost s.guarded s.dips).insertAll _

end LinearSet

end Prediction
