import Mathlib.Logic.Relation
import Prediction.Proofs.ConfigSet.Insert

/-!
What can happen to a linear set. Every operation comes down to a few changes, and the latch is set
apart from them; what each change, the latch and a new start leave true is an invariant of sets.
-/

namespace Prediction.LinearSet

/-- A change to a set. None of them sets the latch. -/
inductive Change : LinearSet → LinearSet → Prop
  | merge {s : LinearSet} {c entry : Config.Value} {index : Nat} :
      s.refusal? c = none → s.entries[index]? = some entry → entry.mergesWith c = true →
      Change s (s.mergeInto index entry c).2
  | append {s : LinearSet} {c : Config.Value} :
      s.refusal? c = none → (∀ entry ∈ s.entries, entry.mergesWith c = false) →
      Change s (s.append c)
  | remove (s : LinearSet) (index : Nat) : Change s { s with entries := s.entries.eraseIdx index }
  | dropHidden (s : LinearSet) : Change s s.dropHidden
  | clear (s : LinearSet) : Change s s.clear
  | setConflict (s : LinearSet) (conflict : Option Conflict) : Change s (s.setConflict conflict)

abbrev Changes : LinearSet → LinearSet → Prop := Relation.ReflTransGen Change

/-- What holds of every set, if it holds of new sets and nothing that happens to a set ends it. A
set that is thawed starts with the flags of a set and no entries. -/
structure Invariant (motive : LinearSet → Prop) : Prop where
  empty : motive .empty
  change : ∀ {s t : LinearSet}, motive s → Change s t → motive t
  latch : ∀ {s t : LinearSet} {outermost : Bool}, motive s → s.setOutermost outermost = .ok t →
    motive t
  starting : ∀ {s : LinearSet}, motive s → motive (.starting s.outermost s.guarded s.dips)

variable {s t : LinearSet} {c : Config.Value} {motive other : LinearSet → Prop}

theorem Invariant.changes (invariant : Invariant motive) (holds : motive s)
    (changes : Changes s t) : motive t := by
  induction changes with
  | refl => exact holds
  | tail _ last ih => exact invariant.change ih last

theorem Invariant.and (first : Invariant motive) (second : Invariant other) :
    Invariant fun s => motive s ∧ other s where
  empty := ⟨first.empty, second.empty⟩
  change holds change := ⟨first.change holds.1 change, second.change holds.2 change⟩
  latch holds set := ⟨first.latch holds.1 set, second.latch holds.2 set⟩
  starting holds := ⟨first.starting holds.1, second.starting holds.2⟩

/-- Only an outermost set refuses configurations: hidden ones, and those that reach further out. -/
theorem refusal?_eq_none_iff : s.refusal? c = none ↔
    (s.outermost = true → c.hidden = false ∧ c.reachesOuter = false) := by
  unfold refusal?
  cases s.outermost <;> cases c.hidden <;> cases c.reachesOuter <;> simp

theorem change_insert (accepted : s.refusal? c = none) : Change s (s.insert c).2 := by
  rcases insert_cases s c with ⟨entry, index, present, merges, inserted⟩ | ⟨new, inserted⟩
  · exact inserted ▸ .merge accepted present merges
  · exact inserted ▸ .append accepted new

theorem change_add {step : Bool × LinearSet} (added : s.add c = .ok step) : Change s step.2 := by
  unfold add at added
  split at added
  · contradiction
  · rename_i accepted
    obtain rfl := Except.ok.inj added
    exact change_insert accepted

/-- All additions up to the first refused one. -/
theorem changes_addAll (s : LinearSet) (cs : List Config.Value) : Changes s (s.addAll cs).2 := by
  induction cs generalizing s with
  | nil => exact .refl
  | cons c cs ih =>
    unfold addAll
    split
    · exact .refl
    · rename_i step added
      exact .head (change_add added) (ih step.2)

theorem eq_of_remove {index : Nat} (removed : s.remove index = .ok (c, t)) :
    t = { s with entries := s.entries.eraseIdx index } := by
  unfold LinearSet.remove at removed
  split at removed
  · contradiction
  · obtain ⟨-, rfl⟩ := Prod.mk.inj (Except.ok.inj removed)
    rfl

theorem change_of_remove {index : Nat} (removed : s.remove index = .ok (c, t)) : Change s t :=
  eq_of_remove removed ▸ .remove s index

theorem eq_of_cursor {k later : Cursor} (removed : k.remove = .ok (c, later)) :
    ∃ index, later.set = { k.set with entries := k.set.entries.eraseIdx index } := by
  unfold Cursor.remove at removed
  split at removed
  · contradiction
  · contradiction
  · split at removed
    · contradiction
    · rename_i index _ _ _ _ outcome
      obtain ⟨-, rfl⟩ := Prod.mk.inj (Except.ok.inj removed)
      exact ⟨index, eq_of_remove outcome⟩

/-- A thawed set is what adding all entries to a new set led to. -/
theorem eq_of_thaw (thawed : s.thaw = .ok t) :
    t = ((starting s.outermost s.guarded s.dips).addAll s.entries).2 := by
  simp only [thaw] at thawed
  cases outcome : ((starting s.outermost s.guarded s.dips).addAll s.entries).1 with
  | error refusal => simp [outcome, Except.map] at thawed
  | ok changed =>
    rw [outcome] at thawed
    exact (Except.ok.inj thawed).symm

theorem changes_thaw (thawed : s.thaw = .ok t) :
    Changes (.starting s.outermost s.guarded s.dips) t :=
  eq_of_thaw thawed ▸ changes_addAll _ s.entries

theorem eq_of_latch {outermost : Bool} (set : s.setOutermost outermost = .ok t) :
    t = { s with outermost } ∧ (s.outermost = true → outermost = true) ∧
      (outermost = true → s.dips = false) := by
  unfold setOutermost at set
  split at set
  · contradiction
  · rename_i latched
    split at set
    · contradiction
    · rename_i dips
      refine ⟨(Except.ok.inj set).symm, ?_, ?_⟩
      · simpa using latched
      · simpa using dips

/-- No change touches the latch. -/
theorem outermost_of_changes (changes : Changes s t) : t.outermost = s.outermost := by
  induction changes with
  | refl => rfl
  | tail _ last ih => cases last <;> exact ih

end Prediction.LinearSet
