import Mathlib.Data.List.Nodup
import Prediction.Context.Table
import Prediction.Proofs.Context.Coherent

/-!
Tables of canonical instances by value. Asking for the canonical instance of a context inserts its
value into the values on record, so that no value is ever on record twice.
-/

namespace Prediction.Context.Table

def values (t : Table) : List Tree := t.entries.map tree

variable {known : Set Context} {s : Supply} {t : Table} {a b c : Context}

/-- An instance is missing exactly if its value is. -/
theorem find?_eq_none_iff (coherent : Coherent s known) (recorded : ∀ a ∈ t.entries, a ∈ known)
    (present : c ∈ known) : t.find? c = none ↔ c.tree ∉ t.values := by
  rw [find?, List.find?_eq_none, values, List.mem_map, not_exists]
  refine forall_congr' fun a => ?_
  rw [not_and]
  exact forall_congr' fun listed => not_congr (coherent.equal_iff (recorded a listed) present)

theorem values_canonical (coherent : Coherent s known) (recorded : ∀ a ∈ t.entries, a ∈ known)
    (present : c ∈ known) : (t.canonical c).2.values = t.values.insert c.tree := by
  have missing := find?_eq_none_iff coherent recorded present
  unfold canonical
  split
  · rename_i instead found
    have listed : c.tree ∈ t.values := by
      by_contra unlisted
      simp [missing.mpr unlisted] at found
    exact (List.insert_of_mem listed).symm
  · rename_i unfound
    exact (List.insert_of_not_mem (missing.mp unfound)).symm

theorem eq_of_value (distinct : t.values.Nodup) (left : a ∈ t.entries) (right : b ∈ t.entries)
    (same : a.tree = b.tree) : a = b :=
  List.inj_on_of_nodup_map distinct left right same

end Prediction.Context.Table
