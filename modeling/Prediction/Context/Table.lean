import Prediction.Context.Basic

/-!
Tables of canonical instances: at most one instance per value.
-/

namespace Prediction.Context

structure Table where
  entries : List Context

namespace Table

def empty : Table := ⟨[]⟩

def size (t : Table) : Nat := t.entries.length

/-- The instance on record that equals the given context. -/
def find? (t : Table) (c : Context) : Option Context :=
  t.entries.find? (·.equal c)

/-- The instance on record, which the given one becomes if there is none. -/
def canonical (t : Table) (c : Context) : Context × Table :=
  match t.find? c with
  | some recorded => (recorded, t)
  | none => (c, ⟨c :: t.entries⟩)

theorem equal_of_find? {t : Table} {c recorded : Context} (h : t.find? c = some recorded) :
    recorded.equal c = true := by
  have matching := List.find?_some h
  exact matching

theorem mem_of_find? {t : Table} {c recorded : Context} (h : t.find? c = some recorded) :
    recorded ∈ t.entries :=
  List.mem_of_find?_eq_some h

theorem canonical_mem (t : Table) (c : Context) :
    (t.canonical c).1 ∈ (t.canonical c).2.entries := by
  unfold canonical
  split
  · exact mem_of_find? ‹_›
  · exact List.mem_cons_self

theorem entries_subset_canonical (t : Table) (c : Context) :
    t.entries ⊆ (t.canonical c).2.entries := by
  unfold canonical
  split
  · exact List.Subset.refl _
  · exact List.subset_cons_self _ _

end Table

end Prediction.Context
