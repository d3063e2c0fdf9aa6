import Prediction.Context.Basic

/-!
A memory of joins that keeps the most recently used ones. Operands are recognised as instances, in
either order.
-/

namespace Prediction.Context

structure JoinMemo.Entry where
  left : Context
  right : Context
  result : Context

/-- Entries are kept from the most to the least recently used. Capacity zero means unbounded. -/
structure JoinMemo where
  capacity : Nat
  entries : List JoinMemo.Entry

namespace JoinMemo

def Entry.matches (e : Entry) (left right : Context) : Bool :=
  (e.left.identical left && e.right.identical right) ||
    (e.left.identical right && e.right.identical left)

def empty (capacity : Nat) : JoinMemo := ⟨capacity, []⟩

def size (m : JoinMemo) : Nat := m.entries.length

/-- Entries that do not fit are the least recently used ones. -/
def trim (m : JoinMemo) : JoinMemo :=
  if m.capacity = 0 then m else { m with entries := m.entries.take m.capacity }

/-- A join on record. Reading it is using it. -/
def lookup? (m : JoinMemo) (left right : Context) : Option (Context × JoinMemo) :=
  match m.entries.find? (·.matches left right) with
  | some e =>
    some (e.result, { m with entries := e :: m.entries.eraseP (·.matches left right) })
  | none => none

def store (m : JoinMemo) (left right result : Context) : JoinMemo :=
  trim { m with
    entries := ⟨left, right, result⟩ :: m.entries.eraseP (·.matches left right) }

@[simp] theorem capacity_trim (m : JoinMemo) : m.trim.capacity = m.capacity := by
  unfold trim
  split <;> rfl

@[simp] theorem capacity_store (m : JoinMemo) (left right result : Context) :
    (m.store left right result).capacity = m.capacity :=
  capacity_trim _

theorem size_lookup? {m found : JoinMemo} {left right result : Context}
    (h : m.lookup? left right = some (result, found)) : found.size = m.size := by
  unfold lookup? at h
  split at h
  · rename_i e recorded
    obtain ⟨-, rfl⟩ := Prod.mk.inj (Option.some.inj h)
    have present : e ∈ m.entries := List.mem_of_find?_eq_some recorded
    have answers := List.find?_some recorded
    have nonempty : 0 < m.entries.length := List.length_pos_of_mem present
    have shorter : (m.entries.eraseP (·.matches left right)).length = m.entries.length - 1 :=
      List.length_eraseP_of_mem present answers
    simp only [size, List.length_cons, shorter]
    omega
  · exact absurd h (by simp)

end JoinMemo

end Prediction.Context
