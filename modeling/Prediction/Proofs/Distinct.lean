import Mathlib.Data.List.Nodup

/-!
Lists without their repetitions, each element at the place of its first occurrence. Removing
repetitions early, on either side of an append, makes no difference to what is left in the end.
-/

namespace Prediction

variable {α : Type} [BEq α] [LawfulBEq α] {xs ys : List α} {x : α}

theorem filter_others (new : x ∉ xs) : xs.filter (fun y => !y == x) = xs := by
  rw [List.filter_eq_self]
  intro y present
  simp only [Bool.not_eq_true', beq_eq_false_iff_ne]
  rintro rfl
  exact new present

theorem nodup_eraseDups (xs : List α) : xs.eraseDups.Nodup := by
  match xs with
  | [] => simp
  | x :: xs =>
    rw [List.eraseDups_cons, List.nodup_cons, List.mem_eraseDups]
    exact ⟨by simp, nodup_eraseDups _⟩
termination_by xs.length
decreasing_by exact Nat.lt_succ_of_le (List.length_filter_le _ _)

theorem eraseDups_of_nodup (distinct : xs.Nodup) : xs.eraseDups = xs := by
  induction xs with
  | nil => rfl
  | cons x xs ih =>
    obtain ⟨new, distinct⟩ := List.nodup_cons.mp distinct
    rw [List.eraseDups_cons, filter_others new, ih distinct]

theorem eraseDups_filter (p : α → Bool) (xs : List α) :
    (xs.filter p).eraseDups = xs.eraseDups.filter p := by
  match xs with
  | [] => simp
  | x :: xs =>
    have rest := eraseDups_filter p (xs.filter fun y => !y == x)
    rw [List.filter_comm] at rest
    rw [List.eraseDups_cons]
    cases kept : p x with
    | true =>
      rw [List.filter_cons_of_pos kept, List.filter_cons_of_pos kept, List.eraseDups_cons, rest]
    | false =>
      rw [filter_others (by simp [kept])] at rest
      rw [List.filter_cons_of_neg (by simp [kept]), List.filter_cons_of_neg (by simp [kept]), rest]
termination_by xs.length
decreasing_by exact Nat.lt_succ_of_le (List.length_filter_le _ _)

theorem eraseDups_eraseDups_append (xs ys : List α) :
    (xs.eraseDups ++ ys).eraseDups = (xs ++ ys).eraseDups := by
  rw [List.eraseDups_append, List.eraseDups_append, eraseDups_of_nodup (nodup_eraseDups xs)]
  simp [List.removeAll]

theorem eraseDups_append_eraseDups (xs ys : List α) :
    (xs ++ ys.eraseDups).eraseDups = (xs ++ ys).eraseDups := by
  rw [List.eraseDups_append, List.eraseDups_append, List.removeAll, List.removeAll,
    ← eraseDups_filter, eraseDups_of_nodup (nodup_eraseDups _)]

theorem eraseDups_append_of_subset (known : ys ⊆ xs) : (xs ++ ys).eraseDups = xs.eraseDups := by
  have nothing : ys.removeAll xs = [] := by
    rw [List.removeAll, List.filter_eq_nil_iff]
    intro y present
    simpa using known present
  rw [List.eraseDups_append, nothing, List.eraseDups_nil, List.append_nil]

end Prediction
