import Mathlib.Data.List.Basic
import Prediction.Proofs.ConfigSet.Indexed

/-!
Dropping hidden entries one by one. What is left of a set when its hidden entries are dropped does
not change when one of them is removed before. So whatever removes hidden entries until there is
none left leads where dropping all of them at once leads, tables included.
-/

namespace Prediction.ConfigSet

/-- Removes the entries at positions, one after another. -/
def removeAll (s : ConfigSet) : List Nat → Except ConfigSet.Error ConfigSet
  | [] => .ok s
  | index :: others =>
    match s.remove index with
    | .error refusal => .error refusal
    | .ok taken => taken.2.removeAll others

def hiddenPositions (s : ConfigSet) : List Nat := s.configs.findIdxs (·.hidden)

theorem exists_split {α : Type} {entries : List α} {entry : α} {index : Nat}
    (present : entries[index]? = some entry) :
    ∃ front back, entries = front ++ entry :: back ∧ entries.eraseIdx index = front ++ back ∧
      front.length = index := by
  obtain ⟨within, rfl⟩ := List.getElem?_eq_some_iff.mp present
  refine ⟨entries.take index, entries.drop (index + 1), ?_, List.eraseIdx_eq_take_drop_succ _ _,
    List.length_take_of_le (Nat.le_of_lt within)⟩
  rw [← List.drop_eq_getElem_cons within, List.take_append_drop]

section Renumbering

variable {s t : ConfigSet} {c : Config} {index : Nat} {move : Nat → Option Nat}
  {front back : List Config}

theorem renumbered_self (indexed : s.Indexed)
    (same : ∀ i < s.configs.length, move i = some i) : s.renumbered s.configs move = s := by
  have size : s.identities.length = s.configs.length := List.length_map _
  have within {i : Nat} (listed : i ∈ s.representatives.map (·.2) ++ s.overflow) :
      move i = some i := by
    have inRange := indexed.partition.mem_iff.mp listed
    rw [size, List.mem_range] at inRange
    exact same i inRange
  have representatives : (s.representatives.filterMap fun slot =>
      (move slot.2).map (slot.1, ·)) = s.representatives := by
    refine (List.filterMap_congr ?_).trans List.filterMap_some
    intro slot listed
    rw [within (List.mem_append_left _ (List.mem_map_of_mem listed)), Option.map_some]
  have overflow : s.overflow.filterMap move = s.overflow := by
    refine (List.filterMap_congr ?_).trans List.filterMap_some
    exact fun i listed => within (List.mem_append_right _ listed)
  rw [renumbered, representatives, overflow]

theorem renumbered_renumbered (s : ConfigSet) (cs ds : List Config) (f g : Nat → Option Nat) :
    (s.renumbered cs f).renumbered ds g = s.renumbered ds fun i => (f i).bind g := by
  simp only [renumbered, List.filterMap_filterMap, Option.bind_map, Option.map_bind]
  rfl

/-- Without hidden entries, positions stay as they are. -/
theorem dropHidden_eq (indexed : s.Indexed) :
    s.dropHidden = s.renumbered (s.configs.filter fun c => !c.hidden) s.visiblePosition? := by
  unfold dropHidden
  split
  · rfl
  · rename_i visible
    have all : ∀ c ∈ s.configs, (!c.hidden) = true := by simpa using visible
    rw [List.filter_eq_self.mpr all, renumbered_self indexed]
    intro i within
    have visible : (s.configs[i].hidden) = false := by simpa using all _ (List.getElem_mem within)
    have before : (s.configs.take i).countP (fun c => !c.hidden) = i := by
      rw [List.countP_eq_length.mpr fun c front => all c (List.mem_of_mem_take front),
        List.length_take_of_le (Nat.le_of_lt within)]
    simp [visiblePosition?, List.getElem?_eq_getElem within, visible, before]

/-- A hidden entry that is gone leaves the visible ones as they are numbered. -/
theorem visiblePosition?_of_split (before : s.configs = front ++ c :: back)
    (after : t.configs = front ++ back) (hidden : c.hidden = true) (slot : Nat) :
    (remaining front.length slot).bind t.visiblePosition? = s.visiblePosition? slot := by
  rcases Nat.lt_trichotomy slot front.length with earlier | rfl | later
  · have other : slot ≠ front.length := Nat.ne_of_lt earlier
    have notAfter : ¬ front.length < slot := Nat.lt_asymm earlier
    have within : slot ≤ front.length := Nat.le_of_lt earlier
    simp only [remaining, other, if_false, remove.shift, notAfter, Option.bind_some,
      visiblePosition?, before, after, List.getElem?_append_left earlier,
      List.take_append_of_le_length within]
  · simp [remaining, visiblePosition?, before, hidden]
  · obtain ⟨d, rfl⟩ := Nat.exists_eq_add_of_lt later
    have other : front.length + d + 1 ≠ front.length := by omega
    simp only [remaining, other, if_false, remove.shift, later, if_true, Option.bind_some,
      visiblePosition?, before, after]
    simp [Nat.add_assoc, List.getElem?_append_right, List.take_length_add_append, hidden]

/-- Removing a hidden entry is a part of dropping them all. -/
theorem dropHidden_of_remove (indexed : s.Indexed) (hidden : c.hidden = true)
    (removed : s.remove index = .ok (c, t)) : t.dropHidden = s.dropHidden := by
  obtain ⟨present, after⟩ := configs_of_remove removed
  obtain ⟨front, back, before, rest, rfl⟩ := exists_split present
  rw [rest] at after
  have visible : t.configs.filter (fun c => !c.hidden) =
      s.configs.filter fun c => !c.hidden := by
    rw [after, before]
    simp [hidden]
  rw [dropHidden_eq (indexed_remove indexed removed), dropHidden_eq indexed, visible,
    ← funext (visiblePosition?_of_split before after hidden),
    ← renumbered_renumbered s (s.configs.eraseIdx front.length), ← eq_of_remove indexed removed]

theorem dropHidden_of_visible (visible : ∀ c ∈ s.configs, c.hidden = false) :
    s.dropHidden = s := by
  unfold dropHidden
  rw [if_neg (by simpa using visible)]

theorem dropHidden_dropHidden (s : ConfigSet) : s.dropHidden.dropHidden = s.dropHidden := by
  apply dropHidden_of_visible
  rw [configs_dropHidden]
  intro c remains
  simpa using (List.mem_filter.mp remains).2

theorem remove_of_present (present : s.configs[index]? = some c) :
    ∃ t, s.remove index = .ok (c, t) := by
  simp [remove, present]

end Renumbering

section Positions

variable {s t : ConfigSet} {c : Config} {index : Nat} {positions : List Nat}

/-- The positions are those of the hidden entries, the last one first. -/
structure ListsHidden (s : ConfigSet) (positions : List Nat) : Prop where
  descending : positions.Pairwise (· > ·)
  hidden : ∀ i, i ∈ positions ↔ ∃ c, s.configs[i]? = some c ∧ c.hidden = true

theorem listsHidden_hiddenPositions (s : ConfigSet) :
    s.ListsHidden s.hiddenPositions.reverse := by
  refine ⟨List.pairwise_reverse.mpr List.pairwise_findIdxs, ?_⟩
  intro i
  rw [List.mem_reverse, hiddenPositions, List.mem_findIdxs_iff_exists_getElem_pos]
  constructor
  · rintro ⟨within, hidden⟩
    exact ⟨s.configs[i], List.getElem?_eq_getElem within, hidden⟩
  · rintro ⟨c, present, hidden⟩
    obtain ⟨within, rfl⟩ := List.getElem?_eq_some_iff.mp present
    exact ⟨within, hidden⟩

/-- Once the last of them is gone, the others are where they were. -/
theorem ListsHidden.remove (lists : s.ListsHidden (index :: positions))
    (after : t.configs = s.configs.eraseIdx index) : t.ListsHidden positions := by
  obtain ⟨below, descending⟩ := List.pairwise_cons.mp lists.descending
  refine ⟨descending, ?_⟩
  intro i
  rw [after]
  rcases Nat.lt_or_ge i index with earlier | later
  · rw [List.getElem?_eraseIdx_of_lt earlier, ← lists.hidden i, List.mem_cons]
    exact (or_iff_right (Nat.ne_of_lt earlier)).symm
  · have gone : i ∉ positions := fun listed => Nat.not_lt.mpr later (below i listed)
    have visible : i + 1 ∉ index :: positions := by
      rw [List.mem_cons, not_or]
      exact ⟨by omega, fun listed => Nat.not_lt.mpr (Nat.le_succ_of_le later) (below _ listed)⟩
    rw [List.getElem?_eraseIdx_of_ge later, ← lists.hidden (i + 1)]
    exact iff_of_false gone visible

theorem removeAll_hidden (indexed : s.Indexed) (lists : s.ListsHidden positions) :
    s.removeAll positions = .ok s.dropHidden := by
  induction positions generalizing s with
  | nil =>
    have visible : ∀ c ∈ s.configs, c.hidden = false := by
      intro c present
      obtain ⟨i, found⟩ := List.mem_iff_getElem?.mp present
      rw [Bool.eq_false_iff]
      exact fun hidden => List.not_mem_nil ((lists.hidden i).mpr ⟨c, found, hidden⟩)
    rw [removeAll, dropHidden_of_visible visible]
  | cons index positions ih =>
    obtain ⟨c, present, hidden⟩ := (lists.hidden index).mp List.mem_cons_self
    obtain ⟨t, removed⟩ := remove_of_present present
    have rest := ih (indexed_remove indexed removed) (lists.remove (configs_of_remove removed).2)
    rw [dropHidden_of_remove indexed hidden removed] at rest
    rw [removeAll, removed]
    exact rest

end Positions

namespace Cursor

variable {k later : Cursor} {c : Config}

theorem eq_of_advance (produced : k.advance = (some c, later)) :
    k.set.configs[k.next]? = some c ∧ later = ⟨k.set, k.next + 1, .produced k.next⟩ := by
  unfold advance at produced
  split at produced
  · obtain ⟨same, rfl⟩ := Prod.mk.inj produced
    exact ⟨same ▸ ‹_›, rfl⟩
  · simp at produced

theorem eq_of_remove {set : ConfigSet} {next index : Nat}
    (removed : Cursor.remove ⟨set, next, .produced index⟩ = .ok (c, later)) :
    set.remove index = .ok (c, later.set) ∧ later.next = index := by
  simp only [Cursor.remove] at removed
  split at removed
  · contradiction
  · obtain ⟨rfl, rfl⟩ := Prod.mk.inj (Except.ok.inj removed)
    exact ⟨‹_›, rfl⟩

/-- Walks on to the end of the set and removes each hidden entry that it meets. -/
def sweep (k : Cursor) : Except ConfigSet.Error Cursor :=
  match _produced : k.advance with
  | (none, last) => .ok last
  | (some c, later) =>
    if c.hidden then
      match _removed : later.remove with
      | .error refusal => .error refusal
      | .ok (_, rest) => rest.sweep
    else later.sweep
termination_by k.set.configs.length - k.next
decreasing_by
  all_goals
    obtain ⟨present, rfl⟩ := eq_of_advance _produced
    have within := (List.getElem?_eq_some_iff.mp present).1
  · obtain ⟨taken, next⟩ := eq_of_remove _removed
    have size := congrArg List.length (configs_of_remove taken).2
    rw [List.length_eraseIdx_of_lt within] at size
    omega
  · dsimp only
    omega

/-- By induction on the walk. The entries that it has passed are visible. -/
theorem sweep_hidden (indexed : k.set.Indexed)
    (passed : ∀ c ∈ k.set.configs.take k.next, c.hidden = false) :
    k.sweep.map (·.set) = .ok k.set.dropHidden := by
  fun_induction sweep k with
  | case1 k last produced =>
    unfold advance at produced
    split at produced
    · simp at produced
    · rename_i ended
      obtain rfl := (Prod.mk.inj produced).2
      rw [List.take_of_length_le (List.getElem?_eq_none_iff.mp ended)] at passed
      rw [dropHidden_of_visible passed]
      rfl
  | case2 k c later produced hidden refusal refused =>
    obtain ⟨present, rfl⟩ := eq_of_advance produced
    obtain ⟨t, removed⟩ := remove_of_present present
    simp [Cursor.remove, removed] at refused
  | case3 k c later produced hidden d rest removed ih =>
    obtain ⟨present, rfl⟩ := eq_of_advance produced
    obtain ⟨taken, next⟩ := eq_of_remove removed
    obtain ⟨present', after⟩ := configs_of_remove taken
    obtain rfl := Option.some.inj (present.symm.trans present')
    rw [← dropHidden_of_remove indexed hidden taken]
    apply ih (indexed_remove indexed taken)
    rw [after, next, List.take_eraseIdx_eq_take_of_le _ _ _ (Nat.le_refl _)]
    exact passed
  | case4 k c later produced visible ih =>
    obtain ⟨present, rfl⟩ := eq_of_advance produced
    apply ih indexed
    rw [List.take_add_one, present, Option.toList_some]
    have now : c.hidden = false := Bool.eq_false_iff.mpr visible
    simpa [or_imp, forall_and] using ⟨passed, now⟩

end Cursor

end Prediction.ConfigSet
