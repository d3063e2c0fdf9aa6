import Prediction.Proofs.Context.Calls

/-!
What the memory of a cache comes to. A join that is not on record when it is asked for is not on
record either once the joins of the parents were made, since those are all for contexts further
down. So every miss puts one more join on record, and where there is room for it none is lost.
-/

namespace Prediction.Context

namespace JoinMemo

/-- How many of so many joins a memory keeps. -/
def bounded (m : JoinMemo) (n : Nat) : Nat :=
  if m.capacity = 0 then n else min m.capacity n

/-- There is room for all that is on record. -/
def Fits (m : JoinMemo) : Prop := m.bounded m.size = m.size

variable {m found later : JoinMemo} {a b c : Context}

theorem bounded_bounded_add (m : JoinMemo) (n k : Nat) :
    m.bounded (m.bounded n + k) = m.bounded (n + k) := by
  unfold bounded
  split <;> omega

theorem bounded_congr (same : later.capacity = m.capacity) (n : Nat) :
    later.bounded n = m.bounded n := by
  rw [bounded, same]
  rfl

theorem lookup?_eq_none_iff :
    m.lookup? a b = none ↔ ∀ e ∈ m.entries, ¬ e.matches a b = true := by
  unfold lookup?
  split
  · rename_i e recorded
    have present := List.mem_of_find?_eq_some recorded
    have answers := List.find?_some recorded
    exact iff_of_false (by simp) fun none => none e present answers
  · rename_i missing
    simpa using missing

/-- Reading a join changes the order of what is on record. -/
theorem perm_of_lookup? (answer : m.lookup? a b = some (c, found)) :
    found.capacity = m.capacity ∧ found.entries.Perm m.entries := by
  unfold lookup? at answer
  split at answer
  · rename_i e recorded
    obtain ⟨-, rfl⟩ := Prod.mk.inj (Option.some.inj answer)
    obtain ⟨answers, before, after, split, others⟩ := List.find?_eq_some_iff_append.mp recorded
    refine ⟨rfl, ?_⟩
    have erased : m.entries.eraseP (·.matches a b) = before ++ after := by
      rw [split, List.eraseP_append_right _ (by simpa using others)]
      exact congrArg (before ++ ·) (List.eraseP_cons_of_pos answers)
    dsimp only
    rw [erased, split]
    exact List.perm_middle.symm
  · contradiction

/-- A join that is not on record is put in front of all others, the last of which is lost if there
is no room for it. -/
theorem entries_store (missing : m.lookup? a b = none) (c : Context) :
    (m.store a b c).entries =
      if m.capacity = 0 then ⟨a, b, c⟩ :: m.entries
      else (⟨a, b, c⟩ :: m.entries).take m.capacity := by
  have kept : m.entries.eraseP (·.matches a b) = m.entries :=
    List.eraseP_of_forall_not (lookup?_eq_none_iff.mp missing)
  rw [store, trim, kept]
  split <;> rfl

theorem size_store (missing : m.lookup? a b = none) (c : Context) :
    (m.store a b c).size = m.bounded (m.size + 1) := by
  rw [size, entries_store missing, bounded]
  split
  · rfl
  · exact List.length_take

end JoinMemo

namespace Cache

variable {known : Set Context} {s : Supply} {cache middle later : Cache} {calls others : List Call}
  {a b c : Context}

/-- No call below two contexts is for the join of these, in either order. -/
theorem Call.Below.not_matches {e : JoinMemo.Entry} (coherent : Coherent s known) (left : a ∈ known)
    (right : b ∈ known) (below : (Call.join e.left e.right e.result).Below a.paths b.paths) :
    ¬ e.matches a b = true := by
  obtain ⟨knownLeft, knownRight⟩ := below.within coherent left right
  obtain ⟨⟨path, inRow, reachesLeft⟩, ⟨path', inRow', reachesRight⟩⟩ := below
  simp only [JoinMemo.Entry.matches, Bool.or_eq_true, Bool.and_eq_true]
  rintro (⟨sameLeft, -⟩ | ⟨sameLeft, sameRight⟩)
  · rw [coherent.eq_of_identical knownLeft left sameLeft] at reachesLeft
    exact Reaches.not_back inRow reachesLeft
  · -- The operands the other way round: each of them would lie below the other.
    rw [coherent.eq_of_identical knownLeft right sameLeft] at reachesLeft
    rw [coherent.eq_of_identical knownRight left sameRight] at reachesRight
    exact Reaches.not_back inRow (reachesLeft.trans (.parent inRow' reachesRight))

/-- What calls leave behind in the memory, and what they were counted as. -/
structure Accounts (cache : Cache) (calls : List Call) (later : Cache) : Prop where
  capacity : later.joins.capacity = cache.joins.capacity
  disabled : cache.enabled = false → later = cache
  grown : cache.misses ≤ later.misses
  /-- Every miss puts one join on record. -/
  size : cache.joins.Fits →
    later.joins.size = cache.joins.bounded (cache.joins.size + (later.misses - cache.misses))
  /-- Nothing but the answers to calls is put on record. -/
  origin : ∀ e ∈ later.joins.entries,
    e ∈ cache.joins.entries ∨ .join e.left e.right e.result ∈ calls
  kept : cache.joins.capacity = 0 → cache.joins.entries ⊆ later.joins.entries
  recorded : cache.enabled = true → cache.joins.capacity = 0 →
    ∀ a b c, .join a b c ∈ calls → ∃ e ∈ later.joins.entries, e.matches a b = true ∧ e.result = c

namespace Accounts

/-- Calls that leave the memory alone. -/
theorem unused (joins : later.joins = cache.joins) (misses : later.misses = cache.misses)
    (disabled : cache.enabled = false → later = cache)
    (none : ∀ call ∈ calls, call.isJoin = false) : cache.Accounts calls later := by
  refine ⟨congrArg _ joins, disabled, misses.ge, ?_, ?_, ?_, ?_⟩
  · intro fits
    rw [joins, misses, Nat.sub_self, Nat.add_zero, fits]
  · exact fun e present => .inl (joins ▸ present)
  · exact fun _ => joins ▸ List.Subset.refl _
  · exact fun _ _ a b c listed => absurd (none _ listed) Bool.noConfusion

theorem refl (cache : Cache) : cache.Accounts [] cache :=
  unused rfl rfl (fun _ => rfl) (List.forall_mem_nil _)

/-- A disabled cache remembers nothing, whatever it is asked for. -/
theorem switchedOff (off : cache.enabled = false) (calls : List Call) :
    cache.Accounts calls cache := by
  refine ⟨rfl, fun _ => rfl, Nat.le_refl _, ?_, fun _ present => .inl present,
    fun _ => List.Subset.refl _, fun on => by simp [off] at on⟩
  intro fits
  rw [Nat.sub_self, Nat.add_zero, fits]

theorem share (cache : Cache) (c : Context) {calls : List Call}
    (none : ∀ call ∈ calls, call.isJoin = false) : cache.Accounts calls (cache.share c).2 := by
  refine unused ?_ ?_ (fun off => by rw [share_disabled off]) none
  · unfold Cache.share
    split <;> rfl
  · unfold Cache.share
    split <;> rfl

theorem append (first : cache.Accounts calls middle) (second : middle.Accounts others later)
    (enabled : middle.enabled = cache.enabled) : cache.Accounts (calls ++ others) later := by
  have bounded (n : Nat) : middle.joins.bounded n = cache.joins.bounded n :=
    JoinMemo.bounded_congr first.capacity n
  refine ⟨second.capacity.trans first.capacity, ?disabled, first.grown.trans second.grown, ?size,
    ?origin, ?kept, ?recorded⟩
  case disabled => exact fun off => (second.disabled (enabled.trans off)).trans (first.disabled off)
  case size =>
    intro fits
    have counted := first.size fits
    have fits' : middle.joins.Fits := by
      rw [JoinMemo.Fits, bounded, counted]
      exact JoinMemo.bounded_bounded_add _ _ 0
    have firstGrown := first.grown
    have secondGrown := second.grown
    rw [second.size fits', bounded, counted, JoinMemo.bounded_bounded_add]
    congr 1
    omega
  case origin =>
    intro e present
    rcases second.origin e present with old | new
    · exact (first.origin e old).imp_right (List.mem_append_left _)
    · exact .inr (List.mem_append_right _ new)
  case kept =>
    exact fun unbounded => List.Subset.trans (first.kept unbounded)
      (second.kept (first.capacity.trans unbounded))
  case recorded =>
    intro on unbounded a b c listed
    rcases List.mem_append.mp listed with earlier | now
    · obtain ⟨e, present, answers⟩ := first.recorded on unbounded a b c earlier
      exact ⟨e, second.kept (first.capacity.trans unbounded) present, answers⟩
    · exact second.recorded (enabled.trans on) (first.capacity.trans unbounded) a b c now

/-- A join is read from the memory. -/
theorem hit {found : JoinMemo} (on : cache.enabled = true)
    (answer : cache.joins.lookup? a b = some (c, found)) :
    cache.Accounts [.join a b c] { cache with joins := found, hits := cache.hits + 1 } := by
  obtain ⟨capacity, perm⟩ := JoinMemo.perm_of_lookup? answer
  refine ⟨capacity, fun off => by simp [on] at off, Nat.le_refl _, ?_, ?_, ?_, ?_⟩
  · intro fits
    rw [Nat.sub_self]
    exact (JoinMemo.size_lookup? answer).trans fits.symm
  · exact fun e present => .inl (perm.subset present)
  · exact fun _ => perm.symm.subset
  · intro _ _ a' b' c' listed
    obtain ⟨rfl, rfl, rfl⟩ := Call.join.inj (List.mem_singleton.mp listed)
    obtain ⟨e, present, matching, result, -⟩ := JoinMemo.exists_of_lookup? answer
    exact ⟨e, perm.symm.subset present, matching, result⟩

/-- A join is made, because it is not on record, and stored after the calls that it takes. -/
theorem miss {nested : List Call} (on : cache.enabled = true) (coherent : Coherent s known)
    (left : a ∈ known) (right : b ∈ known) (missing : cache.joins.lookup? a b = none)
    (below : ∀ call ∈ nested, call.Below a.paths b.paths)
    (joined : Accounts { cache with misses := cache.misses + 1 } nested later) (c : Context) :
    cache.Accounts (nested ++ [.join a b c])
      { later with joins := later.joins.store a b c } := by
  -- What the nested calls put on record is for contexts further down.
  have absent : later.joins.lookup? a b = none := by
    refine JoinMemo.lookup?_eq_none_iff.mpr fun e present => ?_
    rcases joined.origin e present with old | new
    · exact JoinMemo.lookup?_eq_none_iff.mp missing e old
    · exact (below _ new).not_matches coherent left right
  have entries (unbounded : cache.joins.capacity = 0) :
      (later.joins.store a b c).entries = ⟨a, b, c⟩ :: later.joins.entries := by
    rw [JoinMemo.entries_store absent, if_pos (joined.capacity.trans unbounded)]
  have grown : cache.misses + 1 ≤ later.misses := joined.grown
  refine ⟨?capacity, fun off => by simp [on] at off, by dsimp only; omega, ?size, ?origin, ?kept,
    ?recorded⟩
  case capacity => exact (JoinMemo.capacity_store _ _ _ _).trans joined.capacity
  case size =>
    intro fits
    dsimp only
    rw [JoinMemo.size_store absent, joined.size fits, JoinMemo.bounded_congr joined.capacity,
      JoinMemo.bounded_bounded_add]
    congr 1
    dsimp only
    omega
  case origin =>
    refine JoinMemo.forall_store (.inr (List.mem_append_right _ (List.mem_singleton_self _))) ?_
    exact fun e present => (joined.origin e present).imp_right (List.mem_append_left _)
  case kept =>
    intro unbounded e old
    dsimp only
    rw [entries unbounded]
    exact List.mem_cons_of_mem _ (joined.kept unbounded old)
  case recorded =>
    intro _ unbounded a' b' c' listed
    dsimp only
    rw [entries unbounded]
    rcases List.mem_append.mp listed with earlier | last
    · obtain ⟨e, present, answers⟩ := joined.recorded on unbounded a' b' c' earlier
      exact ⟨e, List.mem_cons_of_mem _ present, answers⟩
    · obtain ⟨rfl, rfl, rfl⟩ := Call.join.inj (List.mem_singleton.mp last)
      exact ⟨_, List.mem_cons_self, by simp [JoinMemo.Entry.matches], rfl⟩

end Accounts

end Cache

end Prediction.Context
