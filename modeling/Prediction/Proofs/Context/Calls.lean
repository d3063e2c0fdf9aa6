import Prediction.Proofs.Context.Graph
import Prediction.Proofs.Context.Join

/-!
The calls on a cache that a join takes. The joins of parents go through the cache, one before the
other, and each of them takes further calls unless it is answered from the memory.
-/

namespace Prediction

open Context

/-- A join was looked up and is not on record. -/
def Joiner.missed (j : Joiner) : Joiner :=
  { j with cache := { j.cache with misses := j.cache.misses + 1 } }

namespace Context

/-- A call on a cache, with its answer. -/
inductive Cache.Call where
  | join (left right result : Context)
  | share (argument result : Context)

namespace Cache.Call

def result : Call → Context
  | join _ _ result => result
  | share _ result => result

/-- The value that the answer has to have. -/
def value : Call → Tree
  | join left right _ => left.tree.join right.tree
  | share argument _ => argument.tree

def isJoin : Call → Bool
  | join .. => true
  | share .. => false

/-- The call was for known contexts. -/
def Within (known : Set Context) : Call → Prop
  | join left right _ => left ∈ known ∧ right ∈ known
  | share argument _ => argument ∈ known

/-- The call is a join of a context below one row of paths with one below another. -/
def Below (ps qs : List Path) : Call → Prop
  | join left right _ => (∃ path ∈ ps, path.2.Reaches left) ∧ ∃ path ∈ qs, path.2.Reaches right
  | share .. => False

end Cache.Call

/-- The calls for an answer from the memory, that answer last. A join on record takes no other, and
the calls for any other join are given. -/
def rememberCalls (compute : Joiner → Context × Joiner) (calls : Joiner → List Cache.Call)
    (left right : Context) (j : Joiner) : List Cache.Call :=
  let nested :=
    if j.cache.enabled then
      match j.cache.joins.lookup? left right with
      | some _ => []
      | none => calls j.missed
    else calls j
  nested ++ [.join left right (remember compute left right j).1]

/-- The calls for merging a path with return state `k` into a row. What joining its parent does and
takes, and what the remaining paths take, are given. -/
def mergePathCalls (k : ReturnState) (joinParent : Context → Joiner → Context × Joiner)
    (parentCalls : Context → Joiner → List Cache.Call)
    (restCalls : List Path → Joiner → List Cache.Call) :
    List Path → Joiner → List Cache.Call
  | [], j => restCalls [] j
  | (k', q) :: qs, j =>
    if k' < k then mergePathCalls k joinParent parentCalls restCalls qs j
    else if k = k' then parentCalls q j ++ restCalls qs (joinParent q j).2
    else restCalls ((k', q) :: qs) j

mutual

def joinCalls : Context → Context → Joiner → List Cache.Call
  | left@(.node _ _ ps), right, j =>
    if left.equal right then []
    else match right with
      | .node _ _ qs => mergeCalls ps qs j
      | _ => []
  | _, _, _ => []
termination_by structural left => left

def mergeCalls : List Path → List Path → Joiner → List Cache.Call
  | [], _, _ => []
  | (k, p) :: ps, qs, j =>
    mergePathCalls k (fun q => remember (join p q) p q)
      (fun q => rememberCalls (join p q) (joinCalls p q) p q) (mergeCalls ps) qs j
termination_by structural ps => ps

end

/-- The calls for a join through the memory, that join last. -/
def cachedJoinCalls (left right : Context) (j : Joiner) : List Cache.Call :=
  rememberCalls (left.join right) (left.joinCalls right) left right j

variable {j : Joiner} {a b c p q : Context} {ps qs : List Path} {k k' : ReturnState}

section Remember

variable (compute : Joiner → Context × Joiner) (calls : Joiner → List Cache.Call)

theorem remember_recorded {found : JoinMemo} (on : j.cache.enabled = true)
    (recorded : j.cache.joins.lookup? a b = some (c, found)) :
    remember compute a b j =
        (c, { j with cache := { j.cache with joins := found, hits := j.cache.hits + 1 } }) ∧
      rememberCalls compute calls a b j = [.join a b c] := by
  have answer : remember compute a b j =
      (c, { j with cache := { j.cache with joins := found, hits := j.cache.hits + 1 } }) := by
    rw [remember, if_pos on, recorded]
  refine ⟨answer, ?_⟩
  rw [rememberCalls, answer, if_pos on, recorded]
  rfl

theorem remember_missing (on : j.cache.enabled = true)
    (missing : j.cache.joins.lookup? a b = none) :
    let joined := compute j.missed
    let shared := joined.2.cache.share joined.1
    remember compute a b j = (shared.1, { joined.2 with
        cache := { shared.2 with joins := shared.2.joins.store a b shared.1 } }) ∧
      rememberCalls compute calls a b j = calls j.missed ++ [.join a b shared.1] := by
  intro joined shared
  have answer : remember compute a b j = (shared.1, { joined.2 with
      cache := { shared.2 with joins := shared.2.joins.store a b shared.1 } }) := by
    rw [remember, if_pos on, missing]
    rfl
  refine ⟨answer, ?_⟩
  rw [rememberCalls, answer, if_pos on, missing]

theorem remember_disabled (a b : Context) (off : j.cache.enabled = false) :
    remember compute a b j = compute j ∧
      rememberCalls compute calls a b j = calls j ++ [.join a b (compute j).1] := by
  simp [remember, rememberCalls, off]

end Remember

theorem mem_rememberCalls {compute : Joiner → Context × Joiner} {calls : Joiner → List Cache.Call}
    {call : Cache.Call} (listed : call ∈ rememberCalls compute calls a b j) :
    (∃ j', call ∈ calls j') ∨ call = .join a b (remember compute a b j).1 := by
  rcases List.mem_append.mp listed with nested | last
  · refine .inl ?_
    split at nested
    · split at nested
      · exact absurd nested List.not_mem_nil
      · exact ⟨_, nested⟩
    · exact ⟨_, nested⟩
  · exact .inr (List.mem_singleton.mp last)

theorem mergeCalls_below (smaller : k < k') (j : Joiner) :
    mergeCalls ((k, p) :: ps) ((k', q) :: qs) j = mergeCalls ps ((k', q) :: qs) j := by
  have different : k ≠ k' := by grind
  have notAbove : ¬ k' < k := by grind
  simp only [mergeCalls, mergePathCalls, if_neg notAbove, if_neg different]

theorem mergeCalls_equal (j : Joiner) :
    mergeCalls ((k, p) :: ps) ((k, q) :: qs) j =
      p.cachedJoinCalls q j ++ mergeCalls ps qs (p.cachedJoin q j).2 := by
  have irreflexive : ¬ k < k := by grind
  simp only [mergeCalls, mergePathCalls, if_neg irreflexive, if_pos]
  rfl

theorem mergeCalls_above (larger : k' < k) (j : Joiner) :
    mergeCalls ((k, p) :: ps) ((k', q) :: qs) j = mergeCalls ((k, p) :: ps) qs j := by
  simp only [mergeCalls, mergePathCalls, if_pos larger]

theorem mergeCalls_nil_right (ps : List Path) (j : Joiner) : mergeCalls ps [] j = [] := by
  induction ps with
  | nil => rfl
  | cons path ps ih => simp [mergeCalls, mergePathCalls, ih]

/-- Only nodes that are not equal take calls, those for merging their paths. Nothing else is done
with the cache. -/
theorem joinCalls_cases (a b : Context) (j : Joiner) :
    (a.joinCalls b j = [] ∧ (a.join b j).2.cache = j.cache) ∨
      a.joinCalls b j = mergeCalls a.paths b.paths j ∧
        (a.join b j).2.cache = (mergeAll a.paths b.paths j).2.cache := by
  cases a with
  | outermostAt =>
    refine .inl ⟨rfl, ?_⟩
    unfold join
    split <;> rfl
  | wildcardAt => exact .inl ⟨rfl, rfl⟩
  | node l d ps =>
    unfold joinCalls join
    split
    · exact .inl ⟨rfl, rfl⟩
    · cases b with
      | outermostAt => exact .inl ⟨rfl, rfl⟩
      | wildcardAt => exact .inl ⟨rfl, rfl⟩
      | node l' d' qs =>
        refine .inr ⟨rfl, ?_⟩
        dsimp only
        split
        · rfl
        · split <;> rfl

namespace Cache.Call

variable {call : Call} {known : Set Context}

theorem Below.mono {ps' qs' : List Path} (below : call.Below ps qs) (left : ps ⊆ ps')
    (right : qs ⊆ qs') : call.Below ps' qs' := by
  cases call with
  | join l r result =>
    obtain ⟨⟨path, inLeft, reachesLeft⟩, ⟨path', inRight, reachesRight⟩⟩ := below
    exact ⟨⟨path, left inLeft, reachesLeft⟩, path', right inRight, reachesRight⟩
  | share => contradiction

/-- What is below the paths of two contexts is below them. -/
theorem Below.parents {path path' : Path} (inLeft : path ∈ ps) (inRight : path' ∈ qs)
    (below : call.Below path.2.paths path'.2.paths) : call.Below ps qs := by
  cases call with
  | join l r result =>
    obtain ⟨⟨above, inRow, reachesLeft⟩, ⟨above', inRow', reachesRight⟩⟩ := below
    exact ⟨⟨path, inLeft, .parent inRow reachesLeft⟩,
      path', inRight, .parent inRow' reachesRight⟩
  | share => contradiction

theorem Below.within {s : Supply} (below : call.Below a.paths b.paths) (coherent : Coherent s known)
    (left : a ∈ known) (right : b ∈ known) : call.Within known := by
  cases call with
  | join l r result =>
    obtain ⟨⟨path, inRow, reachesLeft⟩, ⟨path', inRow', reachesRight⟩⟩ := below
    exact ⟨reachesLeft.mem coherent (coherent.parent_of_paths left inRow),
      reachesRight.mem coherent (coherent.parent_of_paths right inRow')⟩
  | share => contradiction

theorem Within.mono {wider : Set Context} (within : call.Within known) (included : known ⊆ wider) :
    call.Within wider := by
  cases call with
  | join => exact ⟨included within.1, included within.2⟩
  | share => exact included within

end Cache.Call

theorem below_of_mem_mergeCalls (parents : ∀ path ∈ ps, ∀ b j, ∀ call ∈ path.2.joinCalls b j,
      call.Below path.2.paths b.paths) :
    ∀ call ∈ mergeCalls ps qs j, call.Below ps qs := by
  induction ps, qs using Tree.merge_induction generalizing j with
  | left qs => exact List.forall_mem_nil _
  | right ps =>
    rw [mergeCalls_nil_right]
    exact List.forall_mem_nil _
  | below k p ps k' q qs smaller ih =>
    rw [mergeCalls_below smaller]
    exact fun call listed => (ih (List.forall_mem_cons.mp parents).2 call listed).mono
      (List.subset_cons_self _ _) (List.Subset.refl _)
  | equal k p ps q qs ih =>
    obtain ⟨first, others⟩ := List.forall_mem_cons.mp parents
    rw [mergeCalls_equal]
    intro call listed
    rcases List.mem_append.mp listed with here | rest
    · rcases mem_rememberCalls here with ⟨j', nested⟩ | rfl
      · have inLeft : (k, p) ∈ (k, p) :: ps := List.mem_cons_self
        have inRight : (k, q) ∈ (k, q) :: qs := List.mem_cons_self
        exact (first q j' call nested).parents inLeft inRight
      · exact ⟨⟨(k, p), List.mem_cons_self, .self p⟩, (k, q), List.mem_cons_self, .self q⟩
    · exact (ih others call rest).mono (List.subset_cons_self _ _) (List.subset_cons_self _ _)
  | above k p ps k' q qs larger ih =>
    rw [mergeCalls_above larger]
    exact fun call listed => (ih parents call listed).mono (List.Subset.refl _)
      (List.subset_cons_self _ _)

/-- All calls that a join takes are for contexts below its operands. -/
theorem below_of_mem_joinCalls (a b : Context) (j : Joiner) :
    ∀ call ∈ a.joinCalls b j, call.Below a.paths b.paths := by
  induction a generalizing b j with
  | outermostAt => exact List.forall_mem_nil _
  | wildcardAt => exact List.forall_mem_nil _
  | node l d ps ih =>
    rcases joinCalls_cases (.node l d ps) b j with ⟨none, -⟩ | ⟨merged, -⟩
    · rw [none]
      exact List.forall_mem_nil _
    · rw [merged]
      exact below_of_mem_mergeCalls ih

theorem within_of_mem_cachedJoinCalls {known : Set Context} {s : Supply} {call : Cache.Call}
    (coherent : Coherent s known) (left : a ∈ known) (right : b ∈ known)
    (listed : call ∈ a.cachedJoinCalls b j) : call.Within known := by
  rcases mem_rememberCalls listed with ⟨j', nested⟩ | rfl
  · exact (below_of_mem_joinCalls a b j' call nested).within coherent left right
  · exact ⟨left, right⟩

end Context

end Prediction
