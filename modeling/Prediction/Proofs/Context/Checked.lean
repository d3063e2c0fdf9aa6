import Prediction.Proofs.Context.Comparison
import Prediction.Proofs.Context.Graph
import Prediction.Proofs.Context.Stacks

/-!
Joining and widening with all checks: paths are read by their positions, and what is built is built
from separate lists of parents and return states. On contexts whose rows are in order no check
fails, and the result is that without checks.
-/

namespace Prediction.Context

/-- A check that failed. -/
inductive Fault where
  | path (refusal : PathError)
  | parts (refusal : BuildError)
deriving DecidableEq

namespace Checked

def parent (c : Context) (i : Nat) : Except Fault Context :=
  match c.path i with
  | .error refusal => .error (.path refusal)
  | .ok path => .ok path.2

def returnState (c : Context) (i : Nat) : Except Fault ReturnState :=
  match c.path i with
  | .error refusal => .error (.path refusal)
  | .ok path => .ok path.1

def ofParts (parents : List Context) (ks : List ReturnState) (s : Supply) :
    Except Fault (Context × Supply) :=
  match Context.ofParts parents ks s with
  | .error refusal => .error (.parts refusal)
  | .ok built => .ok built

/-- Everything that is read at so many positions from the given one on. -/
def readFrom {α : Type} (read : Nat → Except Fault α) (i : Nat) : Nat → Except Fault (List α)
  | 0 => .ok []
  | n + 1 => do
    let x ← read i
    let xs ← readFrom read (i + 1) n
    .ok (x :: xs)

/-- Everything that is read at the first so many positions. -/
def readAll {α : Type} (read : Nat → Except Fault α) (n : Nat) : Except Fault (List α) :=
  readFrom read 0 n

def addOutermost (c : Context) (s : Supply) : Except Fault (Context × Supply) :=
  if c.hasOutermost then .ok (c, s)
  else do
    let parents ← readAll (parent c) c.size
    let ks ← readAll (returnState c) c.size
    ofParts (parents ++ [.outermost]) (ks ++ [outermostKey]) s

def remember (compute : Joiner → Except Fault (Context × Joiner)) (left right : Context)
    (j : Joiner) : Except Fault (Context × Joiner) :=
  if j.cache.enabled then
    match j.cache.joins.lookup? left right with
    | some found =>
      .ok (found.1,
        { j with cache := { j.cache with joins := found.2, hits := j.cache.hits + 1 } })
    | none => do
      let joined ← compute { j with cache := { j.cache with misses := j.cache.misses + 1 } }
      let shared := joined.2.cache.share joined.1
      .ok (shared.1, { joined.2 with
        cache := { shared.2 with joins := shared.2.joins.store left right shared.1 } })
  else compute j

/-- What was gathered of the paths of a join, and whether it is still a part of either side. -/
structure Gathered where
  parents : List Context
  returnStates : List ReturnState
  isLeft : Bool
  isRight : Bool

namespace Gathered

def start : Gathered := ⟨[], [], true, true⟩

def push (g : Gathered) (p : Context) (k : ReturnState) (asLeft asRight : Bool) : Gathered :=
  ⟨g.parents ++ [p], g.returnStates ++ [k], g.isLeft && asLeft, g.isRight && asRight⟩

/-- Takes over a path of one side, which the other side does not have. -/
def take (g : Gathered) (fromLeft : Bool) (c : Context) (i : Nat) : Except Fault Gathered := do
  let p ← parent c i
  let k ← returnState c i
  .ok (g.push p k fromLeft !fromLeft)

def takeAll (g : Gathered) (fromLeft : Bool) (c : Context) (i : Nat) : Except Fault Gathered :=
  if i < c.size then do
    let taken ← g.take fromLeft c i
    taken.takeAll fromLeft c (i + 1)
  else .ok g
termination_by c.size - i

end Gathered

/-- Goes through the paths of both sides, from the given positions on. -/
def gather (left right : Context)
    (joinParents : Nat → Nat → Joiner → Except Fault (Context × Joiner)) (l r : Nat) (g : Gathered)
    (j : Joiner) : Except Fault (Gathered × Joiner) :=
  if l < left.size ∧ r < right.size then do
    let k ← returnState left l
    let k' ← returnState right r
    if k = k' then do
      let joined ← joinParents l r j
      let p ← parent left l
      let q ← parent right r
      gather left right joinParents (l + 1) (r + 1)
        (g.push joined.1 k (joined.1.same p) (joined.1.same q)) joined.2
    else if k < k' then do
      let taken ← g.take true left l
      gather left right joinParents (l + 1) r taken j
    else do
      let taken ← g.take false right r
      gather left right joinParents l (r + 1) taken j
  else do
    let taken ← g.takeAll true left l
    let all ← taken.takeAll false right r
    .ok (all, j)
termination_by (left.size - l) + (right.size - r)

/-- Joins two contexts with one path each, through one return state. -/
def joinSingle (left right : Context) (k : ReturnState)
    (joinParents : Nat → Nat → Joiner → Except Fault (Context × Joiner)) (j : Joiner) :
    Except Fault (Context × Joiner) := do
  let joined ← joinParents 0 0 j
  let p ← parent left 0
  if joined.1.same p then .ok (left, joined.2)
  else do
    let q ← parent right 0
    if joined.1.same q then .ok (right, joined.2)
    else
      let built := joined.1.push k joined.2.supply
      .ok (built.1, { joined.2 with supply := built.2 })

def joinRows (left right : Context)
    (joinParents : Nat → Nat → Joiner → Except Fault (Context × Joiner)) (j : Joiner) :
    Except Fault (Context × Joiner) := do
  let gathered ← gather left right joinParents 0 0 .start j
  if gathered.1.isLeft then .ok (left, gathered.2)
  else if gathered.1.isRight then .ok (right, gathered.2)
  else do
    let built ← ofParts gathered.1.parents gathered.1.returnStates gathered.2.supply
    .ok (built.1, { gathered.2 with supply := built.2 })

def joinNodes (left right : Context)
    (joinParents : Nat → Nat → Joiner → Except Fault (Context × Joiner)) (j : Joiner) :
    Except Fault (Context × Joiner) :=
  if left.size = 1 ∧ right.size = 1 then do
    let k ← returnState left 0
    let k' ← returnState right 0
    if k = k' then joinSingle left right k joinParents j
    else joinRows left right joinParents j
  else joinRows left right joinParents j

def joinOutermost (c : Context) (j : Joiner) : Except Fault (Context × Joiner) := do
  let widened ← addOutermost c j.supply
  .ok (widened.1, { j with supply := widened.2 })

theorem mem_of_parent {c p : Context} {i : Nat} (read : parent c i = .ok p) :
    ∃ path ∈ c.paths, path.2 = p := by
  unfold parent at read
  split at read
  · contradiction
  · rename_i path found
    exact ⟨path, List.mem_of_getElem? (path_eq_ok_iff.mp found), Except.ok.inj read⟩

def join (left right : Context) (j : Joiner) : Except Fault (Context × Joiner) :=
  if left.same right then .ok (left, j)
  else if left.isEmpty then
    if left.isWildcard then .ok (left, j) else joinOutermost right j
  else if right.isEmpty then
    if right.isWildcard then .ok (right, j) else joinOutermost left j
  else
    joinNodes left right (fun l r j =>
      match _read : parent left l with
      | .error fault => .error fault
      | .ok p => do
        let q ← parent right r
        remember (join p q) p q j) j
termination_by left
decreasing_by
  obtain ⟨path, inRow, rfl⟩ := mem_of_parent _read
  exact Reaches.sizeOf_parent inRow

def cachedJoin (left right : Context) (j : Joiner) : Except Fault (Context × Joiner) :=
  remember (join left right) left right j

/-- Covering is joining without a memory and finding the first context unchanged. -/
def covers (a b : Context) (s : Supply) : Except Fault Bool := do
  let joined ← join a b ⟨s, .disabled⟩
  .ok (joined.1.same a)

variable {α β : Type} {c left right : Context} {path : Path} {i l r : Nat} {ps qs : List Path}
  {j : Joiner}

@[simp] theorem ok_bind (a : α) (f : α → Except Fault β) : (Except.ok a >>= f) = f a := rfl

section Reading

theorem parent_eq (found : c.paths[i]? = some path) : parent c i = .ok path.2 := by
  rw [parent, path_eq_ok_iff.mpr found]

theorem returnState_eq (found : c.paths[i]? = some path) : returnState c i = .ok path.1 := by
  rw [returnState, path_eq_ok_iff.mpr found]

theorem readFrom_eq {read : Nat → Except Fault α} (xs : List α)
    (reads : ∀ k x, xs[k]? = some x → read (i + k) = .ok x) :
    readFrom read i xs.length = .ok xs := by
  induction xs generalizing i with
  | nil => rfl
  | cons x xs ih =>
    have first : read i = .ok x := reads 0 x rfl
    have others := ih (i := i + 1) fun k y found => by
      rw [Nat.add_assoc, Nat.add_comm 1]
      exact reads (k + 1) y found
    rw [List.length_cons, readFrom, first, ok_bind, others, ok_bind]

/-- Reading what stands first in a row. -/
theorem readAll_eq {read : Nat → Except Fault α} (value : Path → α)
    (reads : ∀ {i path}, c.paths[i]? = some path → read i = .ok (value path))
    (split : c.paths = ps ++ qs) : readAll read ps.length = .ok (ps.map value) := by
  have inOrder : ∀ k x, (ps.map value)[k]? = some x → read (0 + k) = .ok x := by
    intro k x found
    obtain ⟨path, inRow, rfl⟩ := Option.map_eq_some_iff.mp (List.getElem?_map ▸ found)
    rw [Nat.zero_add]
    refine reads ?_
    rw [split, List.getElem?_append_left (List.getElem?_eq_some_iff.mp inRow).1, inRow]
  have all := readFrom_eq (ps.map value) inOrder
  rwa [List.length_map] at all

theorem parents_eq (c : Context) : readAll (parent c) c.size = .ok (c.paths.map (·.2)) :=
  readAll_eq (·.2) parent_eq (List.append_nil _).symm

theorem returnStates_eq (c : Context) :
    readAll (returnState c) c.size = .ok (c.paths.map (·.1)) :=
  readAll_eq (·.1) returnState_eq (List.append_nil _).symm

end Reading

section Building

/-- What is built from the two halves of a row is built from the row. -/
theorem ofParts_eq (ascending : (ps.map (·.1)).Pairwise (· < ·)) (s : Supply) :
    ofParts (ps.map (·.2)) (ps.map (·.1)) s = .ok (ofPaths ps s) := by
  have accepted : Context.ofParts (ps.map (·.2)) (ps.map (·.1)) s = .ok (ofPaths ps s) := by
    have ordered := (strictlyAscending_iff _).mpr ascending
    rw [Context.ofParts, if_neg (by simp), if_neg (not_not_intro ordered), List.zip_map']
    exact congrArg (fun row => Except.ok (ofPaths row s)) (List.map_id ps)
  rw [ofParts, accepted]

theorem addOutermost_eq (canonical : c.tree.Canonical) (s : Supply) :
    addOutermost c s = .ok (c.addOutermost s) := by
  cases marked : c.hasOutermost with
  | true => simp [addOutermost, Context.addOutermost, marked]
  | false =>
    cases c with
    | outermostAt => contradiction
    | wildcardAt => contradiction
    | node l d ps =>
      have ascending :
          ((ps ++ [(outermostKey, Context.outermost)]).map (·.1)).Pairwise (· < ·) := by
        rw [← keys_treePaths, ← widen_of_lacking marked]
        exact Tree.ascending_widen (canonical.row).ascending
      have built := ofParts_eq ascending s
      rw [List.map_append, List.map_append] at built
      simp only [addOutermost, Context.addOutermost, marked, Bool.false_eq_true, if_false,
        parents_eq, returnStates_eq, ok_bind]
      exact built

end Building

section Gathering

/-- Everything that a merge delivers, put behind what was gathered before. -/
def Gathered.extend (g : Gathered) (m : Merge) : Gathered :=
  ⟨g.parents ++ m.paths.map (·.2), g.returnStates ++ m.paths.map (·.1), g.isLeft && m.isLeft,
    g.isRight && m.isRight⟩

theorem extend_push (g : Gathered) (p : Context) (k : ReturnState) (asLeft asRight : Bool)
    (m : Merge) : (g.push p k asLeft asRight).extend m =
      g.extend ⟨(k, p) :: m.paths, asLeft && m.isLeft, asRight && m.isRight⟩ := by
  simp [Gathered.extend, Gathered.push, Bool.and_assoc]

theorem extend_extend (g : Gathered) (m m' : Merge) : (g.extend m).extend m' =
    g.extend ⟨m.paths ++ m'.paths, m.isLeft && m'.isLeft, m.isRight && m'.isRight⟩ := by
  simp [Gathered.extend, Bool.and_assoc]

theorem of_drop_eq_cons (rest : c.paths.drop i = path :: ps) :
    i < c.size ∧ c.paths[i]? = some path ∧ c.paths.drop (i + 1) = ps := by
  have found : c.paths[i]? = some path := by
    rw [← Nat.add_zero i, ← List.getElem?_drop, rest]
    rfl
  refine ⟨(List.getElem?_eq_some_iff.mp found).1, found, ?_⟩
  rw [← List.drop_drop, rest]
  rfl

theorem size_le_of_drop_eq_nil (rest : c.paths.drop i = []) : c.size ≤ i :=
  List.drop_eq_nil_iff.mp rest

theorem take_eq (found : c.paths[i]? = some path) (g : Gathered) (fromLeft : Bool) :
    g.take fromLeft c i = .ok (g.push path.2 path.1 fromLeft !fromLeft) := by
  rw [Gathered.take, parent_eq found, ok_bind, returnState_eq found, ok_bind]

theorem takeAll_eq (rest : c.paths.drop i = ps) (g : Gathered) (fromLeft : Bool) :
    g.takeAll fromLeft c i =
      .ok (g.extend ⟨ps, fromLeft || ps.isEmpty, !fromLeft || ps.isEmpty⟩) := by
  induction ps generalizing i g with
  | nil =>
    rw [Gathered.takeAll, if_neg (size_le_of_drop_eq_nil rest).not_gt]
    simp [Gathered.extend]
  | cons path ps ih =>
    obtain ⟨within, found, rest⟩ := of_drop_eq_cons rest
    rw [Gathered.takeAll, if_pos within, take_eq found, ok_bind, ih rest, extend_push]
    cases fromLeft <;> simp

/-- By induction on what is left of both rows. -/
theorem gather_eq {joinParents : Nat → Nat → Joiner → Except Fault (Context × Joiner)}
    (joins : ∀ l r k p k' q, left.paths[l]? = some (k, p) → right.paths[r]? = some (k', q) →
      ∀ j, joinParents l r j = .ok (p.cachedJoin q j))
    (restLeft : left.paths.drop l = ps) (restRight : right.paths.drop r = qs) (g : Gathered)
    (j : Joiner) :
    gather left right joinParents l r g j =
      .ok (g.extend (mergeAll ps qs j).1, (mergeAll ps qs j).2) := by
  induction ps, qs using Tree.merge_induction generalizing l r g j with
  | left qs =>
    have none : ¬ l < left.size := (size_le_of_drop_eq_nil restLeft).not_gt
    rw [gather, if_neg fun within => none within.1, takeAll_eq restLeft, ok_bind,
      takeAll_eq restRight, ok_bind, extend_extend]
    simp [mergeAll]
  | right ps =>
    have none : ¬ r < right.size := (size_le_of_drop_eq_nil restRight).not_gt
    rw [gather, if_neg fun within => none within.2, takeAll_eq restLeft, ok_bind,
      takeAll_eq restRight, ok_bind, extend_extend, mergeAll_nil_right]
    simp
  | below k p ps k' q qs smaller ih =>
    obtain ⟨withinLeft, found, restLeft'⟩ := of_drop_eq_cons restLeft
    obtain ⟨withinRight, found', -⟩ := of_drop_eq_cons restRight
    have different : k ≠ k' := by grind
    rw [gather, if_pos ⟨withinLeft, withinRight⟩, returnState_eq found, ok_bind,
      returnState_eq found', ok_bind, if_neg different, if_pos smaller, take_eq found, ok_bind,
      ih restLeft' restRight, extend_push, mergeAll_below smaller]
    simp
  | equal k p ps q qs ih =>
    obtain ⟨withinLeft, found, restLeft'⟩ := of_drop_eq_cons restLeft
    obtain ⟨withinRight, found', restRight'⟩ := of_drop_eq_cons restRight
    rw [gather, if_pos ⟨withinLeft, withinRight⟩, returnState_eq found, ok_bind,
      returnState_eq found', ok_bind, if_pos rfl, joins l r k p k q found found', ok_bind,
      parent_eq found, ok_bind, parent_eq found', ok_bind, ih restLeft' restRight', extend_push,
      mergeAll_equal, same_eq_equal, same_eq_equal]
    rfl
  | above k p ps k' q qs larger ih =>
    -- The left row keeps its first path, which is compared with the rest of the right row next.
    obtain ⟨withinLeft, found, -⟩ := of_drop_eq_cons restLeft
    obtain ⟨withinRight, found', restRight'⟩ := of_drop_eq_cons restRight
    have different : k ≠ k' := by grind
    have notBelow : ¬ k < k' := by grind
    rw [gather, if_pos ⟨withinLeft, withinRight⟩, returnState_eq found, ok_bind,
      returnState_eq found', ok_bind, if_neg different, if_neg notBelow, take_eq found', ok_bind,
      ih restLeft restRight', extend_push, mergeAll_above larger]
    simp

end Gathering

section Joining

theorem remember_eq {checked : Joiner → Except Fault (Context × Joiner)}
    {compute : Joiner → Context × Joiner} (same : ∀ j, checked j = .ok (compute j))
    (left right : Context) (j : Joiner) :
    remember checked left right j = .ok (Context.remember compute left right j) := by
  unfold remember Context.remember
  split
  · cases j.cache.joins.lookup? left right with
    | some found => rfl
    | none =>
      dsimp only
      rw [same, ok_bind]
  · exact same j

/-- The keys of a merge are those of the merge of the trees, whatever the joins of parents are. -/
theorem keys_mergeAll (ps qs : List Path) (j : Joiner) :
    (mergeAll ps qs j).1.paths.map (·.1) =
      (Tree.merge (treePaths ps) (treePaths qs)).map (·.1) := by
  induction ps, qs using Tree.merge_induction generalizing j with
  | left qs => simp [mergeAll, treePaths]
  | right ps => simp [mergeAll_nil_right, treePaths]
  | below k p ps k' q qs smaller ih =>
    simp only [mergeAll_below smaller, treePaths, Tree.merge_below smaller, List.map_cons]
    exact congrArg (k :: ·) (ih j)
  | equal k p ps q qs ih =>
    simp only [mergeAll_equal, treePaths, Tree.merge_equal, List.map_cons]
    exact congrArg (k :: ·) (ih _)
  | above k p ps k' q qs larger ih =>
    simp only [mergeAll_above larger, treePaths, Tree.merge_above larger, List.map_cons]
    exact congrArg (k' :: ·) (ih j)

/-- What becomes of a merge: either side itself, or a new context. -/
def settle (left right : Context) (merged : Merge × Joiner) : Context × Joiner :=
  if merged.1.isLeft then (left, merged.2)
  else if merged.1.isRight then (right, merged.2)
  else
    let built := Context.ofPaths merged.1.paths merged.2.supply
    (built.1, { merged.2 with supply := built.2 })

theorem join_nodes {l l' : Label} {d d' : Digest}
    (different : (node l d ps).equal (node l' d' qs) = false) (j : Joiner) :
    (node l d ps).join (node l' d' qs) j =
      settle (node l d ps) (node l' d' qs) (mergeAll ps qs j) := by
  rw [Context.join, if_neg (by simp [different])]
  rfl

variable {joinParents : Nat → Nat → Joiner → Except Fault (Context × Joiner)}
  (joins : ∀ l r k p k' q, left.paths[l]? = some (k, p) → right.paths[r]? = some (k', q) →
    ∀ j, joinParents l r j = .ok (p.cachedJoin q j))

include joins

/-- One path on either side is a row of its own. -/
theorem joinSingle_eq {k : ReturnState} {p q : Context} (onlyLeft : left.paths = [(k, p)])
    (onlyRight : right.paths = [(k, q)]) (j : Joiner) :
    joinSingle left right k joinParents j =
      .ok (settle left right (mergeAll left.paths right.paths j)) := by
  have found : left.paths[0]? = some (k, p) := by rw [onlyLeft]; rfl
  have found' : right.paths[0]? = some (k, q) := by rw [onlyRight]; rfl
  rw [joinSingle, joins 0 0 k p k q found found', ok_bind, parent_eq found, ok_bind, onlyLeft,
    onlyRight, mergeAll_equal, same_eq_equal, parent_eq found', ok_bind, same_eq_equal]
  simp only [settle, mergeAll, List.isEmpty_nil, Bool.and_true, apply_ite Except.ok]
  rfl

theorem joinRows_eq (ascending : ∀ j,
      ((mergeAll left.paths right.paths j).1.paths.map (·.1)).Pairwise (· < ·)) (j : Joiner) :
    joinRows left right joinParents j =
      .ok (settle left right (mergeAll left.paths right.paths j)) := by
  have gathered := gather_eq joins (l := 0) (r := 0) List.drop_zero List.drop_zero .start j
  rw [joinRows, gathered, ok_bind]
  simp only [settle, Gathered.extend, Gathered.start, List.nil_append, Bool.true_and,
    ofParts_eq (ascending j), ok_bind, apply_ite Except.ok]

theorem joinNodes_eq (ascending : ∀ j,
      ((mergeAll left.paths right.paths j).1.paths.map (·.1)).Pairwise (· < ·)) (j : Joiner) :
    joinNodes left right joinParents j =
      .ok (settle left right (mergeAll left.paths right.paths j)) := by
  have rows := joinRows_eq joins ascending j
  unfold joinNodes
  split
  · rename_i single
    obtain ⟨⟨k, p⟩, onlyLeft⟩ := List.length_eq_one_iff.mp single.1
    obtain ⟨⟨k', q⟩, onlyRight⟩ := List.length_eq_one_iff.mp single.2
    rw [returnState_eq (by rw [onlyLeft]; rfl), ok_bind,
      returnState_eq (by rw [onlyRight]; rfl), ok_bind]
    split
    · rename_i one
      obtain rfl : k = k' := one
      exact joinSingle_eq joins onlyLeft onlyRight j
    · exact rows
  · exact rows

omit joins

theorem joinOutermost_eq (canonical : c.tree.Canonical) (j : Joiner) :
    joinOutermost c j = .ok (Context.joinOutermost c j) := by
  rw [joinOutermost, addOutermost_eq canonical, ok_bind]
  rfl

/-- By induction on the left context: the joins of its parents pass all checks. -/
theorem join_eq {a b : Context} (left : a.tree.Canonical) (right : b.tree.Canonical) (j : Joiner) :
    join a b j = .ok (a.join b j) := by
  induction a generalizing b j with
  | outermostAt l =>
    rw [join, same_eq_equal]
    cases same : (outermostAt l).equal b with
    | true => exact congrArg Except.ok (join_of_equal same j).symm
    | false =>
      rw [Context.join, same, if_neg Bool.false_ne_true, if_neg Bool.false_ne_true]
      exact joinOutermost_eq right j
  | wildcardAt l =>
    rw [join]
    split <;> rfl
  | node l d ps ih =>
    rw [join, same_eq_equal]
    cases same : (node l d ps).equal b with
    | true => exact congrArg Except.ok (join_of_equal same j).symm
    | false =>
      cases b with
      | outermostAt =>
        rw [Context.join, if_neg (by simp)]
        exact joinOutermost_eq left j
      | wildcardAt =>
        rw [Context.join, if_neg (by simp)]
        rfl
      | node l' d' qs =>
        rw [join_nodes same]
        refine joinNodes_eq ?_ ?_ j
        · intro l r k p k' q found found' j
          split
          · rename_i failed
            rw [parent_eq found] at failed
            contradiction
          · rename_i p' read
            rw [parent_eq found] at read
            obtain rfl : p = p' := Except.ok.inj read
            rw [parent_eq found', ok_bind]
            refine remember_eq (fun j => ih (k, p) (List.mem_of_getElem? found) ?_ ?_ j) p q j
            · exact left.parent (mem_treePaths.mpr ⟨(k, p), List.mem_of_getElem? found, rfl⟩)
            · exact right.parent (mem_treePaths.mpr ⟨(k', q), List.mem_of_getElem? found', rfl⟩)
        · intro j
          rw [keys_mergeAll]
          exact Tree.ascending_merge left.row.ascending right.row.ascending

theorem cachedJoin_eq {a b : Context} (left : a.tree.Canonical) (right : b.tree.Canonical)
    (j : Joiner) : cachedJoin a b j = .ok (a.cachedJoin b j) :=
  remember_eq (join_eq left right) a b j

theorem covers_eq {known : Set Context} {s : Supply} {a b : Context} (coherent : Coherent s known)
    (left : a ∈ known) (right : b ∈ known) : covers a b s = .ok (a.covers b) := by
  have uncached : Joiner.Sound known ⟨s, .disabled⟩ := ⟨coherent, Cache.sound_new known false 0⟩
  rw [covers, join_eq (coherent.canonical left) (coherent.canonical right), ok_bind, same_eq_equal]
  exact congrArg Except.ok (Bool.eq_iff_iff.mpr (covers_iff_join uncached left right).symm)

end Joining

end Checked

end Prediction.Context
