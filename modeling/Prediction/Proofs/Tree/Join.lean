import Prediction.Proofs.Tree.Basic

/-!
Joining trees: the join of contexts by value, without instances, digests or a memory. What is found
in a merged row under a return state is the join of what is found in the two rows; from that
equation follow the laws of joins.
-/

namespace Prediction.Tree

/-- Adds the path to the outermost context to a row that lacks it. -/
def widen (ps : List Branch) : List Branch :=
  if ps.getLast?.any (·.1 == outermostKey) then ps else ps ++ [(outermostKey, .outermost)]

def addOutermost : Tree → Tree
  | .node ps => .node (widen ps)
  | t => t

/-- Merges the path `(k, p)` of the left side into the paths of the right side. -/
def mergePath (k : ReturnState) (p : Tree) (joinParent : Tree → Tree)
    (mergeRest : List Branch → List Branch) : List Branch → List Branch
  | [] => (k, p) :: mergeRest []
  | (k', q) :: qs =>
    if k' < k then (k', q) :: mergePath k p joinParent mergeRest qs
    else if k = k' then (k, joinParent q) :: mergeRest qs
    else (k, p) :: mergeRest ((k', q) :: qs)

mutual

def join : Tree → Tree → Tree
  | .outermost, right => right.addOutermost
  | .wildcard, _ => .wildcard
  | .node ps, .outermost => .node (widen ps)
  | .node _, .wildcard => .wildcard
  | .node ps, .node qs => .node (merge ps qs)
termination_by structural left => left

def merge : List Branch → List Branch → List Branch
  | [], qs => qs
  | (k, p) :: ps, qs => mergePath k p (join p) (merge ps) qs
termination_by structural ps => ps

end

/-- Everything that the second tree stands for is in the first one already. -/
def covers (t u : Tree) : Bool := t.join u = t

variable {ps qs : List Branch} {k : ReturnState} {p q t u : Tree}

theorem addOutermost_eq_outermost_iff : t.addOutermost = .outermost ↔ t = .outermost := by
  cases t <;> simp [addOutermost]

@[simp] theorem merge_nil_left (qs : List Branch) : merge [] qs = qs := rfl

@[simp] theorem merge_nil_right (ps : List Branch) : merge ps [] = ps := by
  induction ps with
  | nil => rfl
  | cons path ps ih => simp only [merge, mergePath, ih]

theorem merge_cons_cons (k k' : ReturnState) (p q : Tree) (ps qs : List Branch) :
    merge ((k, p) :: ps) ((k', q) :: qs) =
      if k' < k then (k', q) :: merge ((k, p) :: ps) qs
      else if k = k' then (k, p.join q) :: merge ps qs
      else (k, p) :: merge ps ((k', q) :: qs) := rfl

/-- Induction over a merge: the row with the smaller return state in front is shortened, and rows
that start with one return state are shortened together. -/
theorem merge_induction {α : Type} {motive : (ps qs : List (ReturnState × α)) → Prop}
    (left : ∀ qs, motive [] qs) (right : ∀ ps, motive ps [])
    (below : ∀ k p ps k' q qs, k < k' → motive ps ((k', q) :: qs) →
      motive ((k, p) :: ps) ((k', q) :: qs))
    (equal : ∀ k p ps q qs, motive ps qs → motive ((k, p) :: ps) ((k, q) :: qs))
    (above : ∀ k p ps k' q qs, k' < k → motive ((k, p) :: ps) qs →
      motive ((k, p) :: ps) ((k', q) :: qs))
    (ps qs : List (ReturnState × α)) : motive ps qs := by
  induction ps generalizing qs with
  | nil => exact left qs
  | cons path ps outer =>
    obtain ⟨k, p⟩ := path
    induction qs with
    | nil => exact right _
    | cons path qs inner =>
      obtain ⟨k', q⟩ := path
      have order : k < k' ∨ k = k' ∨ k' < k := by grind
      rcases order with smaller | same | larger
      · exact below k p ps k' q qs smaller (outer _)
      · subst same
        exact equal k p ps q qs (outer _)
      · exact above k p ps k' q qs larger inner

theorem merge_below {k' : ReturnState} (smaller : k < k') :
    merge ((k, p) :: ps) ((k', q) :: qs) = (k, p) :: merge ps ((k', q) :: qs) := by
  have different : k ≠ k' := by grind
  have notAbove : ¬ k' < k := by grind
  rw [merge_cons_cons, if_neg notAbove, if_neg different]

theorem merge_equal :
    merge ((k, p) :: ps) ((k, q) :: qs) = (k, p.join q) :: merge ps qs := by
  have irreflexive : ¬ k < k := by grind
  rw [merge_cons_cons, if_neg irreflexive, if_pos rfl]

theorem merge_above {k' : ReturnState} (larger : k' < k) :
    merge ((k, p) :: ps) ((k', q) :: qs) = (k', q) :: merge ((k, p) :: ps) qs := by
  rw [merge_cons_cons, if_pos larger]

/-- No return state is lost and none is added. -/
theorem keys_merge (ps qs : List Branch) (k : ReturnState) :
    k ∈ (merge ps qs).map (·.1) ↔ k ∈ ps.map (·.1) ∨ k ∈ qs.map (·.1) := by
  induction ps, qs using merge_induction with
  | left qs => simp
  | right ps => simp
  | below k' p ps k'' q qs smaller ih =>
    rw [merge_below smaller, List.map_cons, List.mem_cons, ih, ← or_assoc, ← List.mem_cons,
      ← List.map_cons]
  | equal k' p ps q qs ih =>
    simp only [merge_equal, List.map_cons, List.mem_cons, ih]
    exact or_or_distrib_left
  | above k' p ps k'' q qs larger ih =>
    simp only [merge_above larger, List.map_cons, List.mem_cons, ih]
    exact or_left_comm

theorem above_row {k' : ReturnState} (smaller : k < k') (ascending : Ascending ((k', q) :: qs)) :
    ∀ path ∈ (k', q) :: qs, k < path.1 := by
  intro path present
  rcases List.mem_cons.mp present with rfl | present
  · exact smaller
  · exact UInt32.lt_trans smaller ((ascending_cons.mp ascending).1 path present)

/-- What holds of the paths of both rows, and of joins of paths through one return state, holds of
the merged row. -/
theorem forall_merge {motive : Branch → Prop} (left : ∀ path ∈ ps, motive path)
    (right : ∀ path ∈ qs, motive path)
    (both : ∀ k p q, (k, p) ∈ ps → (k, q) ∈ qs → motive (k, p.join q)) :
    ∀ path ∈ merge ps qs, motive path := by
  induction ps, qs using merge_induction with
  | left qs => exact right
  | right ps => simpa using left
  | below k p ps k' q qs smaller ih =>
    rw [merge_below smaller]
    refine List.forall_mem_cons.mpr ⟨left _ List.mem_cons_self, ih ?_ right ?_⟩
    · exact fun path present => left path (List.mem_cons_of_mem _ present)
    · exact fun j p' q' inLeft inRight => both j p' q' (List.mem_cons_of_mem _ inLeft) inRight
  | equal k p ps q qs ih =>
    rw [merge_equal]
    refine List.forall_mem_cons.mpr
      ⟨both k p q List.mem_cons_self List.mem_cons_self, ih ?_ ?_ ?_⟩
    · exact fun path present => left path (List.mem_cons_of_mem _ present)
    · exact fun path present => right path (List.mem_cons_of_mem _ present)
    · exact fun j p' q' inLeft inRight =>
        both j p' q' (List.mem_cons_of_mem _ inLeft) (List.mem_cons_of_mem _ inRight)
  | above k p ps k' q qs larger ih =>
    rw [merge_above larger]
    refine List.forall_mem_cons.mpr ⟨right _ List.mem_cons_self, ih left ?_ ?_⟩
    · exact fun path present => right path (List.mem_cons_of_mem _ present)
    · exact fun j p' q' inLeft inRight => both j p' q' inLeft (List.mem_cons_of_mem _ inRight)

theorem above_merge (left : ∀ path ∈ ps, k < path.1) (right : ∀ path ∈ qs, k < path.1) :
    ∀ path ∈ merge ps qs, k < path.1 :=
  forall_merge left right fun k p _ inLeft _ => left (k, p) inLeft

theorem ascending_merge (left : Ascending ps) (right : Ascending qs) : Ascending (merge ps qs) := by
  induction ps, qs using merge_induction with
  | left qs => exact right
  | right ps => simpa using left
  | below k p ps k' q qs smaller ih =>
    obtain ⟨leftAbove, leftRest⟩ := ascending_cons.mp left
    rw [merge_below smaller]
    exact ascending_cons.mpr ⟨above_merge leftAbove (above_row smaller right), ih leftRest right⟩
  | equal k p ps q qs ih =>
    obtain ⟨leftAbove, leftRest⟩ := ascending_cons.mp left
    obtain ⟨rightAbove, rightRest⟩ := ascending_cons.mp right
    rw [merge_equal]
    exact ascending_cons.mpr ⟨above_merge leftAbove rightAbove, ih leftRest rightRest⟩
  | above k p ps k' q qs larger ih =>
    obtain ⟨rightAbove, rightRest⟩ := ascending_cons.mp right
    rw [merge_above larger]
    exact ascending_cons.mpr ⟨above_merge (above_row larger left) rightAbove, ih left rightRest⟩

/-- Under each return state a merged row has the join of what the two rows have there. -/
theorem lookup_merge (left : Ascending ps) (right : Ascending qs) (j : ReturnState) :
    (merge ps qs).lookup j = Option.merge join (ps.lookup j) (qs.lookup j) := by
  induction ps, qs using merge_induction with
  | left qs => simp
  | right ps => simp
  | below k p ps k' q qs smaller ih =>
    rw [merge_below smaller]
    by_cases first : j = k
    · subst first
      simp [lookup_of_above (above_row smaller right)]
    · simp only [lookup_cons_of_ne first]
      exact ih (ascending_cons.mp left).2 right
  | equal k p ps q qs ih =>
    rw [merge_equal]
    by_cases first : j = k
    · simp [first]
    · simp only [lookup_cons_of_ne first]
      exact ih (ascending_cons.mp left).2 (ascending_cons.mp right).2
  | above k p ps k' q qs larger ih =>
    rw [merge_above larger]
    by_cases first : j = k'
    · subst first
      simp [lookup_of_above (above_row larger left)]
    · rw [lookup_cons_of_ne first, lookup_cons_of_ne first]
      exact ih left (ascending_cons.mp right).2

theorem row_merge (left : Row (ps.map (·.1))) (right : Row (qs.map (·.1))) :
    Row ((merge ps qs).map (·.1)) := by
  obtain ⟨k, present, regular⟩ := left.regular
  exact ⟨ascending_merge left.ascending right.ascending, k, (keys_merge ps qs k).mpr (.inl present),
    regular⟩

/-- The mark of the outermost context is the last return state of a row that has it. -/
theorem last_marked_iff (ascending : Ascending ps) :
    ps.getLast?.any (·.1 == outermostKey) = true ↔ ∃ t, ps.lookup outermostKey = some t := by
  rcases List.eq_nil_or_concat ps with rfl | ⟨front, last, rfl⟩
  · simp
  · simp only [List.concat_eq_append] at ascending ⊢
    simp only [List.getLast?_append, List.getLast?_singleton, Option.some_or, Option.any_some,
      beq_iff_eq]
    constructor
    · intro marked
      refine ⟨last.2, (lookup_eq_some_iff ascending).mpr ?_⟩
      simp [← marked]
    · rintro ⟨t, found⟩
      rcases List.mem_append.mp (mem_of_lookup found) with inFront | isLast
      · have below := (List.pairwise_append.mp (List.pairwise_map.mp ascending)).2.2
        exact absurd (below _ inFront last (by simp)) (not_above_outermostKey last.1)
      · rw [← List.mem_singleton.mp isLast]

/-- A row either has the mark of the outermost context already, or lacks it and gets it. -/
theorem widen_cases (ascending : Ascending ps) :
    (∃ t, ps.lookup outermostKey = some t ∧ widen ps = ps) ∨
      ps.lookup outermostKey = none ∧ widen ps = ps ++ [(outermostKey, .outermost)] := by
  cases found : ps.lookup outermostKey with
  | some t =>
    have marked := (last_marked_iff ascending).mpr ⟨t, found⟩
    exact .inl ⟨t, rfl, if_pos marked⟩
  | none =>
    refine .inr ⟨rfl, if_neg ?_⟩
    intro marked
    obtain ⟨t, present⟩ := (last_marked_iff ascending).mp marked
    exact absurd (present.symm.trans found) (by simp)

theorem ascending_widen (ascending : Ascending ps) : Ascending (widen ps) := by
  rcases widen_cases ascending with ⟨t, -, same⟩ | ⟨lacking, wider⟩
  · rwa [same]
  · rw [wider, Ascending, List.map_append, List.pairwise_append]
    refine ⟨ascending, List.pairwise_singleton _ _, ?_⟩
    intro k present last marked
    obtain ⟨path, inRow, rfl⟩ := List.mem_map.mp present
    rw [List.mem_singleton.mp marked]
    exact below_outermostKey (lookup_eq_none_iff.mp lacking path inRow)

theorem row_widen (row : Row (ps.map (·.1))) : Row ((widen ps).map (·.1)) := by
  obtain ⟨k, present, regular⟩ := row.regular
  refine ⟨ascending_widen row.ascending, k, ?_, regular⟩
  rcases widen_cases row.ascending with ⟨t, -, same⟩ | ⟨-, wider⟩
  · rwa [same]
  · rw [wider, List.map_append]
    exact List.mem_append_left _ present

theorem lookup_widen (ascending : Ascending ps) (k : ReturnState) :
    (widen ps).lookup k =
      if k = outermostKey then some ((ps.lookup outermostKey).getD .outermost)
      else ps.lookup k := by
  rcases widen_cases ascending with ⟨t, found, same⟩ | ⟨lacking, wider⟩
  · rw [same]
    split
    · simp_all
    · rfl
  · rw [wider, List.lookup_append]
    split
    · simp_all
    · rename_i regular
      simp [lookup_cons_of_ne regular]

/-- What holds of the paths of a row and of the mark holds of the widened row. -/
theorem forall_widen {motive : Branch → Prop} (paths : ∀ path ∈ ps, motive path)
    (mark : motive (outermostKey, .outermost)) : ∀ path ∈ widen ps, motive path := by
  unfold widen
  split
  · exact paths
  · intro path present
    rcases List.mem_append.mp present with old | new
    · exact paths path old
    · rwa [List.mem_singleton.mp new]

theorem canonical_addOutermost (canonical : Canonical t) : Canonical t.addOutermost := by
  cases canonical with
  | outermost => exact .outermost
  | wildcard => exact .wildcard
  | node row parents => exact .node (row_widen row) (forall_widen parents .outermost)

theorem proper_addOutermost (proper : Proper t) : Proper t.addOutermost := by
  cases proper with
  | outermost => exact .outermost
  | wildcard => exact .wildcard
  | node marked parents =>
    exact .node (forall_widen marked fun _ => rfl) (forall_widen parents .outermost)

theorem canonical_join (left : Canonical t) (right : Canonical u) : Canonical (t.join u) := by
  induction left generalizing u with
  | outermost => exact canonical_addOutermost right
  | wildcard => exact .wildcard
  | @node ps row parents ih =>
    cases right with
    | outermost => exact canonical_addOutermost (.node row parents)
    | wildcard => exact .wildcard
    | node row' parents' =>
      refine .node (row_merge row row') (forall_merge parents parents' ?_)
      exact fun k p q inLeft inRight => ih (k, p) inLeft (parents' _ inRight)

theorem proper_join (left : Proper t) (right : Proper u) : Proper (t.join u) := by
  induction left generalizing u with
  | outermost => exact proper_addOutermost right
  | wildcard => exact .wildcard
  | @node ps marked parents ih =>
    cases right with
    | outermost => exact proper_addOutermost (.node marked parents)
    | wildcard => exact .wildcard
    | node marked' parents' =>
      refine .node (forall_merge marked marked' ?_) (forall_merge parents parents' ?_)
      · intro k p q inLeft inRight mark
        have left : p = .outermost := marked _ inLeft mark
        have right : q = .outermost := marked' _ inRight mark
        rw [left, right]
        rfl
      · exact fun k p q inLeft inRight => ih (k, p) inLeft (parents' _ inRight)

theorem merge_self (parents : ∀ path ∈ ps, path.2.join path.2 = path.2) : merge ps ps = ps := by
  induction ps with
  | nil => rfl
  | cons path ps ih =>
    obtain ⟨k, p⟩ := path
    have tails := ih fun path present => parents path (List.mem_cons_of_mem _ present)
    have heads : p.join p = p := parents (k, p) List.mem_cons_self
    rw [merge_equal, heads, tails]

@[simp] theorem join_self (t : Tree) : t.join t = t := by
  induction t with
  | outermost => rfl
  | wildcard => rfl
  | node ps ih => exact congrArg Tree.node (merge_self ih)

theorem join_wildcard (t : Tree) : t.join .wildcard = .wildcard := by
  cases t <;> rfl

theorem join_outermost (t : Tree) : t.join .outermost = t.addOutermost := by
  cases t <;> rfl

/-- A tree that is joined takes no notice of the side it stands on. -/
theorem join_comm (left : Canonical t) (right : Canonical u) : t.join u = u.join t := by
  induction left generalizing u with
  | outermost => exact (join_outermost u).symm
  | wildcard => exact (join_wildcard u).symm
  | @node ps row parents ih =>
    cases right with
    | outermost => rfl
    | wildcard => rfl
    | @node qs row' parents' =>
      refine congrArg Tree.node (ext_lookup (ascending_merge row.ascending row'.ascending)
        (ascending_merge row'.ascending row.ascending) ?_)
      intro k
      rw [lookup_merge row.ascending row'.ascending, lookup_merge row'.ascending row.ascending]
      cases inLeft : ps.lookup k with
      | none => simp
      | some p =>
        cases inRight : qs.lookup k with
        | none => simp
        | some q =>
          have same : p.join q = q.join p :=
            ih (k, p) (mem_of_lookup inLeft) (parents' (k, q) (mem_of_lookup inRight))
          simp [same]

end Prediction.Tree
