import Prediction.Context.Stacks
import Prediction.Proofs.Tree.Join

/-!
The stacks of return states that a tree stands for. A join stands for exactly the stacks of its two
sides, and no two trees in proper form stand for the same stacks, so that a tree covers another one
exactly when it stands for all of its stacks.
-/

namespace Prediction

namespace Tree

mutual

def Allows : Tree → List Nat → Prop
  | .outermost, stack => stack = []
  | .wildcard, _ => True
  | .node ps, stack => AllowsSome ps stack
termination_by structural t => t

/-- One of the paths allows the stack. The path to the outermost context pushes nothing. -/
def AllowsSome : List Branch → List Nat → Prop
  | [], _ => False
  | (k, p) :: ps, stack =>
    (if k = outermostKey then stack = []
      else ∃ below, stack = k.toNat :: below ∧ Allows p below) ∨ AllowsSome ps stack
termination_by structural ps => ps

end

end Tree

mutual

theorem Context.allows_tree (c : Context) (stack : List Nat) :
    c.tree.Allows stack ↔ c.Allows stack := by
  match c with
  | .outermostAt _ => rfl
  | .wildcardAt _ => rfl
  | .node _ _ ps => exact Context.allowsSome_treePaths ps stack

theorem Context.allowsSome_treePaths (ps : List Path) (stack : List Nat) :
    Tree.AllowsSome (Context.treePaths ps) stack ↔ Context.AllowsSome ps stack := by
  match ps with
  | [] => rfl
  | (k, p) :: ps =>
    simp only [Context.treePaths, Tree.AllowsSome, Context.AllowsSome, Context.allows_tree p,
      Context.allowsSome_treePaths ps]

end

namespace Tree

variable {ps qs : List Branch} {k : ReturnState} {t u : Tree} {stack : List Nat}

theorem allowsSome_iff : AllowsSome ps stack ↔ ∃ path ∈ ps,
    if path.1 = outermostKey then stack = []
    else ∃ below, stack = path.1.toNat :: below ∧ path.2.Allows below := by
  induction ps with
  | nil => simp [AllowsSome]
  | cons path ps ih => simp [AllowsSome, ih]

theorem allows_node_nil (ascending : Ascending ps) :
    (node ps).Allows [] ↔ ∃ t, ps.lookup outermostKey = some t := by
  simp only [Allows, allowsSome_iff]
  constructor
  · rintro ⟨⟨k, p⟩, present, allowed⟩
    by_cases mark : k = outermostKey
    · subst mark
      exact ⟨p, (lookup_eq_some_iff ascending).mpr present⟩
    · simp [mark] at allowed
  · rintro ⟨t, found⟩
    exact ⟨(outermostKey, t), mem_of_lookup found, by simp⟩

theorem allows_node_cons (ascending : Ascending ps) {n : Nat} {below : List Nat} :
    (node ps).Allows (n :: below) ↔
      ∃ k t, ps.lookup k = some t ∧ k ≠ outermostKey ∧ k.toNat = n ∧ t.Allows below := by
  simp only [Allows, allowsSome_iff]
  constructor
  · rintro ⟨⟨k, p⟩, present, allowed⟩
    by_cases mark : k = outermostKey
    · simp [mark] at allowed
    · simp only [mark, if_false, List.cons.injEq] at allowed
      obtain ⟨rest, ⟨same, rfl⟩, allowed⟩ := allowed
      exact ⟨k, p, (lookup_eq_some_iff ascending).mpr present, mark, same.symm, allowed⟩
  · rintro ⟨k, t, found, regular, rfl, allowed⟩
    exact ⟨(k, t), mem_of_lookup found, by simpa [regular] using allowed⟩

/-- Below a return state, a node stands for the stacks of the parent that is found there. -/
theorem allows_parent (ascending : Ascending ps) (regular : k ≠ outermostKey)
    (found : ps.lookup k = some t) (below : List Nat) :
    (node ps).Allows (k.toNat :: below) ↔ t.Allows below := by
  rw [allows_node_cons ascending]
  constructor
  · rintro ⟨k', t', found', -, same, allowed⟩
    obtain rfl := UInt32.toNat_inj.mp same
    obtain rfl := Option.some.inj (found'.symm.trans found)
    exact allowed
  · intro allowed
    exact ⟨k, t, found, regular, rfl, allowed⟩

theorem allows_addOutermost (canonical : Canonical t) :
    t.addOutermost.Allows stack ↔ stack = [] ∨ t.Allows stack := by
  cases canonical with
  | outermost => simp [addOutermost, Allows]
  | wildcard => simp [addOutermost, Allows]
  | @node ps row _ =>
    have wide := ascending_widen row.ascending
    cases stack with
    | nil => simp [addOutermost, allows_node_nil wide, lookup_widen row.ascending]
    | cons n below =>
      simp only [addOutermost, allows_node_cons wide, allows_node_cons row.ascending,
        lookup_widen row.ascending, reduceCtorEq, false_or]
      refine exists_congr fun k => exists_congr fun p => ?_
      constructor
      · rintro ⟨found, regular, rest⟩
        exact ⟨by simpa only [regular, if_false] using found, regular, rest⟩
      · rintro ⟨found, regular, rest⟩
        exact ⟨by simpa only [regular, if_false] using found, regular, rest⟩

/-- A join stands for exactly the stacks of its two sides. -/
theorem allows_join (left : Canonical t) (right : Canonical u) :
    (t.join u).Allows stack ↔ t.Allows stack ∨ u.Allows stack := by
  induction left generalizing u stack with
  | outermost => exact allows_addOutermost right
  | wildcard => simp [join, Allows]
  | @node ps row parents ih =>
    cases right with
    | outermost =>
      rw [join_outermost, allows_addOutermost (.node row parents), or_comm]
      rfl
    | wildcard => simp [join, Allows]
    | @node qs row' parents' =>
      have merged := ascending_merge row.ascending row'.ascending
      have found (k : ReturnState) := lookup_merge row.ascending row'.ascending k
      cases stack with
      | nil =>
        simp only [join, allows_node_nil merged, allows_node_nil row.ascending,
          allows_node_nil row'.ascending, found]
        cases ps.lookup outermostKey <;> cases qs.lookup outermostKey <;> simp
      | cons n below =>
        simp only [join, allows_node_cons merged, allows_node_cons row.ascending,
          allows_node_cons row'.ascending, ← exists_or, found]
        refine exists_congr fun k => ?_
        cases inLeft : ps.lookup k with
        | none => simp
        | some p =>
          cases inRight : qs.lookup k with
          | none => simp
          | some q =>
            have joined : (p.join q).Allows below ↔ p.Allows below ∨ q.Allows below :=
              ih (k, p) (mem_of_lookup inLeft) (parents' (k, q) (mem_of_lookup inRight))
            simp [joined, and_or_left, exists_or]

theorem exists_allows (canonical : Canonical t) : ∃ stack, t.Allows stack := by
  induction canonical with
  | outermost => exact ⟨[], rfl⟩
  | wildcard => exact ⟨[], trivial⟩
  | node row parents ih =>
    obtain ⟨k, present, regular⟩ := row.regular
    obtain ⟨⟨k, p⟩, inRow, rfl⟩ := List.mem_map.mp present
    obtain ⟨below, allowed⟩ := ih (k, p) inRow
    exact ⟨k.toNat :: below, (allows_node_cons row.ascending).mpr
      ⟨k, p, (lookup_eq_some_iff row.ascending).mpr inRow, regular, rfl, allowed⟩⟩

/-- A node stands for a stack that is not empty, and not for all of those. -/
theorem node_allows_some_not_all (canonical : Canonical (.node ps)) :
    (∃ n below, (node ps).Allows (n :: below)) ∧ ¬ (node ps).Allows [UInt32.size] := by
  have row := canonical.row
  constructor
  · obtain ⟨k, present, regular⟩ := row.regular
    obtain ⟨⟨k, p⟩, inRow, rfl⟩ := List.mem_map.mp present
    obtain ⟨below, allowed⟩ := exists_allows (canonical.parent inRow)
    have found := (lookup_eq_some_iff row.ascending).mpr inRow
    exact ⟨k.toNat, below, (allows_parent row.ascending regular found below).mpr allowed⟩
  · rw [allows_node_cons row.ascending]
    rintro ⟨k, t, -, -, large, -⟩
    exact absurd k.toNat_lt (by simp [large, UInt32.size])

/-- Where nodes stand for the same stacks, a parent of one has a counterpart in the other. -/
theorem counterpart (left : Canonical (.node ps)) (right : Canonical (.node qs))
    (same : ∀ stack, (node ps).Allows stack ↔ (node qs).Allows stack) (regular : k ≠ outermostKey)
    (found : ps.lookup k = some t) :
    ∃ u, qs.lookup k = some u ∧ ∀ stack, t.Allows stack ↔ u.Allows stack := by
  have inLeft := allows_parent left.row.ascending regular found
  obtain ⟨below, allowed⟩ := exists_allows (left.parent (mem_of_lookup found))
  have other := (same (k.toNat :: below)).mp ((inLeft below).mpr allowed)
  obtain ⟨k', u, found', -, key, -⟩ := (allows_node_cons right.row.ascending).mp other
  obtain rfl := UInt32.toNat_inj.mp key
  refine ⟨u, found', ?_⟩
  intro stack
  rw [← inLeft, same, allows_parent right.row.ascending regular found']

theorem lookup_mark (proper : Proper (.node ps)) (found : ps.lookup outermostKey = some t) :
    t = .outermost :=
  proper.marked (mem_of_lookup found) rfl

theorem lookup_mark_eq (left : Ascending ps) (right : Ascending qs)
    (leftProper : Proper (.node ps)) (rightProper : Proper (.node qs))
    (same : (node ps).Allows [] ↔ (node qs).Allows []) :
    ps.lookup outermostKey = qs.lookup outermostKey := by
  rw [allows_node_nil left, allows_node_nil right] at same
  cases inLeft : ps.lookup outermostKey with
  | some p =>
    obtain ⟨q, inRight⟩ := same.mp ⟨p, inLeft⟩
    rw [inRight, lookup_mark leftProper inLeft, lookup_mark rightProper inRight]
  | none =>
    cases inRight : qs.lookup outermostKey with
    | none => rfl
    | some q =>
      obtain ⟨p, found⟩ := same.mpr ⟨q, inRight⟩
      exact absurd (found.symm.trans inLeft) (by simp)

/-- A tree in proper form is known from the stacks that it stands for. -/
theorem eq_of_allows (left : Canonical t) (right : Canonical u) (leftProper : Proper t)
    (rightProper : Proper u) (same : ∀ stack, t.Allows stack ↔ u.Allows stack) : t = u := by
  induction left generalizing u with
  | outermost =>
    cases right with
    | outermost => rfl
    | wildcard => exact absurd ((same [0]).mpr trivial) (by simp [Allows])
    | node row parents =>
      obtain ⟨⟨n, below, allowed⟩, -⟩ := node_allows_some_not_all (.node row parents)
      exact absurd ((same _).mpr allowed) (by simp [Allows])
  | wildcard =>
    cases right with
    | outermost => exact absurd ((same [0]).mp trivial) (by simp [Allows])
    | wildcard => rfl
    | node row parents =>
      exact absurd ((same _).mp trivial) (node_allows_some_not_all (.node row parents)).2
  | @node ps row parents ih =>
    have left : Canonical (.node ps) := .node row parents
    cases right with
    | outermost =>
      obtain ⟨⟨n, below, allowed⟩, -⟩ := node_allows_some_not_all left
      exact absurd ((same _).mp allowed) (by simp [Allows])
    | wildcard => exact absurd ((same _).mpr trivial) (node_allows_some_not_all left).2
    | @node qs row' parents' =>
      have right : Canonical (.node qs) := .node row' parents'
      refine congrArg Tree.node (ext_lookup row.ascending row'.ascending ?_)
      intro k
      by_cases mark : k = outermostKey
      · rw [mark]
        exact lookup_mark_eq row.ascending row'.ascending leftProper rightProper (same [])
      · cases inLeft : ps.lookup k with
        | none =>
          cases inRight : qs.lookup k with
          | none => rfl
          | some q =>
            obtain ⟨p, found, -⟩ :=
              counterpart right left (fun stack => (same stack).symm) mark inRight
            exact absurd (found.symm.trans inLeft) (by simp)
        | some p =>
          obtain ⟨q, inRight, sameBelow⟩ := counterpart left right same mark inLeft
          have equal : p = q := ih (k, p) (mem_of_lookup inLeft)
            (right.parent (mem_of_lookup inRight)) (leftProper.parent (mem_of_lookup inLeft))
            (rightProper.parent (mem_of_lookup inRight)) sameBelow
          rw [inRight, equal]

/-- Covering is inclusion of stacks. -/
theorem covers_iff_allows (left : Canonical t) (right : Canonical u) (leftProper : Proper t)
    (rightProper : Proper u) :
    t.covers u = true ↔ ∀ stack, u.Allows stack → t.Allows stack := by
  simp only [covers, decide_eq_true_eq]
  constructor
  · intro same stack allowed
    rw [← same, allows_join left right]
    exact .inr allowed
  · intro included
    refine eq_of_allows (canonical_join left right) left (proper_join leftProper rightProper)
      leftProper ?_
    intro stack
    rw [allows_join left right]
    exact ⟨fun either => either.elim id (included stack), .inl⟩

end Tree

end Prediction
