import Prediction.Proofs.Tree.Join

/-!
Covering trees. A row covers another if, under each return state of that one, it has a parent that
covers the parent there. From that follows that a join covers both of its operands, and everything
that one of them covered.
-/

namespace Prediction.Tree

variable {ps qs : List Branch} {t u v : Tree}

theorem covers_iff : t.covers u = true ↔ t.join u = t := decide_eq_true_iff

theorem covers_self (t : Tree) : t.covers t = true := covers_iff.mpr (join_self t)

theorem covers_outermost_iff : covers .outermost u = true ↔ u = .outermost := by
  rw [covers_iff]
  cases u <;> simp [join, addOutermost]

theorem wildcard_covers (u : Tree) : covers .wildcard u = true := covers_iff.mpr rfl

theorem not_node_covers_wildcard : ¬ covers (.node ps) .wildcard = true := by
  simp [covers_iff, join]

/-- A row covers the outermost context if it has the mark of that context. -/
theorem node_covers_outermost_iff (ascending : Ascending ps) :
    covers (.node ps) .outermost = true ↔ ∃ p, ps.lookup outermostKey = some p := by
  rw [covers_iff, join, Tree.node.injEq]
  rcases widen_cases ascending with ⟨p, found, same⟩ | ⟨lacking, wider⟩
  · simp [found, same]
  · simp [lacking, wider]

theorem node_covers_node_iff (left : Ascending ps) (right : Ascending qs) :
    covers (.node ps) (.node qs) = true ↔
      ∀ k q, qs.lookup k = some q → ∃ p, ps.lookup k = some p ∧ p.covers q = true := by
  have rows : merge ps qs = ps ↔ ∀ k, (merge ps qs).lookup k = ps.lookup k :=
    ⟨fun same k => congrArg (List.lookup k) same, ext_lookup (ascending_merge left right) left⟩
  rw [covers_iff, join, Tree.node.injEq, rows]
  apply forall_congr'
  intro k
  rw [lookup_merge left right]
  cases ps.lookup k <;> cases qs.lookup k <;> simp [covers_iff]

/-- What becomes of a row in a join: the wildcard, or a row that has, under each of its return
states, the parent that was there or a join of it. -/
theorem node_join_cases (ascending : Ascending ps) (right : Canonical v) :
    join (.node ps) v = .wildcard ∨
      ∃ rs, join (.node ps) v = .node rs ∧ Ascending rs ∧ ∀ k p, ps.lookup k = some p →
        rs.lookup k = some p ∨ ∃ r, Canonical r ∧ rs.lookup k = some (p.join r) := by
  cases right with
  | outermost =>
    refine .inr ⟨widen ps, rfl, ascending_widen ascending, ?_⟩
    intro k p found
    rw [lookup_widen ascending]
    split
    · rename_i mark
      subst mark
      simp [found]
    · exact .inl found
  | wildcard => exact .inl rfl
  | @node rs row parents =>
    refine .inr ⟨merge ps rs, rfl, ascending_merge ascending row.ascending, ?_⟩
    intro k p found
    rw [lookup_merge ascending row.ascending, found]
    cases other : rs.lookup k with
    | none => exact .inl rfl
    | some r => exact .inr ⟨r, parents (k, r) (mem_of_lookup other), rfl⟩

/-- What a tree covers is covered after a join as well. By induction on the tree that is joined: a
parent that covers another one still does so after a join. -/
theorem join_covers_of_covers (left : Canonical t) (covered : Canonical u) (right : Canonical v)
    (covers : t.covers u = true) : (t.join v).covers u = true := by
  induction left generalizing u v with
  | outermost =>
    rw [covers_outermost_iff.mp covers]
    cases right with
    | outermost => exact covers_self _
    | wildcard => exact wildcard_covers _
    | node row _ =>
      refine (node_covers_outermost_iff (ascending_widen row.ascending)).mpr ?_
      simp [lookup_widen row.ascending]
  | wildcard => exact wildcard_covers u
  | @node ps row parents ih =>
    have ascending : Ascending ps := row.ascending
    rcases node_join_cases ascending right with top | ⟨rs, joined, ascending', kept⟩
    · rw [top]
      exact wildcard_covers u
    rw [joined]
    cases covered with
    | outermost =>
      obtain ⟨p, found⟩ := (node_covers_outermost_iff ascending).mp covers
      apply (node_covers_outermost_iff ascending').mpr
      rcases kept outermostKey p found with same | ⟨r, -, more⟩
      · exact ⟨p, same⟩
      · exact ⟨p.join r, more⟩
    | wildcard => exact absurd covers not_node_covers_wildcard
    | node row' parents' =>
      have below := (node_covers_node_iff ascending row'.ascending).mp covers
      apply (node_covers_node_iff ascending' row'.ascending).mpr
      intro k q inside
      obtain ⟨p, found, coversParent⟩ := below k q inside
      rcases kept k p found with same | ⟨r, canonical, more⟩
      · exact ⟨p, same, coversParent⟩
      · have still := ih (k, p) (mem_of_lookup found) (parents' (k, q) (mem_of_lookup inside))
          canonical coversParent
        exact ⟨p.join r, more, still⟩

theorem join_covers_left (left : Canonical t) (right : Canonical u) :
    (t.join u).covers t = true :=
  join_covers_of_covers left left right (covers_self t)

theorem join_covers_right (left : Canonical t) (right : Canonical u) :
    (t.join u).covers u = true := by
  rw [join_comm left right]
  exact join_covers_left right left

theorem covers_antisymm (left : Canonical t) (right : Canonical u) (down : t.covers u = true)
    (up : u.covers t = true) : t = u := by
  rw [← covers_iff.mp down, join_comm left right, covers_iff.mp up]

end Prediction.Tree
