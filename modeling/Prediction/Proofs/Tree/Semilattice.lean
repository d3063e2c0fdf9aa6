import Prediction.Proofs.Tree.Covers
import Prediction.Proofs.Tree.Stacks

/-!
Joins as least upper bounds. A join is idempotent, commutative and absorbing for all trees, and
associative for those in proper form. It covers its two sides, and what covers the join covers both
of them; the converse fails exactly where the join adds the path to the outermost context to a row
and the covering tree marks that path, but has something else than the outermost context below it.
-/

namespace Prediction.Tree

variable {ps qs rs : List Branch} {t u v : Tree}

/-- Joining a side in once more changes nothing. -/
theorem join_join_left (left : Canonical t) (right : Canonical u) :
    t.join (t.join u) = t.join u := by
  rw [join_comm left (canonical_join left right)]
  exact covers_iff.mp (join_covers_left left right)

/-- Both sides stand for the same stacks, from which proper trees are known. -/
theorem join_assoc (left : Canonical t) (middle : Canonical u) (right : Canonical v)
    (leftProper : Proper t) (middleProper : Proper u) (rightProper : Proper v) :
    (t.join u).join v = t.join (u.join v) := by
  have front := canonical_join left middle
  have back := canonical_join middle right
  refine eq_of_allows (canonical_join front right) (canonical_join left back)
    (proper_join (proper_join leftProper middleProper) rightProper)
    (proper_join leftProper (proper_join middleProper rightProper)) ?_
  intro stack
  rw [allows_join front right, allows_join left middle, allows_join left back,
    allows_join middle right, or_assoc]

theorem covers_trans (left : Canonical t) (middle : Canonical u) (right : Canonical v)
    (upper : t.covers u = true) (lower : u.covers v = true) : t.covers v = true := by
  rw [← covers_iff.mp upper, join_comm left middle]
  exact join_covers_of_covers middle right left lower

theorem covers_of_covers_join (top : Canonical t) (left : Canonical u) (right : Canonical v)
    (covers : t.covers (u.join v) = true) : t.covers u = true ∧ t.covers v = true :=
  have joined := canonical_join left right
  ⟨covers_trans top joined left covers (join_covers_left left right),
    covers_trans top joined right covers (join_covers_right left right)⟩

/-- In some place of three trees, the first one marks a path as the one to the outermost context
though it has a parent there that does not cover that context, and of the other two one is the
outermost context and the other lacks the mark. -/
inductive Clash : Tree → Tree → Tree → Prop
  | mark {ps : List Branch} {p v : Tree} : ps.lookup outermostKey = some p →
      p.covers .outermost = false → v.covers .outermost = false → Clash (.node ps) .outermost v
  | deeper {ps qs rs : List Branch} {k : ReturnState} {p q r : Tree} : ps.lookup k = some p →
      qs.lookup k = some q → rs.lookup k = some r → Clash p q r →
      Clash (.node ps) (.node qs) (.node rs)
  | symm {t u v : Tree} : Clash t u v → Clash t v u

/-- A tree in proper form has the outermost context below each of its marks. -/
theorem Clash.not_proper (clash : Clash t u v) : ¬ Proper t := by
  induction clash with
  | mark marked endless _ =>
    intro proper
    rw [lookup_mark proper marked, covers_self] at endless
    contradiction
  | deeper inTop _ _ _ ih => exact fun proper => ih (proper.parent (mem_of_lookup inTop))
  | symm _ ih => exact ih

/-- A row without the mark of the outermost context is all that a tree can be which does not cover
that context. -/
theorem eq_node_of_lacking (canonical : Canonical t) (lacking : t.covers .outermost = false) :
    ∃ ps, t = .node ps ∧ ps.lookup outermostKey = none := by
  cases canonical with
  | outermost => simp [covers_self] at lacking
  | wildcard => simp [wildcard_covers] at lacking
  | @node ps row _ =>
    refine ⟨ps, rfl, ?_⟩
    cases marked : ps.lookup outermostKey with
    | none => rfl
    | some p =>
      have covers := (node_covers_outermost_iff row.ascending).mpr ⟨p, marked⟩
      exact absurd covers (by simp [lacking])

/-- The mark that a row gets is covered like any other path. -/
theorem node_covers_widen_iff (left : Ascending ps) (right : Ascending qs)
    (lacking : qs.lookup outermostKey = none) :
    covers (.node ps) (.node (widen qs)) = true ↔
      (∃ p, ps.lookup outermostKey = some p ∧ p.covers .outermost = true) ∧
        covers (.node ps) (.node qs) = true := by
  rw [node_covers_node_iff left (ascending_widen right), node_covers_node_iff left right]
  simp only [lookup_widen right, lacking, Option.getD_none]
  constructor
  · intro all
    refine ⟨all outermostKey .outermost (if_pos rfl), ?_⟩
    intro k q inside
    have regular : k ≠ outermostKey := by
      rintro rfl
      exact absurd (inside.symm.trans lacking) (by simp)
    exact all k q ((if_neg regular).trans inside)
  · rintro ⟨mark, others⟩ k q inside
    split at inside
    · rename_i isMark
      subst isMark
      exact Option.some.inj inside ▸ mark
    · exact others k q inside

theorem Clash.not_covers_join (clash : Clash t u v) (top : Canonical t) (left : Canonical u)
    (right : Canonical v) : ¬ t.covers (u.join v) = true := by
  induction clash with
  | mark marked endless lacking =>
    obtain ⟨qs, rfl, unmarked⟩ := eq_node_of_lacking right lacking
    intro covers
    obtain ⟨⟨p, marked', ends⟩, -⟩ :=
      (node_covers_widen_iff top.row.ascending right.row.ascending unmarked).mp covers
    obtain rfl := Option.some.inj (marked.symm.trans marked')
    exact absurd ends (by simp [endless])
  | @deeper ps qs rs k p q r inTop inLeft inRight _ ih =>
    have merged := ascending_merge left.row.ascending right.row.ascending
    have joined : (merge qs rs).lookup k = some (q.join r) := by
      rw [lookup_merge left.row.ascending right.row.ascending, inLeft, inRight]
      rfl
    intro covers
    obtain ⟨p', inTop', coversParent⟩ :=
      (node_covers_node_iff top.row.ascending merged).mp covers k _ joined
    obtain rfl := Option.some.inj (inTop.symm.trans inTop')
    exact ih (top.parent (mem_of_lookup inTop)) (left.parent (mem_of_lookup inLeft))
      (right.parent (mem_of_lookup inRight)) coversParent
  | symm _ ih =>
    rw [join_comm left right]
    exact ih top right left

/-- A row that covers the outermost context and another tree covers both of them in one. -/
theorem node_covers_addOutermost (left : Canonical (.node ps)) (right : Canonical v)
    (ends : covers (.node ps) .outermost = true) (other : covers (.node ps) v = true)
    (harmonic : ¬ Clash (.node ps) .outermost v) : covers (.node ps) v.addOutermost = true := by
  cases lacking : v.covers .outermost with
  | true => rwa [← join_outermost, covers_iff.mp lacking]
  | false =>
    obtain ⟨qs, rfl, unmarked⟩ := eq_node_of_lacking right lacking
    obtain ⟨p, marked⟩ := (node_covers_outermost_iff left.row.ascending).mp ends
    apply (node_covers_widen_iff left.row.ascending right.row.ascending unmarked).mpr
    refine ⟨⟨p, marked, ?_⟩, other⟩
    rw [← Bool.not_eq_false]
    exact fun endless => harmonic (.mark marked endless lacking)

/-- A row that covers two rows covers their merge, if each of its parents covers the join of what it
covers in both. -/
theorem node_covers_merge (top : Ascending ps) (left : Ascending qs) (right : Ascending rs)
    (coversLeft : covers (.node ps) (.node qs) = true)
    (coversRight : covers (.node ps) (.node rs) = true)
    (both : ∀ k p q r, ps.lookup k = some p → qs.lookup k = some q → rs.lookup k = some r →
      p.covers q = true → p.covers r = true → p.covers (q.join r) = true) :
    covers (.node ps) (.node (merge qs rs)) = true := by
  rw [node_covers_node_iff top left] at coversLeft
  rw [node_covers_node_iff top right] at coversRight
  apply (node_covers_node_iff top (ascending_merge left right)).mpr
  intro k joined inside
  rw [lookup_merge left right] at inside
  cases inLeft : qs.lookup k with
  | none =>
    rw [inLeft, Option.merge_none_left] at inside
    exact coversRight k joined inside
  | some q =>
    cases inRight : rs.lookup k with
    | none =>
      rw [inLeft, inRight, Option.merge_none_right] at inside
      exact coversLeft k joined (inLeft.trans inside)
    | some r =>
      rw [inLeft, inRight] at inside
      obtain rfl := Option.some.inj inside
      obtain ⟨p, inTop, coversQ⟩ := coversLeft k q inLeft
      obtain ⟨p', inTop', coversR⟩ := coversRight k r inRight
      obtain rfl := Option.some.inj (inTop.symm.trans inTop')
      exact ⟨p, inTop, both k p q r inTop inLeft inRight coversQ coversR⟩

/-- By induction on the covering tree. Only the mark that a join adds to a row can be missing. -/
theorem covers_join_of_not_clash (top : Canonical t) (left : Canonical u) (right : Canonical v)
    (coversLeft : t.covers u = true) (coversRight : t.covers v = true)
    (harmonic : ¬ Clash t u v) : t.covers (u.join v) = true := by
  induction top generalizing u v with
  | outermost =>
    rw [covers_outermost_iff.mp coversLeft, covers_outermost_iff.mp coversRight]
    exact covers_self _
  | wildcard => exact wildcard_covers _
  | @node ps row parents ih =>
    have top : Canonical (.node ps) := .node row parents
    cases left with
    | outermost => exact node_covers_addOutermost top right coversLeft coversRight harmonic
    | wildcard => exact absurd coversLeft not_node_covers_wildcard
    | @node qs row' parents' =>
      cases right with
      | outermost =>
        exact node_covers_addOutermost top (.node row' parents') coversRight coversLeft
          fun clash => harmonic clash.symm
      | wildcard => exact absurd coversRight not_node_covers_wildcard
      | @node rs row'' parents'' =>
        refine node_covers_merge row.ascending row'.ascending row''.ascending coversLeft
          coversRight ?_
        intro k p q r inTop inLeft inRight coversQ coversR
        exact ih (k, p) (mem_of_lookup inTop) (parents' _ (mem_of_lookup inLeft))
          (parents'' _ (mem_of_lookup inRight)) coversQ coversR
          fun clash => harmonic (.deeper inTop inLeft inRight clash)

/-- The join is the least upper bound, except where marks clash. -/
theorem covers_join_iff (top : Canonical t) (left : Canonical u) (right : Canonical v) :
    t.covers (u.join v) = true ↔
      (t.covers u = true ∧ t.covers v = true) ∧ ¬ Clash t u v := by
  constructor
  · intro covers
    exact ⟨covers_of_covers_join top left right covers,
      fun clash => clash.not_covers_join top left right covers⟩
  · rintro ⟨⟨coversLeft, coversRight⟩, harmonic⟩
    exact covers_join_of_not_clash top left right coversLeft coversRight harmonic

end Prediction.Tree
