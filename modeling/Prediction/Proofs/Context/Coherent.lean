import Mathlib.Data.Set.Insert
import Prediction.Proofs.Tree.Join

/-!
Contexts of one supply. A set of contexts is coherent if its nodes were all built from one supply:
then instances and digests can be trusted, and comparing two contexts is comparing their trees.
Whatever is built from known contexts extends what is known.
-/

namespace Prediction

namespace Context

@[elab_as_elim, induction_eliminator]
theorem induction {motive : Context → Prop} (outermostAt : ∀ l, motive (.outermostAt l))
    (wildcardAt : ∀ l, motive (.wildcardAt l))
    (node : ∀ (l : Label) (d : Digest) (ps : List Path), (∀ path ∈ ps, motive path.2) →
      motive (.node l d ps)) (c : Context) : motive c := by
  refine @Context.rec motive (fun ps => ∀ path ∈ ps, motive path.2) (fun path => motive path.2)
    outermostAt wildcardAt node ?_ ?_ ?_ c
  · intro path present
    contradiction
  · intro first others ofFirst ofOthers path present
    rcases List.mem_cons.mp present with rfl | present
    · exact ofFirst
    · exact ofOthers path present
  · intro k parent ofParent
    exact ofParent

@[simp] theorem keys_treePaths (ps : List Path) :
    (treePaths ps).map (·.1) = ps.map (·.1) := by
  simp [treePaths_eq_map]

theorem mem_treePaths {ps : List Path} {branch : Tree.Branch} :
    branch ∈ treePaths ps ↔ ∃ path ∈ ps, (path.1, path.2.tree) = branch := by
  simp [treePaths_eq_map]

end Context

/-- Contexts that were all built from one supply. With a node its parents are known, its digest is
the one that the supply computes, and no other node has its label. Nothing is asked of empty
contexts, whose kind is all there is to them. -/
structure Coherent (s : Supply) (known : Set Context) : Prop where
  empty : ∀ c : Context, c.isEmpty = true → c ∈ known
  parent : ∀ {l d ps path}, .node l d ps ∈ known → path ∈ ps → path.2 ∈ known
  issued : ∀ {l d ps}, .node l d ps ∈ known → l < s.next
  digested : ∀ {l d ps}, .node l d ps ∈ known →
    d = s.rule.ofPaths (ps.map fun path => (path.1, path.2.digest s.rule))
  row : ∀ {l d ps}, .node l d ps ∈ known → Tree.Row (ps.map (·.1))
  unique : ∀ {l d ps d' qs}, .node l d ps ∈ known → .node l d' qs ∈ known → ps = qs

namespace Coherent

open Context

variable {s : Supply} {known : Set Context} {a b : Context}

/-- Before anything is built. -/
theorem starting (rule : DigestRule) :
    Coherent (.starting rule) {c | c.isEmpty = true} := by
  refine ⟨fun _ isEmpty => isEmpty, ?_, ?_, ?_, ?_, ?_⟩
  all_goals
    intros
    contradiction

theorem outermost (coherent : Coherent s known) : .outermost ∈ known := coherent.empty _ rfl

theorem wildcard (coherent : Coherent s known) : .wildcard ∈ known := coherent.empty _ rfl

/-- Labels that no node got may be used up. -/
theorem fresh (coherent : Coherent s known) : Coherent s.fresh.2 known :=
  { coherent with issued := fun present => Nat.lt_succ_of_lt (coherent.issued present) }

theorem parent_of_paths (coherent : Coherent s known) (present : a ∈ known) {path : Path}
    (inRow : path ∈ a.paths) : path.2 ∈ known := by
  cases a with
  | outermostAt => exact absurd inRow List.not_mem_nil
  | wildcardAt => exact absurd inRow List.not_mem_nil
  | node l d ps => exact coherent.parent present inRow

theorem canonical (coherent : Coherent s known) (present : a ∈ known) : a.tree.Canonical := by
  induction a with
  | outermostAt => exact .outermost
  | wildcardAt => exact .wildcard
  | node l d ps ih =>
    refine .node (by simpa using coherent.row present) ?_
    intro branch inTree
    obtain ⟨path, inRow, rfl⟩ := mem_treePaths.mp inTree
    exact ih path inRow (coherent.parent present inRow)

theorem digest_tree (coherent : Coherent s known) (present : a ∈ known) :
    a.digest s.rule = a.tree.digest s.rule := by
  induction a with
  | outermostAt => rfl
  | wildcardAt => rfl
  | node l d ps ih =>
    rw [Context.digest, coherent.digested present, tree, Tree.digest, Tree.digestPaths_eq_map,
      treePaths_eq_map, List.map_map]
    refine congrArg s.rule.ofPaths (List.map_congr_left ?_)
    intro path inRow
    exact Prod.ext rfl (ih path inRow (coherent.parent present inRow))

/-- One instance has one value. -/
theorem eq_of_identical (coherent : Coherent s known) (left : a ∈ known) (right : b ∈ known)
    (same : a.identical b = true) : a = b := by
  cases a <;> cases b <;> simp only [identical, beq_iff_eq, Bool.false_eq_true] at same
  case node.node =>
    subst same
    obtain rfl := coherent.unique left right
    rw [coherent.digested left, coherent.digested right]
  all_goals rw [same]

theorem equalPaths_iff {ps : List Path} (parents : ∀ path ∈ ps, ∀ c ∈ known,
    path.2.equal c = true ↔ path.2.tree = c.tree) (qs : List Path)
    (right : ∀ path ∈ qs, path.2 ∈ known) :
    equalPaths ps qs = true ↔ treePaths ps = treePaths qs := by
  induction ps generalizing qs with
  | nil => cases qs <;> simp [equalPaths, treePaths]
  | cons path ps ih =>
    cases qs with
    | nil => simp [equalPaths, treePaths]
    | cons other qs =>
      have tails := ih (fun p inRow => parents p (List.mem_cons_of_mem _ inRow)) qs
        fun p inRow => right p (List.mem_cons_of_mem _ inRow)
      have heads := parents path List.mem_cons_self other.2 (right other List.mem_cons_self)
      simp only [equalPaths, treePaths, Bool.and_eq_true, beq_iff_eq, heads, tails,
        List.cons.injEq, Prod.mk.injEq]

/-- Comparing contexts, with its shortcuts through labels and digests, is comparing their trees. -/
theorem equal_iff (coherent : Coherent s known) (left : a ∈ known) (right : b ∈ known) :
    a.equal b = true ↔ a.tree = b.tree := by
  induction a generalizing b with
  | outermostAt => cases b <;> simp [equal, tree]
  | wildcardAt => cases b <;> simp [equal, tree]
  | node l d ps ih =>
    cases b with
    | outermostAt => simp [equal, tree]
    | wildcardAt => simp [equal, tree]
    | node l' d' qs =>
      have rows := equalPaths_iff
        (fun path inRow c present => ih path inRow (coherent.parent left inRow) present) qs
        fun path inRow => coherent.parent right inRow
      simp only [equal, Bool.or_eq_true, Bool.and_eq_true, beq_iff_eq, rows, tree, Tree.node.injEq]
      constructor
      · rintro (rfl | ⟨-, same⟩)
        · rw [coherent.unique left right]
        · exact same
      · intro same
        refine .inr ⟨?_, same⟩
        have leftDigest : d = _ := coherent.digest_tree left
        have rightDigest : d' = _ := coherent.digest_tree right
        rw [leftDigest, rightDigest, tree, tree, same]

/-- A node over known parents extends what is known, if its label was handed out and no other node
has it. -/
theorem insertNode (coherent : Coherent s known) {l : Label} (issued : l < s.next)
    (unused : ∀ d qs, .node l d qs ∉ known) {ps : List Path} (row : Tree.Row (ps.map (·.1)))
    (parents : ∀ path ∈ ps, path.2 ∈ known) :
    Coherent s (insert
      (.node l (s.rule.ofPaths (ps.map fun path => (path.1, path.2.digest s.rule))) ps) known) := by
  refine ⟨fun c isEmpty => .inr (coherent.empty c isEmpty), ?_, ?_, ?_, ?_, ?_⟩
  · rintro l' d qs path (new | present) inRow
    · cases new
      exact .inr (parents path inRow)
    · exact .inr (coherent.parent present inRow)
  · rintro l' d qs (new | present)
    · cases new
      exact issued
    · exact coherent.issued present
  · rintro l' d qs (new | present)
    · cases new
      rfl
    · exact coherent.digested present
  · rintro l' d qs (new | present)
    · cases new
      exact row
    · exact coherent.row present
  · rintro l' d qs d' rs (new | present) (new' | present')
    · cases new
      cases new'
      rfl
    · cases new
      exact absurd present' (unused _ _)
    · cases new'
      exact absurd present (unused _ _)
    · exact coherent.unique present present'

/-- A new node over known parents extends what is known. -/
theorem node (coherent : Coherent s known) {ps : List Path} (row : Tree.Row (ps.map (·.1)))
    (parents : ∀ path ∈ ps, path.2 ∈ known) :
    Coherent (s.node ps).2 (insert (s.node ps).1 known) :=
  coherent.fresh.insertNode (Nat.lt_succ_self s.next)
    (fun _ _ present => Nat.lt_irrefl _ (coherent.issued present)) row parents

/-- Nothing that is known rules out a node with a label that was handed out. -/
theorem exists_node (coherent : Coherent s known) {l : Label} (issued : l < s.next) :
    ∃ wider, known ⊆ wider ∧ Coherent s wider ∧ ∃ d ps, .node l d ps ∈ wider := by
  by_cases used : ∃ d ps, .node l d ps ∈ known
  · exact ⟨known, subset_rfl, coherent, used⟩
  · have unused : ∀ d qs, .node l d qs ∉ known := fun d qs present => used ⟨d, qs, present⟩
    obtain ⟨ps, row, parents⟩ : ∃ ps : List Path, Tree.Row (ps.map (·.1)) ∧
        ∀ path ∈ ps, path.2 ∈ known :=
      ⟨[(0, .outermost)], ⟨List.pairwise_singleton _ _, 0, List.mem_singleton_self _, by decide⟩,
        List.forall_mem_singleton.mpr coherent.outermost⟩
    exact ⟨_, Set.subset_insert _ _, coherent.insertNode issued unused row parents, _, ps,
      Set.mem_insert _ _⟩

end Coherent

end Prediction
