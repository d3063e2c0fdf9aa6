import Prediction.Context.Tree

/-!
The shape of trees. Trees of contexts have their paths in strictly ascending order of return states,
so that a path is found by its return state and a row of paths is known from what is found in it.
-/

namespace Prediction.Tree

/-- A path by value. -/
abbrev Branch := ReturnState × Tree

@[elab_as_elim, induction_eliminator]
theorem induction {motive : Tree → Prop} (outermost : motive .outermost)
    (wildcard : motive .wildcard)
    (node : ∀ paths : List Branch, (∀ path ∈ paths, motive path.2) → motive (.node paths))
    (t : Tree) : motive t := by
  refine @Tree.rec motive (fun paths => ∀ path ∈ paths, motive path.2) (fun path => motive path.2)
    outermost wildcard node ?_ ?_ ?_ t
  · intro path present
    contradiction
  · intro first others ofFirst ofOthers path present
    rcases List.mem_cons.mp present with rfl | present
    · exact ofFirst
    · exact ofOthers path present
  · intro k parent ofParent
    exact ofParent

mutual

def sameAs : Tree → Tree → Bool
  | .outermost, .outermost => true
  | .wildcard, .wildcard => true
  | .node ps, .node qs => samePaths ps qs
  | _, _ => false
termination_by structural t => t

def samePaths : List Branch → List Branch → Bool
  | [], [] => true
  | (k, p) :: ps, (k', q) :: qs => k == k' && sameAs p q && samePaths ps qs
  | _, _ => false
termination_by structural ps => ps

end

theorem samePaths_iff {ps : List Branch}
    (parents : ∀ path ∈ ps, ∀ u, sameAs path.2 u = true ↔ path.2 = u) (qs : List Branch) :
    samePaths ps qs = true ↔ ps = qs := by
  induction ps generalizing qs with
  | nil => cases qs <;> simp [samePaths]
  | cons path ps ih =>
    cases qs with
    | nil => simp [samePaths]
    | cons other qs =>
      have tails := ih (fun p present => parents p (List.mem_cons_of_mem _ present)) qs
      have heads := parents path List.mem_cons_self other.2
      simp only [samePaths, Bool.and_eq_true, beq_iff_eq, heads, tails, List.cons.injEq,
        Prod.ext_iff]

theorem sameAs_iff (t u : Tree) : sameAs t u = true ↔ t = u := by
  induction t generalizing u with
  | outermost => cases u <;> simp [sameAs]
  | wildcard => cases u <;> simp [sameAs]
  | node ps ih =>
    cases u with
    | node qs => simpa only [sameAs, Tree.node.injEq] using samePaths_iff ih qs
    | _ => simp [sameAs]

instance : DecidableEq Tree := fun t u => decidable_of_iff _ (sameAs_iff t u)

/-- Return states of a node: in strictly ascending order, and more than the mark of the outermost
context. -/
structure Row (ks : List ReturnState) : Prop where
  ascending : ks.Pairwise (· < ·)
  regular : ∃ k ∈ ks, k ≠ outermostKey

/-- Every node of the tree has a row of return states. -/
inductive Canonical : Tree → Prop where
  | outermost : Canonical .outermost
  | wildcard : Canonical .wildcard
  | node {paths : List Branch} : Row (paths.map (·.1)) → (∀ path ∈ paths, Canonical path.2) →
      Canonical (.node paths)

/-- Every path that is marked as the one to the outermost context has that context as its parent. -/
inductive Proper : Tree → Prop where
  | outermost : Proper .outermost
  | wildcard : Proper .wildcard
  | node {paths : List Branch} : (∀ path ∈ paths, path.1 = outermostKey → path.2 = .outermost) →
      (∀ path ∈ paths, Proper path.2) → Proper (.node paths)

/-- Push a return state. -/
def push (t : Tree) (k : ReturnState) : Tree :=
  if k = outermostKey then .outermost else .node [(k, t)]

def ofPaths : List Branch → Tree
  | [] => .outermost
  | [(k, p)] => p.push k
  | ps => .node ps

mutual

def digest (rule : DigestRule) : Tree → Digest
  | .outermost => rule.outermost
  | .wildcard => rule.wildcard
  | .node ps => rule.ofPaths (digestPaths rule ps)
termination_by structural t => t

def digestPaths (rule : DigestRule) : List Branch → List (ReturnState × Digest)
  | [] => []
  | (k, p) :: ps => (k, digest rule p) :: digestPaths rule ps
termination_by structural ps => ps

end

theorem digestPaths_eq_map (rule : DigestRule) (ps : List Branch) :
    digestPaths rule ps = ps.map fun path => (path.1, path.2.digest rule) := by
  induction ps with
  | nil => rfl
  | cons path ps ih => simp [digestPaths, ih]

theorem Canonical.row {paths : List Branch} (canonical : Canonical (.node paths)) :
    Row (paths.map (·.1)) := by
  cases canonical
  assumption

theorem Canonical.parent {paths : List Branch} (canonical : Canonical (.node paths))
    {path : Branch} (present : path ∈ paths) : Canonical path.2 := by
  cases canonical with
  | node _ parents => exact parents path present

theorem Proper.marked {paths : List Branch} (proper : Proper (.node paths)) {path : Branch}
    (present : path ∈ paths) : path.1 = outermostKey → path.2 = .outermost := by
  cases proper with
  | node marked _ => exact marked path present

theorem Proper.parent {paths : List Branch} (proper : Proper (.node paths)) {path : Branch}
    (present : path ∈ paths) : Proper path.2 := by
  cases proper with
  | node _ parents => exact parents path present

theorem not_above_outermostKey (k : ReturnState) : ¬ outermostKey < k := by
  unfold outermostKey
  grind

theorem below_outermostKey {k : ReturnState} (regular : k ≠ outermostKey) : k < outermostKey := by
  unfold outermostKey at *
  grind

/-- Paths in strictly ascending order of their return states. -/
abbrev Ascending (paths : List Branch) : Prop := (paths.map (·.1)).Pairwise (· < ·)

variable {ps qs : List Branch} {k : ReturnState} {t : Tree}

theorem ascending_cons {path : Branch} :
    Ascending (path :: ps) ↔ (∀ other ∈ ps, path.1 < other.1) ∧ Ascending ps := by
  simp [Ascending]

theorem lookup_eq_none_iff : ps.lookup k = none ↔ ∀ path ∈ ps, path.1 ≠ k := by
  rw [List.lookup_eq_none_iff]
  simp only [bne_iff_ne, ne_comm]

theorem mem_of_lookup (found : ps.lookup k = some t) : (k, t) ∈ ps := by
  induction ps with
  | nil => simp at found
  | cons path ps ih =>
    obtain ⟨k', p⟩ := path
    rw [List.lookup_cons] at found
    cases same : k == k' with
    | true =>
      simp only [same, Option.some.injEq] at found
      simp [eq_of_beq same, found]
    | false =>
      simp only [same] at found
      exact List.mem_cons_of_mem _ (ih found)

theorem lookup_eq_some_iff (ascending : Ascending ps) :
    ps.lookup k = some t ↔ (k, t) ∈ ps := by
  refine ⟨mem_of_lookup, ?_⟩
  intro present
  induction ps with
  | nil => contradiction
  | cons path ps ih =>
    obtain ⟨k', p⟩ := path
    obtain ⟨above, ascending⟩ := ascending_cons.mp ascending
    rw [List.lookup_cons]
    rcases List.mem_cons.mp present with same | present
    · obtain ⟨rfl, rfl⟩ := Prod.mk.inj same
      simp
    · have larger : k' < k := above _ present
      have different : (k == k') = false := by grind
      simp only [different]
      exact ih ascending present

theorem lookup_cons_of_ne {j : ReturnState} (different : j ≠ k) :
    ((k, t) :: ps).lookup j = ps.lookup j := by
  rw [List.lookup_cons, beq_false_of_ne different]

theorem lookup_of_above (above : ∀ path ∈ ps, k < path.1) : ps.lookup k = none := by
  rw [lookup_eq_none_iff]
  rintro path present rfl
  exact UInt32.lt_irrefl _ (above path present)

/-- A row is known from what is found in it. -/
theorem ext_lookup (left : Ascending ps) (right : Ascending qs)
    (same : ∀ k, ps.lookup k = qs.lookup k) : ps = qs := by
  have members (path : Branch) : path ∈ ps ↔ path ∈ qs := by
    rw [← lookup_eq_some_iff left, ← lookup_eq_some_iff right, same]
  have nodup {row : List Branch} (ascending : Ascending row) : row.Nodup := by
    refine List.Pairwise.imp ?_ (List.pairwise_map.mp ascending)
    rintro a b below rfl
    exact absurd below (by grind)
  have perm := (List.perm_ext_iff_of_nodup (nodup left) (nodup right)).mpr members
  refine List.Perm.eq_of_pairwise ?_ (List.pairwise_map.mp left) (List.pairwise_map.mp right) perm
  intro a b _ _ below above
  exact absurd below (by grind)

end Prediction.Tree
