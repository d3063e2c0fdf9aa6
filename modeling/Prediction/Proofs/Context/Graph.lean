import Mathlib.Data.List.Perm.Subperm
import Prediction.Context.Graph
import Prediction.Proofs.Context.Coherent
import Prediction.Proofs.Distinct

/-!
The instances that a context reaches. Visiting a context lists each of them once, whatever parents
its nodes share. Their number is never below the number of different values that occur in the
context, and it is that number if no two of them have the same value.
-/

namespace Prediction

/-- A context is another one, or it is reached from one of that one's parents. -/
inductive Context.Reaches : Context → Context → Prop
  | self (c : Context) : Reaches c c
  | parent {c ancestor : Context} {path : Path} : path ∈ c.paths → Reaches path.2 ancestor →
      Reaches c ancestor

namespace Tree

def isNode : Tree → Bool
  | .node _ => true
  | _ => false

mutual

/-- All trees that occur in a tree, itself first, as often as they occur. -/
def subtrees : Tree → List Tree
  | .node ps => .node ps :: subtreesOf ps
  | t => [t]
termination_by structural t => t

def subtreesOf : List Branch → List Tree
  | [] => []
  | (_, p) :: ps => subtrees p ++ subtreesOf ps
termination_by structural ps => ps

end

theorem subtreesOf_eq_flatMap (ps : List Branch) :
    subtreesOf ps = ps.flatMap fun path => path.2.subtrees := by
  induction ps with
  | nil => rfl
  | cons path ps ih => rw [subtreesOf, ih, List.flatMap_cons]

end Tree

namespace Context

variable {known : Set Context} {s : Supply} {a b c d : Context} {ps : List Path}
  {seen : List Context}

namespace Reaches

theorem trans (first : a.Reaches b) (second : b.Reaches c) : a.Reaches c := by
  induction first with
  | self => exact second
  | parent inRow _ ih => exact .parent inRow (ih second)

theorem mem (reaches : a.Reaches b) (coherent : Coherent s known) (present : a ∈ known) :
    b ∈ known := by
  induction reaches with
  | self => exact present
  | parent inRow _ ih => exact ih (coherent.parent_of_paths present inRow)

theorem iff_paths : c.Reaches d ↔ d = c ∨ ∃ path ∈ c.paths, path.2.Reaches d := by
  constructor
  · intro reaches
    cases reaches with
    | self => exact .inl rfl
    | parent inRow reaches => exact .inr ⟨_, inRow, reaches⟩
  · rintro (rfl | ⟨path, inRow, reaches⟩)
    · exact .self d
    · exact .parent inRow reaches

theorem sizeOf_parent {path : Path} (inRow : path ∈ c.paths) : sizeOf path.2 < sizeOf c := by
  cases c with
  | node l g ps =>
    have smaller := List.sizeOf_lt_of_mem (show path ∈ ps from inRow)
    obtain ⟨k, p⟩ := path
    simp only [Prod.mk.sizeOf_spec] at smaller
    simp only [node.sizeOf_spec]
    omega
  | _ => exact absurd inRow List.not_mem_nil

theorem sizeOf_le (reaches : a.Reaches b) : sizeOf b ≤ sizeOf a := by
  induction reaches with
  | self => exact le_refl _
  | parent inRow _ ih => exact ih.trans (sizeOf_parent inRow).le

/-- A node lies above its parents. -/
theorem not_back {path : Path} (inRow : path ∈ c.paths) : ¬ path.2.Reaches c :=
  fun back => absurd back.sizeOf_le (sizeOf_parent inRow).not_ge

end Reaches

theorem subtrees_eq (c : Context) :
    c.tree.subtrees = c.tree :: c.paths.flatMap fun path => path.2.tree.subtrees := by
  cases c with
  | node l g ps =>
    simp [tree, Tree.subtrees, Tree.subtreesOf_eq_flatMap, treePaths_eq_map, List.flatMap_map,
      paths]
  | _ => rfl

/-- What a context reaches has its value among the subtrees, and nothing else has. -/
theorem mem_subtrees_iff (c : Context) {t : Tree} :
    t ∈ c.tree.subtrees ↔ ∃ d, c.Reaches d ∧ d.tree = t := by
  have parents (path : Path) (inRow : path ∈ c.paths) := mem_subtrees_iff path.2 (t := t)
  rw [subtrees_eq, List.mem_cons, List.mem_flatMap]
  constructor
  · rintro (rfl | ⟨path, inRow, below⟩)
    · exact ⟨c, .self c, rfl⟩
    · obtain ⟨d, reaches, value⟩ := (parents path inRow).mp below
      exact ⟨d, .parent inRow reaches, value⟩
  · rintro ⟨d, reaches, rfl⟩
    rcases Reaches.iff_paths.mp reaches with rfl | ⟨path, inRow, reaches⟩
    · exact .inl rfl
    · exact .inr ⟨path, inRow, (parents path inRow).mpr ⟨d, reaches, rfl⟩⟩
termination_by c
decreasing_by exact Reaches.sizeOf_parent inRow

/-- What was seen of a context before was seen with everything below it. -/
def Settled (c : Context) (seen : List Context) : Prop :=
  ∀ a ∈ seen, c.Reaches a → ∀ d, a.Reaches d → d ∈ seen

/-- A visit adds what the contexts reach, and lists nothing twice. -/
structure Visits (below : Context → Prop) (seen later : List Context) : Prop where
  mem_iff : ∀ d, d ∈ later ↔ d ∈ seen ∨ below d
  nodup : seen.Nodup → later.Nodup

/-- The rest of a row is settled once one of its contexts was visited. -/
theorem Visits.settled {later : List Context} (visits : Visits a.Reaches seen later)
    (settled : c.Settled seen) : c.Settled later := by
  intro x listed reaches d below
  rw [visits.mem_iff] at listed ⊢
  rcases listed with old | new
  · exact .inl (settled x old reaches d below)
  · exact .inr (new.trans below)

theorem visitPaths_visits
    (parents : ∀ path ∈ ps, ∀ {seen : List Context}, (∀ a ∈ seen, a ∈ known) →
      path.2.Settled seen → Visits path.2.Reaches seen (path.2.visit seen))
    (within : ∀ path ∈ ps, ∀ d, path.2.Reaches d → d ∈ known) (recorded : ∀ a ∈ seen, a ∈ known)
    (settled : ∀ path ∈ ps, path.2.Settled seen) :
    Visits (fun d => ∃ path ∈ ps, path.2.Reaches d) seen (visitPaths ps seen) := by
  induction ps generalizing seen with
  | nil => exact ⟨by simp [visitPaths], id⟩
  | cons path ps ih =>
    obtain ⟨first, others⟩ := List.forall_mem_cons.mp parents
    obtain ⟨firstWithin, othersWithin⟩ := List.forall_mem_cons.mp within
    obtain ⟨firstSettled, othersSettled⟩ := List.forall_mem_cons.mp settled
    have visits := first recorded firstSettled
    have recorded' : ∀ a ∈ path.2.visit seen, a ∈ known := fun a listed =>
      ((visits.mem_iff a).mp listed).elim (recorded a) (firstWithin a)
    obtain ⟨mem_iff, nodup⟩ := ih others othersWithin recorded' fun other inRow =>
      visits.settled (othersSettled other inRow)
    refine ⟨?_, fun distinct => nodup (visits.nodup distinct)⟩
    intro d
    rw [visitPaths, mem_iff, visits.mem_iff, or_assoc, List.exists_mem_cons_iff]

theorem any_identical_iff (coherent : Coherent s known) (recorded : ∀ a ∈ seen, a ∈ known)
    (present : c ∈ known) : seen.any (·.identical c) = true ↔ c ∈ seen := by
  rw [List.any_eq_true]
  constructor
  · rintro ⟨a, listed, same⟩
    exact coherent.eq_of_identical (recorded a listed) present same ▸ listed
  · exact fun listed => ⟨c, listed, identical_self c⟩

theorem visit_eq (c : Context) (seen : List Context) :
    c.visit seen = if seen.any (·.identical c) then seen else visitPaths c.paths (c :: seen) := by
  cases c <;> rfl

/-- A context that is new is listed before its parents are visited, none of which reaches it. -/
theorem Settled.enter (settled : c.Settled seen) {path : Path} (inRow : path ∈ c.paths) :
    path.2.Settled (c :: seen) := by
  intro a listed reaches d below
  rcases List.mem_cons.mp listed with rfl | old
  · exact absurd reaches (Reaches.not_back inRow)
  · exact List.mem_cons_of_mem c (settled a old (.parent inRow reaches) d below)

/-- By induction on the context. -/
theorem visit_visits (coherent : Coherent s known) (c : Context) (present : c ∈ known)
    {seen : List Context} (recorded : ∀ a ∈ seen, a ∈ known) (settled : c.Settled seen) :
    Visits c.Reaches seen (c.visit seen) := by
  have parents : ∀ path ∈ c.paths, ∀ {seen : List Context}, (∀ a ∈ seen, a ∈ known) →
      path.2.Settled seen → Visits path.2.Reaches seen (path.2.visit seen) :=
    fun path inRow _ recorded settled =>
      visit_visits coherent path.2 (coherent.parent_of_paths present inRow) recorded settled
  have asked := any_identical_iff coherent recorded present
  rw [visit_eq]
  split
  · rename_i found
    have listed := asked.mp found
    refine ⟨fun d => ⟨.inl, ?_⟩, id⟩
    rintro (old | below)
    · exact old
    · exact settled c listed (.self c) d below
  · rename_i missing
    obtain ⟨mem_iff, nodup⟩ := visitPaths_visits parents
      (fun path inRow d below => below.mem coherent (coherent.parent_of_paths present inRow))
      (List.forall_mem_cons.mpr ⟨present, recorded⟩) fun path inRow => settled.enter inRow
    refine ⟨?_, fun distinct => nodup (List.nodup_cons.mpr ⟨mt asked.mpr missing, distinct⟩)⟩
    intro d
    rw [mem_iff, List.mem_cons, Reaches.iff_paths, or_left_comm, or_assoc]
termination_by c
decreasing_by exact Reaches.sizeOf_parent inRow

/-- The instances that a context reaches, each of them once. -/
theorem nodes_spec (coherent : Coherent s known) (present : c ∈ known) :
    (∀ d, d ∈ c.nodes ↔ c.Reaches d) ∧ c.nodes.Nodup := by
  obtain ⟨mem_iff, nodup⟩ := visit_visits coherent c present
    (List.forall_mem_nil _) (List.forall_mem_nil _)
  refine ⟨fun d => ?_, List.nodup_reverse.mpr (nodup .nil)⟩
  rw [nodes, List.mem_reverse, mem_iff, or_iff_right List.not_mem_nil]

/-- Their values are the trees that occur in the tree of the context. -/
theorem mem_values_iff (coherent : Coherent s known) (present : c ∈ known) {t : Tree} :
    t ∈ c.nodes.map tree ↔ t ∈ c.tree.subtrees := by
  simp only [List.mem_map, (nodes_spec coherent present).1, mem_subtrees_iff]

theorem distinct_le_nodeCount (coherent : Coherent s known) (present : c ∈ known) :
    c.tree.subtrees.eraseDups.length ≤ c.nodeCount := by
  have values : c.tree.subtrees.eraseDups ⊆ c.nodes.map tree := fun t occurs =>
    (mem_values_iff coherent present).mpr (List.mem_eraseDups.mp occurs)
  calc c.tree.subtrees.eraseDups.length
    _ ≤ (c.nodes.map tree).length := (nodup_eraseDups _).length_le_of_subset values
    _ = c.nodeCount := List.length_map _

/-- No value is counted twice exactly if each of them has one instance below the context. -/
theorem nodeCount_eq_distinct_iff (coherent : Coherent s known) (present : c ∈ known) :
    c.nodeCount = c.tree.subtrees.eraseDups.length ↔
      ∀ a b, c.Reaches a → c.Reaches b → a.tree = b.tree → a = b := by
  obtain ⟨mem_iff, nodup⟩ := nodes_spec coherent present
  have occurring (t : Tree) : t ∈ c.nodes.map tree ↔ t ∈ c.tree.subtrees.eraseDups := by
    rw [mem_values_iff coherent present, List.mem_eraseDups]
  constructor
  · intro counted a b left right same
    have covered : (c.tree.subtrees.eraseDups).Subperm (c.nodes.map tree) :=
      (nodup_eraseDups _).subperm fun t listed => (occurring t).mpr listed
    have perm := covered.perm_of_length_le (by rw [List.length_map, ← nodeCount, counted])
    have values : (c.nodes.map tree).Nodup := perm.nodup_iff.mp (nodup_eraseDups _)
    exact List.inj_on_of_nodup_map values ((mem_iff a).mpr left) ((mem_iff b).mpr right) same
  · intro unique
    have values : (c.nodes.map tree).Nodup := nodup.map_on fun a left b right same =>
      unique a b ((mem_iff a).mp left) ((mem_iff b).mp right) same
    have perm := (List.perm_ext_iff_of_nodup values (nodup_eraseDups _)).mpr occurring
    rw [nodeCount, ← perm.length_eq, List.length_map]

end Context

end Prediction
