import Prediction.Proofs.Context.Coherent

/-!
Building contexts from known ones. Each construction gives the tree that it gives on trees, and
keeps what is known coherent.
-/

namespace Prediction

open Context

theorem Context.ofPaths_eq_node {ps : List Path} (row : Tree.Row (ps.map (·.1))) (s : Supply) :
    ofPaths ps s = s.node ps := by
  obtain ⟨k, present, regular⟩ := row.regular
  match ps with
  | [] => simp at present
  | [(k', p)] =>
    have first : k = k' := by simpa using present
    rw [ofPaths, push, if_neg (first ▸ regular)]
  | _ :: _ :: _ => rfl

/-- What was built from known contexts has the given value, and what is known grows by it. -/
def Builds (known : Set Context) (t : Tree) (built : Context × Supply) : Prop :=
  ∃ wider, known ⊆ wider ∧ Coherent built.2 wider ∧ built.1 ∈ wider ∧ built.1.tree = t

namespace Builds

variable {s : Supply} {known : Set Context} {c : Context} {ps : List Path}

/-- A known context needs no building. -/
theorem same (coherent : Coherent s known) (present : c ∈ known) : Builds known c.tree (c, s) :=
  ⟨known, subset_rfl, coherent, present, rfl⟩

theorem node (coherent : Coherent s known) (row : Tree.Row (ps.map (·.1)))
    (parents : ∀ path ∈ ps, path.2 ∈ known) :
    Builds known (.node (treePaths ps)) (s.node ps) :=
  ⟨_, Set.subset_insert _ _, coherent.node row parents, Set.mem_insert _ _, rfl⟩

/-- A copy of a node lies over the same parents. -/
theorem copy (coherent : Coherent s known) (present : c ∈ known) :
    Builds known c.tree (c.copy s) := by
  cases c with
  | node l d ps =>
    rw [Context.copy, coherent.digested present]
    exact node coherent (coherent.row present) fun path => coherent.parent present
  | _ => exact ⟨known, subset_rfl, coherent.fresh, coherent.empty _ rfl, rfl⟩

theorem push (coherent : Coherent s known) (present : c ∈ known) (k : ReturnState) :
    Builds known (c.tree.push k) (c.push k s) := by
  unfold Context.push Tree.push
  split
  · exact same coherent coherent.outermost
  · rename_i regular
    refine node coherent ⟨List.pairwise_singleton _ _, k, by simp, regular⟩ ?_
    intro path inRow
    rwa [List.mem_singleton.mp inRow]

theorem ofPaths (coherent : Coherent s known) (ascending : (ps.map (·.1)).Pairwise (· < ·))
    (parents : ∀ path ∈ ps, path.2 ∈ known) :
    Builds known (Tree.ofPaths (treePaths ps)) (Context.ofPaths ps s) := by
  match ps with
  | [] => exact same coherent coherent.outermost
  | [(k, p)] => exact push coherent (parents (k, p) List.mem_cons_self) k
  | (k, p) :: (k', q) :: others =>
    have smaller : k < k' := (List.pairwise_cons.mp ascending).1 k' (by simp)
    have regular : k ≠ outermostKey := fun mark => Tree.not_above_outermostKey k' (mark ▸ smaller)
    exact node coherent ⟨ascending, k, by simp, regular⟩ parents

theorem ofPaths_row (coherent : Coherent s known) (row : Tree.Row (ps.map (·.1)))
    (parents : ∀ path ∈ ps, path.2 ∈ known) :
    Builds known (.node (treePaths ps)) (Context.ofPaths ps s) := by
  rw [ofPaths_eq_node row]
  exact node coherent row parents

end Builds

namespace Context

variable {s : Supply} {known : Set Context} {c : Context}

/-- A node has the mark of the outermost context exactly if its row needs no widening. -/
theorem hasOutermost_iff {l : Label} {d : Digest} {ps : List Path} :
    (node l d ps).hasOutermost = true ↔ Tree.widen (treePaths ps) = treePaths ps := by
  have marked : (node l d ps).hasOutermost = (treePaths ps).getLast?.any (·.1 == outermostKey) := by
    simp only [hasOutermost, treePaths_eq_map, List.getLast?_map, Option.any_map]
  rw [marked, Tree.widen]
  split <;> simp_all

theorem widen_of_lacking {l : Label} {d : Digest} {ps : List Path}
    (lacking : (node l d ps).hasOutermost = false) :
    Tree.widen (treePaths ps) = treePaths (ps ++ [(outermostKey, .outermost)]) := by
  have wider : Tree.widen (treePaths ps) ≠ treePaths ps :=
    fun kept => by simp [hasOutermost_iff.mpr kept] at lacking
  rw [Tree.widen] at wider ⊢
  split at wider
  · exact absurd rfl wider
  · rename_i unmarked
    rw [if_neg unmarked, treePaths_append]
    rfl

/-- A context that has the mark is returned as it is, and only then the value stays the same. -/
theorem addOutermost_spec (coherent : Coherent s known) (present : c ∈ known) :
    Builds known c.tree.addOutermost (c.addOutermost s) ∧
      (c.tree.addOutermost = c.tree → (c.addOutermost s).1 = c) := by
  match c with
  | .outermostAt _ => exact ⟨Builds.same coherent present, fun _ => rfl⟩
  | .wildcardAt _ => exact ⟨Builds.same coherent present, fun _ => rfl⟩
  | .node l d ps =>
    cases marked : (node l d ps).hasOutermost with
    | true =>
      have kept : Tree.widen (treePaths ps) = treePaths ps := hasOutermost_iff.mp marked
      rw [addOutermost, if_pos marked, tree, Tree.addOutermost, kept]
      exact ⟨Builds.same coherent present, fun _ => rfl⟩
    | false =>
      have wider : Tree.widen (treePaths ps) ≠ treePaths ps :=
        fun kept => by simp [hasOutermost_iff.mpr kept] at marked
      have added := widen_of_lacking marked
      have row : Tree.Row ((ps ++ [(outermostKey, Context.outermost)]).map (·.1)) := by
        rw [← keys_treePaths, ← added]
        exact Tree.row_widen (by simpa using coherent.row present)
      refine ⟨?_, fun kept => absurd (Tree.node.inj kept) wider⟩
      rw [addOutermost, if_neg (by simp [marked]), tree, Tree.addOutermost, added]
      refine Builds.ofPaths_row coherent row ?_
      intro path inRow
      rcases List.mem_append.mp inRow with old | new
      · exact coherent.parent present old
      · rw [List.mem_singleton.mp new]
        exact coherent.outermost

theorem ofParts_isOk_iff {parents : List Context} {ks : List ReturnState} :
    (∃ built, ofParts parents ks s = .ok built) ↔
      parents.length = ks.length ∧ ks.Pairwise (· < ·) := by
  rw [← strictlyAscending_iff]
  unfold ofParts
  split
  · simp_all
  · split <;> simp_all

theorem ofParts_spec (coherent : Coherent s known) {parents : List Context}
    (present : ∀ p ∈ parents, p ∈ known) {ks : List ReturnState} {built : Context × Supply}
    (accepted : ofParts parents ks s = .ok built) :
    Builds known (Tree.ofPaths (ks.zip (parents.map tree))) built := by
  unfold ofParts at accepted
  split at accepted
  · simp at accepted
  · rename_i matching
    split at accepted
    · simp at accepted
    · rename_i ordered
      obtain rfl := Except.ok.inj accepted
      have ascending := (strictlyAscending_iff ks).mp (by simpa using ordered)
      have lengths : ks.length ≤ parents.length := by omega
      have rows : ks.zip (parents.map tree) = treePaths (ks.zip parents) := by
        rw [treePaths_eq_map, List.zip_map_right]
        rfl
      rw [rows]
      refine Builds.ofPaths coherent ?_ ?_
      · have keys : (ks.zip parents).map (·.1) = ks := List.map_fst_zip lengths
        rwa [keys]
      · intro path inRow
        exact present _ (List.of_mem_zip inRow).2

end Context

end Prediction
