import Prediction.Proofs.Context.Checked

/-!
Counting the instances that a context reaches, with all checks: what is still to be looked at waits
in a list, and the paths of each instance are read by their positions. The number is that of the
instances that visiting the context lists.
-/

namespace Prediction.Context

namespace Checked

theorem sizeOf_pos (c : Context) : 0 < sizeOf c := by
  cases c <;>
    simp only [outermostAt.sizeOf_spec, wildcardAt.sizeOf_spec, node.sizeOf_spec] <;>
    omega

theorem sizeOf_append (cs pending : List Context) :
    sizeOf (cs ++ pending) + 1 = sizeOf cs + sizeOf pending := by
  induction cs with
  | nil => rw [List.nil_append, List.nil.sizeOf_spec, Nat.add_comm]
  | cons c cs ih =>
    simp only [List.cons_append, List.cons.sizeOf_spec]
    omega

theorem sizeOf_reverse (cs : List Context) : sizeOf cs.reverse = sizeOf cs := by
  induction cs with
  | nil => rfl
  | cons c cs ih =>
    have appended := sizeOf_append cs.reverse [c]
    simp only [List.reverse_cons, List.cons.sizeOf_spec, List.nil.sizeOf_spec] at appended ⊢
    omega

/-- What is put on the list is smaller than what is taken off it. -/
theorem sizeOf_parents (c : Context) : sizeOf (c.paths.map (·.2)) ≤ sizeOf c := by
  have row (ps : List Path) : sizeOf (ps.map (·.2)) ≤ sizeOf ps := by
    induction ps with
    | nil => exact Nat.le_refl _
    | cons path ps ih =>
      obtain ⟨k, p⟩ := path
      simp only [List.map_cons, List.cons.sizeOf_spec, Prod.mk.sizeOf_spec]
      omega
  cases c with
  | node l d ps =>
    have bound := row ps
    simp only [paths, node.sizeOf_spec]
    omega
  | _ => exact sizeOf_pos _

/-- Counts the instances seen, once none is waiting any more. Those last put on the list come
first. -/
def countFrom : List Context → List Context → Except Fault Nat
  | [], seen => .ok seen.length
  | c :: pending, seen =>
    if seen.any (·.identical c) then countFrom pending seen
    else
      match _read : readAll (parent c) c.size with
      | .error fault => .error fault
      | .ok parents => countFrom (parents.reverse ++ pending) (c :: seen)
termination_by pending => sizeOf pending
decreasing_by
  · simp only [List.cons.sizeOf_spec]
    omega
  · obtain rfl := Except.ok.inj ((parents_eq c).symm.trans _read)
    have appended := sizeOf_append (c.paths.map (·.2)).reverse pending
    have smaller := sizeOf_parents c
    rw [sizeOf_reverse] at appended
    simp only [List.cons.sizeOf_spec]
    omega

def nodeCount (c : Context) : Except Fault Nat :=
  countFrom [c] []

variable {known : Set Context} {s : Supply} {c d : Context} {pending seen : List Context}

theorem countFrom_new (new : seen.any (·.identical c) = false) (pending : List Context) :
    countFrom (c :: pending) seen =
      countFrom ((c.paths.map (·.2)).reverse ++ pending) (c :: seen) := by
  rw [countFrom, if_neg (by simp [new])]
  split
  · rename_i failed
    rw [parents_eq] at failed
    contradiction
  · rename_i parents read
    rw [Except.ok.inj ((parents_eq c).symm.trans read)]

/-- The parents of what was seen were seen or are waiting. -/
def Covered (seen pending : List Context) : Prop :=
  ∀ a ∈ seen, ∀ path ∈ a.paths, path.2 ∈ seen ∨ path.2 ∈ pending

/-- What an instance seen reaches was seen, or can be reached from what is waiting. -/
theorem Covered.reaches (covered : Covered seen pending) (reaches : c.Reaches d)
    (listed : c ∈ seen) : d ∈ seen ∨ ∃ p ∈ pending, p.Reaches d := by
  induction reaches with
  | self => exact .inl listed
  | parent inRow below ih =>
    rcases covered _ listed _ inRow with old | waiting
    · exact ih old
    · exact .inr ⟨_, waiting, below⟩

/-- Counting comes to the length of a list: every instance that was seen or can be reached from what
is waiting, each of them once. -/
structure Counts (pending seen later : List Context) : Prop where
  counted : countFrom pending seen = .ok later.length
  distinct : later.Nodup
  mem_iff : ∀ d, d ∈ later ↔ d ∈ seen ∨ ∃ p ∈ pending, p.Reaches d

/-- By induction on the counting. -/
theorem exists_counts (coherent : Coherent s known) (pending seen : List Context)
    (waiting : ∀ p ∈ pending, p ∈ known) (recorded : ∀ a ∈ seen, a ∈ known) (distinct : seen.Nodup)
    (covered : Covered seen pending) : ∃ later, Counts pending seen later := by
  induction pending, seen using countFrom.induct with
  | case1 seen => exact ⟨seen, by rw [countFrom], distinct, by simp⟩
  | case2 c pending seen old ih =>
    -- What this instance reaches was seen with it, or can be reached from the others waiting.
    obtain ⟨first, others⟩ := List.forall_mem_cons.mp waiting
    have listed := (any_identical_iff coherent recorded first).mp old
    have covered' : Covered seen pending := by
      intro a earlier path inRow
      rcases covered a earlier path inRow with before | now
      · exact .inl before
      · rcases List.mem_cons.mp now with rfl | rest
        · exact .inl listed
        · exact .inr rest
    obtain ⟨later, counted, distinct', mem_iff⟩ := ih others recorded distinct covered'
    refine ⟨later, by rw [countFrom, if_pos old, counted], distinct', fun d => ?_⟩
    rw [mem_iff, List.exists_mem_cons_iff]
    constructor
    · exact Or.imp_right .inr
    · rintro (before | below | rest)
      · exact .inl before
      · exact covered'.reaches below listed
      · exact .inr rest
  | case3 c pending seen new fault read =>
    rw [parents_eq] at read
    contradiction
  | case4 c pending seen new parents read ih =>
    -- What this instance reaches, itself apart, can be reached from the parents put on the list.
    obtain ⟨first, others⟩ := List.forall_mem_cons.mp waiting
    obtain rfl := Except.ok.inj ((parents_eq c).symm.trans read)
    have unlisted := mt (any_identical_iff coherent recorded first).mpr new
    have mem_parents (p : Context) : p ∈ (c.paths.map (·.2)).reverse ++ pending ↔
        (∃ path ∈ c.paths, path.2 = p) ∨ p ∈ pending := by
      rw [List.mem_append, List.mem_reverse, List.mem_map]
    have waiting' : ∀ p ∈ (c.paths.map (·.2)).reverse ++ pending, p ∈ known := by
      intro p listed
      rcases (mem_parents p).mp listed with ⟨path, inRow, rfl⟩ | rest
      · exact coherent.parent_of_paths first inRow
      · exact others p rest
    have covered' : Covered (c :: seen) ((c.paths.map (·.2)).reverse ++ pending) := by
      intro a earlier path inRow
      rw [List.mem_cons, mem_parents]
      rcases List.mem_cons.mp earlier with rfl | before
      · exact .inr (.inl ⟨path, inRow, rfl⟩)
      · rcases covered a before path inRow with old | now
        · exact .inl (.inr old)
        · rcases List.mem_cons.mp now with same | rest
          · exact .inl (.inl same)
          · exact .inr (.inr rest)
    obtain ⟨later, counted, distinct', mem_iff⟩ := ih waiting'
      (List.forall_mem_cons.mpr ⟨first, recorded⟩) (List.nodup_cons.mpr ⟨unlisted, distinct⟩)
      covered'
    refine ⟨later, (countFrom_new (by simpa using new) pending).trans counted, distinct',
      fun d => ?_⟩
    have below : (∃ p ∈ (c.paths.map (·.2)).reverse ++ pending, p.Reaches d) ↔
        (∃ path ∈ c.paths, path.2.Reaches d) ∨ ∃ p ∈ pending, p.Reaches d := by
      simp only [mem_parents, or_and_right, exists_or]
      simp
    rw [mem_iff, below, List.mem_cons, List.exists_mem_cons_iff, Reaches.iff_paths (c := c),
      or_assoc, or_assoc, or_left_comm]

theorem nodeCount_eq (coherent : Coherent s known) (present : c ∈ known) :
    nodeCount c = .ok c.nodeCount := by
  obtain ⟨later, counted, distinct, mem_iff⟩ := exists_counts coherent [c] []
    (List.forall_mem_singleton.mpr present) (List.forall_mem_nil _) .nil
    fun a impossible => absurd impossible List.not_mem_nil
  obtain ⟨mem_nodes, distinct'⟩ := nodes_spec coherent present
  have perm : later.Perm c.nodes := (List.perm_ext_iff_of_nodup distinct distinct').mpr fun d => by
    rw [mem_iff, mem_nodes]
    simp
  rw [nodeCount, counted, perm.length_eq]
  rfl

end Checked

end Prediction.Context
