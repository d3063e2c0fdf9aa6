import Prediction.Context.Join
import Prediction.Proofs.Context.Build

/-!
Joining contexts through a memory. In every state of the memory that joins can lead to, a join has
the value that the join of trees gives it, and it is an operand itself whenever it has an operand's
value, that of the left one first.
-/

namespace Prediction

open Context

namespace Context

/-- The entry records a join of known contexts. -/
structure JoinMemo.Entry.Sound (known : Set Context) (e : JoinMemo.Entry) : Prop where
  left : e.left ∈ known
  right : e.right ∈ known
  result : e.result ∈ known
  value : e.result.tree = e.left.tree.join e.right.tree

/-- Everything in the cache is known, and what it remembers are joins. -/
structure Cache.Sound (known : Set Context) (cache : Cache) : Prop where
  recorded : ∀ e ∈ cache.joins.entries, e.Sound known
  canonical : ∀ c ∈ cache.canonical.entries, c ∈ known

variable {known wider : Set Context} {s : Supply} {cache : Cache} {a b c : Context}

theorem Cache.sound_new (known : Set Context) (enabled : Bool) (capacity : Nat) :
    (Cache.new enabled capacity).Sound known :=
  ⟨fun _ present => absurd present (by simp [Cache.new, JoinMemo.empty]),
    fun _ present => absurd present (by simp [Cache.new, Table.empty])⟩

theorem JoinMemo.Entry.Sound.mono {e : JoinMemo.Entry} (sound : e.Sound known)
    (included : known ⊆ wider) : e.Sound wider :=
  ⟨included sound.left, included sound.right, included sound.result, sound.value⟩

theorem Cache.Sound.mono (sound : cache.Sound known) (included : known ⊆ wider) :
    cache.Sound wider :=
  ⟨fun e present => (sound.recorded e present).mono included,
    fun c present => included (sound.canonical c present)⟩

theorem Table.canonical_spec (coherent : Coherent s known) {table : Table}
    (recorded : ∀ c ∈ table.entries, c ∈ known) (present : c ∈ known) :
    (table.canonical c).1 ∈ known ∧ (table.canonical c).1.tree = c.tree ∧
      ∀ c' ∈ (table.canonical c).2.entries, c' ∈ known := by
  unfold Table.canonical
  split
  · rename_i instead found
    have inTable := recorded _ (Table.mem_of_find? found)
    exact ⟨inTable, (coherent.equal_iff inTable present).mp (Table.equal_of_find? found), recorded⟩
  · exact ⟨present, rfl, List.forall_mem_cons.mpr ⟨present, recorded⟩⟩

theorem Cache.share_spec (coherent : Coherent s known) (sound : cache.Sound known)
    (present : c ∈ known) :
    (cache.share c).1 ∈ known ∧ (cache.share c).1.tree = c.tree ∧
      (cache.share c).2.Sound known := by
  unfold Cache.share
  split
  · obtain ⟨kept, value, recorded⟩ := Table.canonical_spec coherent sound.canonical present
    exact ⟨kept, value, sound.recorded, recorded⟩
  · exact ⟨present, rfl, sound⟩

/-- A join on record is the result of an entry, and reading it puts nothing new on record. -/
theorem JoinMemo.exists_of_lookup? {memo found : JoinMemo}
    (answer : memo.lookup? a b = some (c, found)) :
    ∃ e ∈ memo.entries, e.matches a b = true ∧ e.result = c ∧ found.entries ⊆ memo.entries := by
  unfold JoinMemo.lookup? at answer
  split at answer
  · rename_i e recorded
    obtain ⟨rfl, rfl⟩ := Prod.mk.inj (Option.some.inj answer)
    have present := List.mem_of_find?_eq_some recorded
    have answers := List.find?_some recorded
    exact ⟨e, present, answers, rfl,
      List.cons_subset.mpr ⟨present, fun _ old => List.mem_of_mem_eraseP old⟩⟩
  · contradiction

/-- Operands are recognised in either order, which makes no difference to the value. -/
theorem JoinMemo.lookup?_spec (coherent : Coherent s known) {memo found : JoinMemo}
    (recorded : ∀ e ∈ memo.entries, e.Sound known) (left : a ∈ known) (right : b ∈ known)
    (answer : memo.lookup? a b = some (c, found)) :
    c ∈ known ∧ c.tree = a.tree.join b.tree ∧ ∀ e ∈ found.entries, e.Sound known := by
  obtain ⟨e, present, answers, rfl, kept⟩ := JoinMemo.exists_of_lookup? answer
  have sound := recorded e present
  refine ⟨sound.result, ?_, fun e' old => recorded e' (kept old)⟩
  simp only [Entry.matches, Bool.or_eq_true, Bool.and_eq_true] at answers
  rcases answers with ⟨sameLeft, sameRight⟩ | ⟨sameLeft, sameRight⟩
  · rw [sound.value, coherent.eq_of_identical sound.left left sameLeft,
      coherent.eq_of_identical sound.right right sameRight]
  · rw [sound.value, coherent.eq_of_identical sound.left right sameLeft,
      coherent.eq_of_identical sound.right left sameRight]
    exact Tree.join_comm (coherent.canonical right) (coherent.canonical left)

/-- What holds of a stored join and of all joins before holds of what is on record afterwards. -/
theorem JoinMemo.forall_store {memo : JoinMemo} {motive : Entry → Prop} (new : motive ⟨a, b, c⟩)
    (old : ∀ e ∈ memo.entries, motive e) : ∀ e ∈ (memo.store a b c).entries, motive e := by
  have all : ∀ e ∈ ⟨a, b, c⟩ :: memo.entries.eraseP (·.matches a b), motive e :=
    List.forall_mem_cons.mpr ⟨new, fun e present => old e (List.mem_of_mem_eraseP present)⟩
  unfold JoinMemo.store JoinMemo.trim
  split
  · exact all
  · exact fun e present => all e (List.mem_of_mem_take present)

end Context

/-- What joins work with is in order. -/
structure Joiner.Sound (known : Set Context) (j : Joiner) : Prop where
  coherent : Coherent j.supply known
  cache : j.cache.Sound known

/-- What a join delivered has the given value, and what is known grows by it. -/
def Joins (known : Set Context) (t : Tree) (joined : Context × Joiner) : Prop :=
  ∃ wider, known ⊆ wider ∧ Joiner.Sound wider joined.2 ∧ joined.1 ∈ wider ∧ joined.1.tree = t

namespace Context

/-- A result with the value of an operand is that operand, the left one if it can be either. -/
def KeepsOperand (left right result : Context) : Prop :=
  (result.tree = left.tree → result = left) ∧
    (result.tree ≠ left.tree → result.tree = right.tree → result = right)

/-- What merging two rows of known paths delivers. -/
structure Merges (wider : Set Context) (ps qs : List Path) (merged : Merge × Joiner) : Prop where
  sound : Joiner.Sound wider merged.2
  parents : ∀ path ∈ merged.1.paths, path.2 ∈ wider
  value : treePaths merged.1.paths = Tree.merge (treePaths ps) (treePaths qs)
  isLeft : merged.1.isLeft = true ↔ treePaths merged.1.paths = treePaths ps
  isRight : merged.1.isRight = true ↔ treePaths merged.1.paths = treePaths qs

variable {known : Set Context} {j : Joiner} {a b p q : Context} {ps qs : List Path}
  {k k' : ReturnState}

theorem joins_same (sound : j.Sound known) (present : a ∈ known) : Joins known a.tree (a, j) :=
  ⟨known, subset_rfl, sound, present, rfl⟩

/-- Building with the supply of a join leaves its cache in order. -/
theorem joins_of_builds {t : Tree} {built : Context × Supply} (sound : j.Sound known)
    (builds : Builds known t built) :
    Joins known t (built.1, { j with supply := built.2 }) := by
  obtain ⟨wider, included, coherent, present, value⟩ := builds
  exact ⟨wider, included, ⟨coherent, sound.cache.mono included⟩, present, value⟩

/-- The memory answers with the value that it would have computed. -/
theorem remember_spec {compute : Joiner → Context × Joiner} (sound : j.Sound known)
    (left : a ∈ known) (right : b ∈ known)
    (computes : ∀ j', Joiner.Sound known j' → Joins known (a.tree.join b.tree) (compute j')) :
    Joins known (a.tree.join b.tree) (remember compute a b j) := by
  unfold remember
  split
  · split
    · rename_i found answer
      obtain ⟨present, value, recorded⟩ :=
        JoinMemo.lookup?_spec sound.coherent sound.cache.recorded left right answer
      exact ⟨known, subset_rfl, ⟨sound.coherent, recorded, sound.cache.canonical⟩, present, value⟩
    · obtain ⟨wider, included, sound', present, value⟩ :=
        computes { j with cache := { j.cache with misses := j.cache.misses + 1 } }
          ⟨sound.coherent, sound.cache.recorded, sound.cache.canonical⟩
      obtain ⟨kept, shared, cache⟩ := Cache.share_spec sound'.coherent sound'.cache present
      have entry : JoinMemo.Entry.Sound wider ⟨a, b, _⟩ :=
        ⟨included left, included right, kept, shared.trans value⟩
      exact ⟨wider, included, ⟨sound'.coherent, JoinMemo.forall_store entry cache.recorded,
        cache.canonical⟩, kept, shared.trans value⟩
  · exact computes j sound

theorem joinOutermost_spec (sound : j.Sound known) (present : a ∈ known) :
    Joins known a.tree.addOutermost (joinOutermost a j) ∧
      (a.tree.addOutermost = a.tree → (joinOutermost a j).1 = a) := by
  obtain ⟨builds, kept⟩ := addOutermost_spec sound.coherent present
  exact ⟨joins_of_builds sound builds, kept⟩

theorem mergeAll_below (smaller : k < k') (j : Joiner) :
    mergeAll ((k, p) :: ps) ((k', q) :: qs) j =
      let rest := mergeAll ps ((k', q) :: qs) j
      (⟨(k, p) :: rest.1.paths, rest.1.isLeft, false⟩, rest.2) := by
  have different : k ≠ k' := by grind
  have notAbove : ¬ k' < k := by grind
  simp only [mergeAll, mergePath, if_neg notAbove, if_neg different]

theorem mergeAll_equal (j : Joiner) :
    mergeAll ((k, p) :: ps) ((k, q) :: qs) j =
      let joined := remember (p.join q) p q j
      let rest := mergeAll ps qs joined.2
      (⟨(k, joined.1) :: rest.1.paths, joined.1.equal p && rest.1.isLeft,
        joined.1.equal q && rest.1.isRight⟩, rest.2) := by
  have irreflexive : ¬ k < k := by grind
  simp only [mergeAll, mergePath, if_neg irreflexive, if_pos]

theorem mergeAll_above (larger : k' < k) (j : Joiner) :
    mergeAll ((k, p) :: ps) ((k', q) :: qs) j =
      let rest := mergeAll ((k, p) :: ps) qs j
      (⟨(k', q) :: rest.1.paths, false, rest.1.isRight⟩, rest.2) := by
  simp only [mergeAll, mergePath, if_pos larger]

theorem mergeAll_nil_right (ps : List Path) (j : Joiner) :
    mergeAll ps [] j = (⟨ps, true, ps.isEmpty⟩, j) := by
  induction ps with
  | nil => rfl
  | cons path ps ih => simp [mergeAll, mergePath, ih]

/-- A join of a context with any known one has the value of the join of their trees, and keeps
an operand where it can. -/
def Joinable (a : Context) : Prop :=
  ∀ {known : Set Context} {j : Joiner} {b : Context}, j.Sound known → a ∈ known → b ∈ known →
    Joins known (a.tree.join b.tree) (a.join b j) ∧ KeepsOperand a b (a.join b j).1

theorem Joinable.remember (joinable : Joinable p) (sound : j.Sound known) (left : p ∈ known)
    (right : q ∈ known) :
    Joins known (p.tree.join q.tree) (Context.remember (p.join q) p q j) :=
  remember_spec sound left right fun _ sound' => (joinable sound' left right).1

/-- Putting a path of the left row in front of a merge. -/
theorem Merges.consLeft {wider : Set Context} {rest : Merge × Joiner}
    (merges : Merges wider ps ((k', q) :: qs) rest) (present : p ∈ wider) (smaller : k < k') :
    Merges wider ((k, p) :: ps) ((k', q) :: qs)
      (⟨(k, p) :: rest.1.paths, rest.1.isLeft, false⟩, rest.2) := by
  have different : k ≠ k' := by grind
  refine ⟨merges.sound, List.forall_mem_cons.mpr ⟨present, merges.parents⟩, ?_, ?_, ?_⟩
  · simp only [treePaths, Tree.merge_below smaller, merges.value]
  · simp only [merges.isLeft, treePaths, List.cons.injEq, true_and]
  · simp [treePaths, different]

/-- Putting a path of the right row in front of a merge. -/
theorem Merges.consRight {wider : Set Context} {rest : Merge × Joiner}
    (merges : Merges wider ((k, p) :: ps) qs rest) (present : q ∈ wider) (larger : k' < k) :
    Merges wider ((k, p) :: ps) ((k', q) :: qs)
      (⟨(k', q) :: rest.1.paths, false, rest.1.isRight⟩, rest.2) := by
  have different : k' ≠ k := by grind
  refine ⟨merges.sound, List.forall_mem_cons.mpr ⟨present, merges.parents⟩, ?_, ?_, ?_⟩
  · simp only [treePaths, Tree.merge_above larger, merges.value]
  · simp [treePaths, different]
  · simp only [merges.isRight, treePaths, List.cons.injEq, true_and]

/-- Putting a joined path in front of a merge. -/
theorem Merges.consBoth {wider : Set Context} {rest : Merge × Joiner} {joined : Context}
    (merges : Merges wider ps qs rest) (present : joined ∈ wider) (left : p ∈ wider)
    (right : q ∈ wider) (value : joined.tree = p.tree.join q.tree) :
    Merges wider ((k, p) :: ps) ((k, q) :: qs)
      (⟨(k, joined) :: rest.1.paths, joined.equal p && rest.1.isLeft,
        joined.equal q && rest.1.isRight⟩, rest.2) := by
  have coherent := merges.sound.coherent
  refine ⟨merges.sound, List.forall_mem_cons.mpr ⟨present, merges.parents⟩, ?_, ?_, ?_⟩
  · simp only [treePaths, Tree.merge_equal, merges.value, value]
  · simp only [Bool.and_eq_true, coherent.equal_iff present left, merges.isLeft, treePaths,
      List.cons.injEq, Prod.mk.injEq, true_and]
  · simp only [Bool.and_eq_true, coherent.equal_iff present right, merges.isRight, treePaths,
      List.cons.injEq, Prod.mk.injEq, true_and]

/-- Merging rows with joinable parents on the left merges their trees, and says rightly whether
either side is left as it was. -/
theorem mergeAll_spec (joinable : ∀ path ∈ ps, Joinable path.2) (sound : j.Sound known)
    (left : ∀ path ∈ ps, path.2 ∈ known) (right : ∀ path ∈ qs, path.2 ∈ known) :
    ∃ wider, known ⊆ wider ∧ Merges wider ps qs (mergeAll ps qs j) := by
  induction ps, qs using Tree.merge_induction generalizing known j with
  | left qs =>
    refine ⟨known, subset_rfl, sound, right, rfl, ?_, by simp [mergeAll]⟩
    cases qs <;> simp [mergeAll, treePaths]
  | right ps =>
    rw [mergeAll_nil_right]
    refine ⟨known, subset_rfl, sound, left, by simp [treePaths], by simp, ?_⟩
    cases ps <;> simp [treePaths]
  | below k p ps k' q qs smaller ih =>
    obtain ⟨firstLeft, restLeft⟩ := List.forall_mem_cons.mp left
    obtain ⟨wider, included, merges⟩ := ih (List.forall_mem_cons.mp joinable).2 sound restLeft right
    rw [mergeAll_below smaller]
    exact ⟨wider, included, merges.consLeft (included firstLeft) smaller⟩
  | equal k p ps q qs ih =>
    obtain ⟨firstLeft, restLeft⟩ := List.forall_mem_cons.mp left
    obtain ⟨firstRight, restRight⟩ := List.forall_mem_cons.mp right
    obtain ⟨first, others⟩ := List.forall_mem_cons.mp joinable
    obtain ⟨middle, upward, sound', present, value⟩ := first.remember sound firstLeft firstRight
    obtain ⟨wider, included, merges⟩ := ih others sound'
      (fun path inRow => upward (restLeft path inRow))
      (fun path inRow => upward (restRight path inRow))
    rw [mergeAll_equal]
    exact ⟨wider, upward.trans included, merges.consBoth (included present)
      (included (upward firstLeft)) (included (upward firstRight)) value⟩
  | above k p ps k' q qs larger ih =>
    obtain ⟨firstRight, restRight⟩ := List.forall_mem_cons.mp right
    obtain ⟨wider, included, merges⟩ := ih joinable sound left restRight
    rw [mergeAll_above larger]
    exact ⟨wider, included, merges.consRight (included firstRight) larger⟩

/-- Nodes are joined by merging their rows; a new node is built only if the merged row differs from
both. -/
theorem join_nodes_spec {l l' : Label} {d d' : Digest} (sound : j.Sound known)
    (joinable : ∀ path ∈ ps, Joinable path.2) (left : node l d ps ∈ known)
    (right : node l' d' qs ∈ known) (different : (node l d ps).equal (node l' d' qs) = false) :
    Joins known (.node (Tree.merge (treePaths ps) (treePaths qs)))
        ((node l d ps).join (node l' d' qs) j) ∧
      KeepsOperand (node l d ps) (node l' d' qs) ((node l d ps).join (node l' d' qs) j).1 := by
  obtain ⟨wider, included, merges⟩ := mergeAll_spec joinable sound
    (fun _ inRow => sound.coherent.parent left inRow)
    (fun _ inRow => sound.coherent.parent right inRow)
  have row : Tree.Row ((mergeAll ps qs j).1.paths.map (·.1)) := by
    rw [← keys_treePaths, merges.value]
    exact Tree.row_merge (by simpa using sound.coherent.row left)
      (by simpa using sound.coherent.row right)
  simp only [join, different, Bool.false_eq_true, if_false, ← merges.value]
  cases isLeft : (mergeAll ps qs j).1.isLeft with
  | true =>
    have value := merges.isLeft.mp isLeft
    simp only [if_true, value]
    exact ⟨⟨wider, included, merges.sound, included left, rfl⟩, fun _ => rfl,
      fun off => absurd rfl off⟩
  | false =>
    have changedLeft : treePaths (mergeAll ps qs j).1.paths ≠ treePaths ps :=
      fun same => by simp [merges.isLeft.mpr same] at isLeft
    cases isRight : (mergeAll ps qs j).1.isRight with
    | true =>
      have value := merges.isRight.mp isRight
      simp only [Bool.false_eq_true, if_false, if_true, value]
      refine ⟨⟨wider, included, merges.sound, included right, rfl⟩, ?_, fun _ _ => rfl⟩
      intro same
      exact absurd (Tree.node.inj same) (value ▸ changedLeft)
    | false =>
      have changedRight : treePaths (mergeAll ps qs j).1.paths ≠ treePaths qs :=
        fun same => by simp [merges.isRight.mpr same] at isRight
      have builds := Builds.ofPaths_row merges.sound.coherent row merges.parents
      obtain ⟨widest, included', sound', present, value⟩ := joins_of_builds merges.sound builds
      simp only [Bool.false_eq_true, if_false]
      refine ⟨⟨widest, included.trans included', sound', present, value⟩, ?_, ?_⟩
      · intro same
        exact absurd (Tree.node.inj (value.symm.trans same)) changedLeft
      · intro _ same
        exact absurd (Tree.node.inj (value.symm.trans same)) changedRight

theorem join_of_equal (same : a.equal b = true) (j : Joiner) : a.join b j = (a, j) := by
  cases a <;> simp only [join, same, if_true]

/-- The join of equal contexts is the left one, whatever their kind. -/
theorem Joinable.of_different
    (joins : ∀ {known : Set Context} {j : Joiner} {b : Context}, j.Sound known → a ∈ known →
      b ∈ known → a.equal b = false →
        Joins known (a.tree.join b.tree) (a.join b j) ∧ KeepsOperand a b (a.join b j).1) :
    Joinable a := by
  intro known j b sound left right
  cases same : a.equal b with
  | true =>
    have value := (sound.coherent.equal_iff left right).mp same
    rw [join_of_equal same, ← value, Tree.join_self]
    exact ⟨joins_same sound left, fun _ => rfl, fun off => absurd rfl off⟩
  | false => exact joins sound left right same

theorem joinable (a : Context) : Joinable a := by
  induction a with
  | outermostAt l =>
    refine Joinable.of_different fun {known j b} sound left right different => ?_
    obtain ⟨joins, kept⟩ := joinOutermost_spec sound right
    obtain ⟨wider, -, -, -, value⟩ := id joins
    simp only [join, different, Bool.false_eq_true, if_false]
    refine ⟨joins, ?_, fun _ same => kept (value.symm.trans same)⟩
    intro same
    have outermost := Tree.addOutermost_eq_outermost_iff.mp (value.symm.trans same)
    have equal := (sound.coherent.equal_iff left right).mpr outermost.symm
    exact absurd equal (by simp [different])
  | wildcardAt =>
    intro known j b sound left right
    exact ⟨joins_same sound left, fun _ => rfl, fun off => absurd rfl off⟩
  | node l d ps ih =>
    refine Joinable.of_different fun {known j b} sound left right different => ?_
    cases b with
    | outermostAt =>
      obtain ⟨joins, kept⟩ := joinOutermost_spec sound left
      obtain ⟨wider, -, -, -, value⟩ := id joins
      simp only [join, different, Bool.false_eq_true, if_false]
      refine ⟨joins, fun same => kept (value.symm.trans same), ?_⟩
      intro _ same
      exact absurd (value.symm.trans same) (by simp [tree, Tree.addOutermost])
    | wildcardAt =>
      simp only [join, different, Bool.false_eq_true, if_false]
      exact ⟨joins_same sound right, fun off => by simp [tree] at off, fun _ _ => rfl⟩
    | node l' d' qs => exact join_nodes_spec sound ih left right different

end Context

end Prediction
