import Prediction.Proofs.Network.HashConsing

/-!
What interning adds to a network. Only values that occur in the context go on record, each of them
once, and the instances that come out have as many nodes as there are values in them.
-/

namespace Prediction

open Context

namespace Context.Table

variable {t middle later : Table} {vs ws : List Tree}

/-- The table has grown by nodes with some of the given values, and still has each value once. -/
structure Adds (vs : List Tree) (t later : Table) : Prop where
  occurs : ∀ v ∈ later.values, v ∈ t.values ∨ v ∈ vs.filter Tree.isNode
  distinct : t.values.Nodup → later.values.Nodup

theorem Adds.refl (vs : List Tree) (t : Table) : Adds vs t t :=
  ⟨fun _ => .inl, id⟩

theorem Adds.mono (adds : Adds vs t later) (included : vs ⊆ ws) : Adds ws t later :=
  ⟨fun v listed => (adds.occurs v listed).imp_right fun new =>
    List.mem_filter.mpr ⟨included (List.mem_filter.mp new).1, (List.mem_filter.mp new).2⟩,
    adds.distinct⟩

theorem Adds.trans (first : Adds vs t middle) (second : Adds vs middle later) :
    Adds vs t later :=
  ⟨fun v listed => (second.occurs v listed).elim (first.occurs v) .inr,
    fun distinct => second.distinct (first.distinct distinct)⟩

theorem Adds.append (first : Adds vs t middle) (second : Adds ws middle later) :
    Adds (vs ++ ws) t later :=
  (first.mono (List.subset_append_left vs ws)).trans (second.mono (List.subset_append_right vs ws))

theorem adds_insert {v : Tree} (values : later.values = t.values.insert v)
    (isNode : v.isNode = true) (listed : v ∈ vs) : Adds vs t later := by
  refine ⟨?_, fun distinct => values ▸ distinct.insert⟩
  intro w present
  rw [values] at present
  rcases List.mem_insert_iff.mp present with rfl | old
  · exact .inr (List.mem_filter.mpr ⟨listed, isNode⟩)
  · exact .inl old

theorem Holds.mem_values {empties : Set Context} {c : Context} (held : t.Holds empties c)
    (isNode : c.tree.isNode = true) :
    c.tree ∈ t.values := by
  rcases held with ⟨isEmpty, -⟩ | present
  · cases c <;> contradiction
  · exact List.mem_map_of_mem present

end Context.Table

namespace Network

variable {known empties : Set Context} {i : Interner} {l : Label} {d : Digest} {ps : List Path}
  {n : Network} {s : Supply} {c : Context}

namespace Interner

theorem Sound.values_record (sound : i.Sound known) (present : node l d ps ∈ known)
    {interned : List Path} (parents : ∀ path ∈ interned, path.2 ∈ known)
    (values : treePaths interned = treePaths ps) :
    (i.record l (node l d ps) interned).2.table.values =
      i.table.values.insert (.node (treePaths ps)) := by
  obtain ⟨⟨wider, included, coherent, built, value⟩, -⟩ := sound.updated present parents values
  rw [record_eq, ← value]
  exact Table.values_canonical coherent (fun c old => included (sound.recorded c old)) built

theorem internPaths_adds (parents : ∀ path ∈ ps, ∀ {known : Set Context} {i : Interner},
      i.Sound known → path.2 ∈ known →
      Table.Adds path.2.tree.subtrees i.table (intern path.2 i).2.table)
    (sound : i.Sound known) (present : ∀ path ∈ ps, path.2 ∈ known) :
    Table.Adds (ps.flatMap fun path => path.2.tree.subtrees) i.table
      (internPaths ps i).2.table := by
  induction ps generalizing known i with
  | nil => exact .refl _ _
  | cons path ps ih =>
    obtain ⟨first, others⟩ := List.forall_mem_cons.mp parents
    obtain ⟨firstPresent, othersPresent⟩ := List.forall_mem_cons.mp present
    obtain ⟨wider, upward, sound', -, -⟩ := intern_spec path.2 sound firstPresent
    exact (first sound firstPresent).append
      (ih others sound' fun path inRow => upward (othersPresent path inRow))

/-- By induction on the context. Nothing goes on record for what is answered at once. -/
theorem intern_adds (c : Context) {known : Set Context} {i : Interner} (sound : i.Sound known)
    (present : c ∈ known) : Table.Adds c.tree.subtrees i.table (intern c i).2.table := by
  induction c generalizing known i with
  | outermostAt => exact .refl _ _
  | wildcardAt => exact .refl _ _
  | node l d ps ih =>
    unfold intern
    split
    · exact .refl _ _
    · split
      · exact .refl _ _
      · have parents (path : Path) (inRow : path ∈ ps) : path.2 ∈ known :=
          sound.coherent.parent present inRow
        obtain ⟨wider, included, sound', known', values⟩ :=
          internPaths_spec (fun path _ => intern_spec path.2) sound parents
        have below := internPaths_adds (fun path inRow => ih path inRow) sound parents
        have added := sound'.values_record (included present) known' values
        rw [subtrees_eq]
        exact (below.mono (List.subset_cons_self _ _)).trans
          (Table.adds_insert added rfl List.mem_cons_self)

end Interner

theorem intern_adds (coherent : Coherent s known) (sound : n.Sound known) (present : c ∈ known) :
    Table.Adds c.tree.subtrees n.interned (n.intern c s).2.1.interned := by
  have start : Interner.Sound known ⟨s, n.interned, []⟩ :=
    ⟨coherent, sound, List.forall_mem_nil _⟩
  exact Interner.intern_adds c start present

/-- A network that grew from nothing by some values, and holds an instance of each of them, has
exactly the nodes among them on record. -/
theorem internedCount_eq {vs : List Tree} (adds : Table.Adds vs .empty n.interned)
    (held : ∀ v ∈ vs, ∃ c, n.interned.Holds empties c ∧ c.tree = v) :
    n.internedCount = (vs.filter Tree.isNode).eraseDups.length := by
  have same (v : Tree) : v ∈ n.interned.values ↔ v ∈ (vs.filter Tree.isNode).eraseDups := by
    rw [List.mem_eraseDups]
    refine ⟨fun listed => (adds.occurs v listed).resolve_left List.not_mem_nil, fun listed => ?_⟩
    obtain ⟨occurs, isNode⟩ := List.mem_filter.mp listed
    obtain ⟨c, held, rfl⟩ := held v occurs
    exact held.mem_values isNode
  have perm := (List.perm_ext_iff_of_nodup (adds.distinct .nil) (nodup_eraseDups _)).mpr same
  rw [internedCount, Table.size, ← perm.length_eq, Table.values, List.length_map]

/-- In a network that is in order, different nodes have different values all the way down. Values
are repeated among empty contexts alone. -/
theorem nodeCount_of_held_iff (coherent : Coherent s known) (sound : n.Sound known)
    (consed : n.interned.HashConsed empties) (held : n.interned.Holds empties c) :
    c.nodeCount = c.tree.subtrees.eraseDups.length ↔ EmptiesOnce {d | c.Reaches d} := by
  have present := held.mem coherent sound
  rw [nodeCount_eq_distinct_iff coherent present]
  constructor
  · intro unique a left b right isEmpty equal
    rw [unique a b left right ((equal_iff_tree_of_isEmpty isEmpty).mp equal)]
    exact identical_self b
  · intro once a b left right same
    cases isEmpty : a.isEmpty with
    | true =>
      have equal := (equal_iff_tree_of_isEmpty isEmpty).mpr same
      exact coherent.eq_of_identical (left.mem coherent present) (right.mem coherent present)
        (once a left b right isEmpty equal)
    | false =>
      exact consed.eq_of_tree (consed.reaches held left) (consed.reaches held right) isEmpty same

end Network

end Prediction
