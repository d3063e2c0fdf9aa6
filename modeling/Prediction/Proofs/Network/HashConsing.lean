import Prediction.Proofs.Context.Graph
import Prediction.Proofs.Context.Table
import Prediction.Proofs.Network.Intern

/-!
Interning is hash-consing. A network has one instance on record for each value of a node, and the
parents of what is on record are on record, down to the empty contexts, which are left as they are.
A traversal keeps it so, whether it stops early, keeps a node or builds it again, and what it hands
out is on record at the end.
-/

namespace Prediction

open Context

namespace Context

/-- Each kind of empty context comes in one instance. -/
def EmptiesOnce (cs : Set Context) : Prop :=
  ∀ a ∈ cs, ∀ b ∈ cs, a.isEmpty = true → a.equal b = true → a.identical b = true

/-- All empty contexts that the context reaches are among the given ones. -/
def EmptiesWithin (empties : Set Context) (c : Context) : Prop :=
  ∀ d, c.Reaches d → d.isEmpty = true → d ∈ empties

variable {empties : Set Context} {a b c : Context}

theorem isEmpty_of_tree (same : a.tree = b.tree) : a.isEmpty = b.isEmpty := by
  cases a <;> cases b <;> simp_all [isEmpty, isOutermost, isWildcard, tree]

/-- Empty contexts of one kind may be told apart as instances alone. -/
theorem equal_iff_tree_of_isEmpty (isEmpty : a.isEmpty = true) :
    a.equal b = true ↔ a.tree = b.tree := by
  cases a <;> cases b <;> simp_all [Context.isEmpty, isOutermost, isWildcard, tree, equal]

theorem isEmpty_of_equal (isEmpty : a.isEmpty = true) (equal : a.equal b = true) :
    b.isEmpty = true :=
  isEmpty_of_tree ((equal_iff_tree_of_isEmpty isEmpty).mp equal) ▸ isEmpty

theorem EmptiesWithin.parent (within : c.EmptiesWithin empties) {path : Path}
    (inRow : path ∈ c.paths) : path.2.EmptiesWithin empties :=
  fun d reaches isEmpty => within d (.parent inRow reaches) isEmpty

theorem EmptiesOnce.mono {cs wider : Set Context} (once : EmptiesOnce wider)
    (included : ∀ c ∈ cs, c.isEmpty = true → c ∈ wider) : EmptiesOnce cs := by
  intro a left b right isEmpty equal
  have isEmpty' := isEmpty_of_equal isEmpty equal
  exact once a (included a left isEmpty) b (included b right isEmpty') isEmpty equal

end Context

namespace Context.Table

/-- The table has this very instance, or it is one of the given empty contexts, none of which is
ever put on record. -/
def Holds (t : Table) (empties : Set Context) (c : Context) : Prop :=
  (c.isEmpty = true ∧ c ∈ empties) ∨ c ∈ t.entries

/-- Instances on record are nodes, their parents are on record, and no two of them have the same
value. -/
structure HashConsed (t : Table) (empties : Set Context) : Prop where
  nodes : ∀ c ∈ t.entries, c.isEmpty = false
  parents : ∀ c ∈ t.entries, ∀ path ∈ c.paths, t.Holds empties path.2
  unique : ∀ a ∈ t.entries, ∀ b ∈ t.entries, a.tree = b.tree → a = b

variable {t later : Table} {empties : Set Context} {a b c : Context} {known : Set Context}
  {s : Supply}

theorem Holds.mono (held : t.Holds empties c) (grows : t.entries ⊆ later.entries) :
    later.Holds empties c :=
  held.imp_right fun present => grows present

theorem Holds.mem (held : t.Holds empties c) (coherent : Coherent s known)
    (recorded : ∀ c ∈ t.entries, c ∈ known) : c ∈ known :=
  held.elim (fun ⟨isEmpty, _⟩ => coherent.empty c isEmpty) (recorded c)

theorem hashConsed_empty : HashConsed empty empties where
  nodes _ present := absurd present List.not_mem_nil
  parents _ present := absurd present List.not_mem_nil
  unique _ present := absurd present List.not_mem_nil

theorem HashConsed.mem_empties (consed : t.HashConsed empties) (held : t.Holds empties c)
    (isEmpty : c.isEmpty = true) : c ∈ empties := by
  rcases held with ⟨-, given⟩ | present
  · exact given
  · exact absurd isEmpty (by simp [consed.nodes c present])

/-- Nodes of one value are one instance. -/
theorem HashConsed.eq_of_tree (consed : t.HashConsed empties) (left : t.Holds empties a)
    (right : t.Holds empties b) (node : a.isEmpty = false) (same : a.tree = b.tree) : a = b := by
  have node' : b.isEmpty = false := isEmpty_of_tree same ▸ node
  have present := left.resolve_left fun ⟨isEmpty, _⟩ => by simp [node] at isEmpty
  have present' := right.resolve_left fun ⟨isEmpty, _⟩ => by simp [node'] at isEmpty
  exact consed.unique a present b present' same

theorem HashConsed.reaches (consed : t.HashConsed empties) (held : t.Holds empties a)
    (reaches : a.Reaches c) : t.Holds empties c := by
  induction reaches with
  | self => exact held
  | @parent c _ path inRow _ ih =>
    refine ih ?_
    rcases held with ⟨isEmpty, -⟩ | present
    · cases c with
      | node => contradiction
      | _ => exact absurd inRow List.not_mem_nil
    · exact consed.parents c present path inRow

theorem HashConsed.find?_self (consed : t.HashConsed empties) (coherent : Coherent s known)
    (recorded : ∀ c ∈ t.entries, c ∈ known) (present : c ∈ t.entries) : t.find? c = some c := by
  cases found : t.find? c with
  | none =>
    have different := List.find?_eq_none.mp found c present
    exact absurd (equal_of_identical (identical_self c)) different
  | some instead =>
    have inTable := mem_of_find? found
    have same := (coherent.equal_iff (recorded _ inTable) (recorded c present)).mp
      (equal_of_find? found)
    rw [consed.unique instead inTable c present same]

/-- A node over instances on record may go on record, if no instance of its value is there. -/
theorem HashConsed.canonical (consed : t.HashConsed empties) (coherent : Coherent s known)
    (recorded : ∀ c ∈ t.entries, c ∈ known) (present : c ∈ known) (node : c.isEmpty = false)
    (parents : ∀ path ∈ c.paths, t.Holds empties path.2) :
    (t.canonical c).2.HashConsed empties := by
  have grows := t.entries_subset_canonical c
  unfold Table.canonical at grows ⊢
  split
  · exact consed
  · rename_i missing
    rw [missing] at grows
    have unlisted := (find?_eq_none_iff coherent recorded present).mp missing
    have different : ∀ a ∈ t.entries, a.tree ≠ c.tree := fun a inTable same =>
      unlisted (List.mem_map.mpr ⟨a, inTable, same⟩)
    refine ⟨List.forall_mem_cons.mpr ⟨node, consed.nodes⟩, ?_, ?_⟩
    · refine List.forall_mem_cons.mpr ⟨fun path inRow => (parents path inRow).mono grows, ?_⟩
      intro a inTable path inRow
      exact (consed.parents a inTable path inRow).mono grows
    · rintro a listed b listed' same
      rcases List.mem_cons.mp listed with rfl | old <;>
        rcases List.mem_cons.mp listed' with rfl | old'
      · rfl
      · exact absurd same.symm (different b old')
      · exact absurd same (different a old)
      · exact consed.unique a old b old' same

end Context.Table

namespace Network

/-- The table of a traversal is in order, and its answers are on record. -/
structure Interner.Consed (empties : Set Context) (i : Interner) : Prop where
  table : i.table.HashConsed empties
  answers : ∀ entry ∈ i.visited, entry.2 ∈ i.table.entries

/-- The traversal went on from one state to another, and everything on record is still there. -/
structure Interner.Grows (empties : Set Context) (i later : Interner) : Prop where
  consed : later.Consed empties
  entries : i.table.entries ⊆ later.table.entries

/-- The traversal went on, and the table holds what it answered. -/
structure Interner.Conses (empties : Set Context) (i : Interner) (interned : Context × Interner) :
    Prop where
  grows : i.Grows empties interned.2
  held : interned.2.table.Holds empties interned.1

namespace Interner

variable {known empties : Set Context} {i middle later : Interner} {l : Label} {d : Digest}
  {ps : List Path} {c : Context}

theorem Consed.refl (consed : i.Consed empties) : i.Grows empties i :=
  ⟨consed, List.Subset.refl _⟩

theorem Grows.trans (first : i.Grows empties middle) (second : middle.Grows empties later) :
    i.Grows empties later :=
  ⟨second.consed, List.Subset.trans first.entries second.entries⟩

theorem Consed.answer (consed : i.Consed empties) (present : c ∈ i.table.entries) :
    i.Conses empties (i.answer l c) where
  grows := ⟨⟨consed.table, List.forall_mem_cons.mpr ⟨present, consed.answers⟩⟩, List.Subset.refl _⟩
  held := .inr present

theorem Consed.record (sound : i.Sound known) (consed : i.Consed empties)
    (present : node l d ps ∈ known) {interned : List Path}
    (parents : ∀ path ∈ interned, path.2 ∈ known) (values : treePaths interned = treePaths ps)
    (held : ∀ path ∈ interned, i.table.Holds empties path.2) :
    i.Conses empties (i.record l (node l d ps) interned) := by
  obtain ⟨⟨wider, included, coherent, built, value⟩, paths⟩ := sound.updated present parents values
  have table := consed.table.canonical coherent (fun c old => included (sound.recorded c old)) built
    (isEmpty_of_tree (b := node l d ps) value) fun path inRow => held path (paths ▸ inRow)
  have grows := i.table.entries_subset_canonical (i.updated (node l d ps) interned).1
  have inTable := i.table.canonical_mem (i.updated (node l d ps) interned).1
  have consed' : Interner.Consed empties ⟨(i.updated (node l d ps) interned).2, _, i.visited⟩ :=
    ⟨table, fun entry old => grows (consed.answers entry old)⟩
  rw [record_eq]
  exact ⟨⟨(consed'.answer inTable).grows.consed, grows⟩, .inr inTable⟩

theorem internPaths_conses (parents : ∀ path ∈ ps, ∀ {known : Set Context} {i : Interner},
      i.Sound known → i.Consed empties → path.2 ∈ known → i.Conses empties (intern path.2 i))
    (sound : i.Sound known) (consed : i.Consed empties) (present : ∀ path ∈ ps, path.2 ∈ known) :
    i.Grows empties (internPaths ps i).2 ∧
      ∀ path ∈ (internPaths ps i).1, (internPaths ps i).2.table.Holds empties path.2 := by
  induction ps generalizing known i with
  | nil => exact ⟨consed.refl, fun path inRow => absurd inRow List.not_mem_nil⟩
  | cons path ps ih =>
    obtain ⟨first, others⟩ := List.forall_mem_cons.mp parents
    obtain ⟨firstPresent, othersPresent⟩ := List.forall_mem_cons.mp present
    obtain ⟨grows, held⟩ := first sound consed firstPresent
    obtain ⟨wider, upward, sound', -, -⟩ := intern_spec path.2 sound firstPresent
    obtain ⟨grows', held'⟩ := ih others sound' grows.consed fun path inRow =>
      upward (othersPresent path inRow)
    exact ⟨grows.trans grows', List.forall_mem_cons.mpr ⟨held.mono grows'.entries, held'⟩⟩

/-- By induction on the context. What was met before, and what equals an instance on record, is
answered at once. -/
theorem intern_conses (c : Context) {known : Set Context} {i : Interner} (sound : i.Sound known)
    (consed : i.Consed empties) (present : c ∈ known) (within : c.EmptiesWithin empties) :
    i.Conses empties (intern c i) := by
  induction c generalizing known i with
  | outermostAt l => exact ⟨consed.refl, .inl ⟨rfl, within _ (.self _) rfl⟩⟩
  | wildcardAt l => exact ⟨consed.refl, .inl ⟨rfl, within _ (.self _) rfl⟩⟩
  | node l d ps ih =>
    unfold intern
    split
    · rename_i answer found
      obtain ⟨front, back, split, -⟩ := List.lookup_eq_some_iff.mp found
      exact ⟨consed.refl, .inr (consed.answers (l, answer) (by simp [split]))⟩
    · split
      · rename_i recorded found
        exact consed.answer (Table.mem_of_find? found)
      · have parents (path : Path) (inRow : path ∈ ps) : path.2 ∈ known :=
          sound.coherent.parent present inRow
        obtain ⟨wider, included, sound', known', values⟩ :=
          internPaths_spec (fun path _ => intern_spec path.2) sound parents
        obtain ⟨grows, held⟩ := internPaths_conses
          (fun path inRow _ _ sound consed present =>
            ih path inRow sound consed present (within.parent inRow)) sound consed parents
        obtain ⟨grows', held'⟩ :=
          grows.consed.record sound' (included present) known' values held
        exact ⟨grows.trans grows', held'⟩

end Interner

variable {known empties : Set Context} {n : Network} {s : Supply} {c : Context}

/-- The network is in order, and everything that was on record is still there. -/
structure Grows (empties : Set Context) (n later : Network) : Prop where
  consed : later.interned.HashConsed empties
  entries : n.interned.entries ⊆ later.interned.entries

theorem Grows.refl (consed : n.interned.HashConsed empties) : n.Grows empties n :=
  ⟨consed, List.Subset.refl _⟩

theorem Grows.trans {middle later : Network} (first : n.Grows empties middle)
    (second : middle.Grows empties later) : n.Grows empties later :=
  ⟨second.consed, List.Subset.trans first.entries second.entries⟩

/-- Interning keeps a network in order, and what it hands out is on record then. -/
theorem intern_grows (coherent : Coherent s known) (sound : n.Sound known)
    (consed : n.interned.HashConsed empties) (present : c ∈ known)
    (within : c.EmptiesWithin empties) :
    n.Grows empties (n.intern c s).2.1 ∧
      (n.intern c s).2.1.interned.Holds empties (n.intern c s).1 := by
  have start : Interner.Sound known ⟨s, n.interned, []⟩ :=
    ⟨coherent, sound, fun _ impossible => absurd impossible List.not_mem_nil⟩
  have orderly : Interner.Consed empties ⟨s, n.interned, []⟩ :=
    ⟨consed, fun _ impossible => absurd impossible List.not_mem_nil⟩
  obtain ⟨⟨consed', entries⟩, held⟩ := Interner.intern_conses c start orderly present within
  exact ⟨⟨consed'.table, entries⟩, held⟩

/-- Empty contexts are returned as they are, be they copies or not. -/
theorem intern_of_isEmpty (isEmpty : c.isEmpty = true) (n : Network) (supply : Supply) :
    n.intern c supply = (c, n, supply) := by
  cases c with
  | node => contradiction
  | _ => rfl

/-- An instance on record is its own canonical instance, and interning it once more does nothing. -/
theorem intern_of_held (coherent : Coherent s known) (sound : n.Sound known)
    (consed : n.interned.HashConsed empties) (held : n.interned.Holds empties c)
    (supply : Supply) : n.intern c supply = (c, n, supply) := by
  rcases held with ⟨isEmpty, -⟩ | inTable
  · exact intern_of_isEmpty isEmpty n supply
  · cases c with
    | node l d ps =>
      have found := consed.find?_self coherent sound inTable
      simp [Network.intern, Interner.intern, found, Interner.answer]
    | _ => exact intern_of_isEmpty rfl n supply

end Network

end Prediction
