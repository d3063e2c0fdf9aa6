import Prediction.Network.Intern
import Prediction.Proofs.Context.Join

/-!
Interning does not change the value of a context, however the table and the instances met before
lead it to stop early, to keep a node or to build it again.
-/

namespace Prediction.Network

open Context

/-- What is on record in the network is known. -/
def Sound (known : Set Context) (n : Network) : Prop := ∀ c ∈ n.interned.entries, c ∈ known

/-- A traversal has met known instances only, and its answers for them have their values. -/
structure Interner.Sound (known : Set Context) (i : Interner) : Prop where
  coherent : Coherent i.supply known
  recorded : ∀ c ∈ i.table.entries, c ∈ known
  answers : ∀ entry ∈ i.visited, entry.2 ∈ known ∧
    ∃ d ps, node entry.1 d ps ∈ known ∧ entry.2.tree = .node (treePaths ps)

/-- What interning delivered has the given value, and what is known grows by it. -/
def Interns (known : Set Context) (t : Tree) (interned : Context × Interner) : Prop :=
  ∃ wider, known ⊆ wider ∧ Interner.Sound wider interned.2 ∧ interned.1 ∈ wider ∧
    interned.1.tree = t

def InternsPaths (known : Set Context) (ts : List Tree.Branch) (interned : List Path × Interner) :
    Prop :=
  ∃ wider, known ⊆ wider ∧ Interner.Sound wider interned.2 ∧
    (∀ path ∈ interned.1, path.2 ∈ wider) ∧ treePaths interned.1 = ts

variable {known : Set Context} {i : Interner} {l : Label} {d : Digest} {ps : List Path}
  {c : Context}

theorem Interner.Sound.answer (sound : i.Sound known) (present : node l d ps ∈ known)
    (answered : c ∈ known) (value : c.tree = .node (treePaths ps)) :
    Interns known (.node (treePaths ps)) (i.answer l c) :=
  ⟨known, subset_rfl, ⟨sound.coherent, sound.recorded,
    List.forall_mem_cons.mpr ⟨⟨answered, d, ps, present, value⟩, sound.answers⟩⟩, answered, value⟩

/-- A node that was met before has one answer, since no other node has its label. -/
theorem Interner.Sound.lookup (sound : i.Sound known) (present : node l d ps ∈ known)
    (found : i.visited.lookup l = some c) :
    c ∈ known ∧ c.tree = .node (treePaths ps) := by
  obtain ⟨front, back, split, -⟩ := List.lookup_eq_some_iff.mp found
  obtain ⟨answered, d', qs, other, value⟩ := sound.answers (l, c) (by simp [split])
  obtain rfl := sound.coherent.unique other present
  exact ⟨answered, value⟩

/-- If all parents are the same instances as before, the paths are. -/
theorem paths_of_kept {interned : List Path} {supply : Supply} (coherent : Coherent supply known)
    (present : ∀ path ∈ ps, path.2 ∈ known) (parents : ∀ path ∈ interned, path.2 ∈ known)
    (values : treePaths interned = treePaths ps)
    (kept : ((ps.zip interned).all fun pair => pair.1.2.identical pair.2.2) = true) :
    ps = interned := by
  induction ps generalizing interned with
  | nil => cases interned <;> simp_all [treePaths]
  | cons path ps ih =>
    cases interned with
    | nil => simp [treePaths] at values
    | cons other interned =>
      obtain ⟨k, p⟩ := path
      obtain ⟨k', p'⟩ := other
      simp only [treePaths, List.cons.injEq, Prod.mk.injEq] at values
      obtain ⟨⟨rfl, -⟩, values⟩ := values
      simp only [List.zip_cons_cons, List.all_cons, Bool.and_eq_true] at kept
      obtain ⟨first, others⟩ := List.forall_mem_cons.mp present
      obtain ⟨first', others'⟩ := List.forall_mem_cons.mp parents
      obtain rfl : p = p' := coherent.eq_of_identical first first' kept.1
      rw [ih others others' values kept.2]

/-- The node that goes on record if none of its value is there, kept or built again. -/
def Interner.updated (i : Interner) (c : Context) (ps : List Path) : Context × Supply :=
  if (c.paths.zip ps).all fun pair => pair.1.2.identical pair.2.2 then (c, i.supply)
  else Context.ofPaths ps i.supply

theorem Interner.record_eq (i : Interner) (l : Label) (c : Context) (ps : List Path) :
    i.record l c ps =
      let canonical := i.table.canonical (i.updated c ps).1
      answer ⟨(i.updated c ps).2, canonical.2, i.visited⟩ l canonical.1 := rfl

/-- Either way it lies over the interned paths. -/
theorem Interner.Sound.updated (sound : i.Sound known) (present : node l d ps ∈ known)
    {interned : List Path} (parents : ∀ path ∈ interned, path.2 ∈ known)
    (values : treePaths interned = treePaths ps) :
    Builds known (.node (treePaths ps)) (i.updated (node l d ps) interned) ∧
      (i.updated (node l d ps) interned).1.paths = interned := by
  unfold Interner.updated
  split
  · rename_i kept
    have paths := paths_of_kept sound.coherent (fun path => sound.coherent.parent present) parents
      values kept
    exact ⟨Builds.same sound.coherent present, paths⟩
  · have row : Tree.Row (interned.map (·.1)) := by
      rw [← keys_treePaths, values, keys_treePaths]
      exact sound.coherent.row present
    rw [ofPaths_eq_node row]
    exact ⟨values ▸ Builds.node sound.coherent row parents, rfl⟩

theorem Interner.Sound.record (sound : i.Sound known) (present : node l d ps ∈ known)
    {interned : List Path} (parents : ∀ path ∈ interned, path.2 ∈ known)
    (values : treePaths interned = treePaths ps) :
    Interns known (.node (treePaths ps)) (i.record l (node l d ps) interned) := by
  rw [record_eq]
  obtain ⟨⟨wider, included, coherent, built, value⟩, -⟩ := sound.updated present parents values
  obtain ⟨kept, same, recorded⟩ :=
    Table.canonical_spec coherent (fun c old => included (sound.recorded c old)) built
  have sound' : Interner.Sound wider ⟨_, _, i.visited⟩ := ⟨coherent, recorded, fun entry old => by
    obtain ⟨answered, d', qs, met, value⟩ := sound.answers entry old
    exact ⟨included answered, d', qs, included met, value⟩⟩
  obtain ⟨widest, included', rest⟩ := sound'.answer (included present) kept (same.trans value)
  exact ⟨widest, included.trans included', rest⟩

theorem Interner.internPaths_spec (parents : ∀ path ∈ ps, ∀ {known : Set Context} {i : Interner},
      i.Sound known → path.2 ∈ known → Interns known path.2.tree (intern path.2 i))
    (sound : i.Sound known) (present : ∀ path ∈ ps, path.2 ∈ known) :
    InternsPaths known (treePaths ps) (internPaths ps i) := by
  induction ps generalizing known i with
  | nil => exact ⟨known, subset_rfl, sound, present, rfl⟩
  | cons path ps ih =>
    obtain ⟨first, others⟩ := List.forall_mem_cons.mp parents
    obtain ⟨firstPresent, othersPresent⟩ := List.forall_mem_cons.mp present
    obtain ⟨middle, upward, sound', interned, value⟩ := first sound firstPresent
    obtain ⟨wider, included, sound'', rest, values⟩ :=
      ih others sound' fun path inRow => upward (othersPresent path inRow)
    refine ⟨wider, upward.trans included, sound'',
      List.forall_mem_cons.mpr ⟨included interned, rest⟩, ?_⟩
    simp only [internPaths, treePaths, value, values]

theorem Interner.intern_spec (c : Context) {known : Set Context} {i : Interner}
    (sound : i.Sound known) (present : c ∈ known) : Interns known c.tree (intern c i) := by
  induction c generalizing known i with
  | outermostAt => exact ⟨known, subset_rfl, sound, present, rfl⟩
  | wildcardAt => exact ⟨known, subset_rfl, sound, present, rfl⟩
  | node l d ps ih =>
    unfold intern
    split
    · rename_i answer found
      obtain ⟨answered, value⟩ := sound.lookup present found
      exact ⟨known, subset_rfl, sound, answered, value⟩
    · split
      · rename_i recorded found
        have inTable := sound.recorded _ (Table.mem_of_find? found)
        have value := (sound.coherent.equal_iff inTable present).mp (Table.equal_of_find? found)
        exact sound.answer present inTable value
      · obtain ⟨wider, included, sound', parents, values⟩ := internPaths_spec
          (fun path inRow => ih path inRow) sound
          fun path inRow => sound.coherent.parent present inRow
        obtain ⟨widest, included', rest⟩ := sound'.record (included present) parents values
        exact ⟨widest, included.trans included', rest⟩

/-- The canonical instance of a context has its value. -/
theorem intern_spec {s : Supply} {n : Network} (coherent : Coherent s known) (sound : n.Sound known)
    (present : c ∈ known) :
    ∃ wider, known ⊆ wider ∧ Coherent (n.intern c s).2.2 wider ∧
      Network.Sound wider (n.intern c s).2.1 ∧ (n.intern c s).1 ∈ wider ∧
      (n.intern c s).1.tree = c.tree := by
  have start : Interner.Sound known ⟨s, n.interned, []⟩ :=
    ⟨coherent, sound, fun _ impossible => absurd impossible List.not_mem_nil⟩
  obtain ⟨wider, included, sound', interned, value⟩ := Interner.intern_spec c start present
  exact ⟨wider, included, sound'.coherent, sound'.recorded, interned, value⟩

end Prediction.Network
