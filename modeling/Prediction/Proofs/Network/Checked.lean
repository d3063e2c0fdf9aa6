import Prediction.Proofs.Context.Checked
import Prediction.Proofs.Network.Intern

/-!
Interning with all checks. The parents of a node are read by their positions; the first one that is
replaced has those before it copied, and a node with replaced parents is built from separate lists
of parents and return states. No check fails for contexts of one supply.
-/

namespace Prediction.Network

open Context

namespace Checked

open Context.Checked

/-- The new parents so far. The old ones are copied at the first one that was replaced. -/
def newParents (c : Context) (n : Nat) (unchanged : Bool) :
    Option (List Context) → Except Fault (Option (List Context))
  | some parents => .ok (some parents)
  | none =>
    if unchanged then .ok none
    else do
      let before ← readAll (parent c) n
      .ok (some before)

/-- Interns the parents from the given position on. There are no new parents until one of them is
replaced. -/
def internParents (internParent : Nat → Interner → Except Fault (Context × Interner)) (c : Context)
    (n : Nat) (replaced : Option (List Context)) (i : Interner) :
    Except Fault (Option (List Context) × Interner) :=
  if n < c.size then do
    let p ← parent c n
    let interned ← internParent n i
    let parents ← newParents c n (interned.1.identical p) replaced
    internParents internParent c (n + 1) (parents.map (· ++ [interned.1])) interned.2
  else .ok (replaced, i)
termination_by c.size - n

/-- A node whose parents were all kept is kept. -/
def rebuild (c : Context) (replaced : Option (List Context)) (s : Supply) :
    Except Fault (Context × Supply) :=
  match replaced with
  | none => .ok (c, s)
  | some parents => do
    let ks ← readAll (returnState c) c.size
    ofParts parents ks s

/-- Interns a node after its parents, and records the answer. -/
def internNode (internParent : Nat → Interner → Except Fault (Context × Interner)) (l : Label)
    (c : Context) (i : Interner) : Except Fault (Context × Interner) := do
  let interned ← internParents internParent c 0 none i
  let updated ← rebuild c interned.1 interned.2.supply
  let canonical := interned.2.table.canonical updated.1
  .ok (Interner.answer ⟨updated.2, canonical.2, interned.2.visited⟩ l canonical.1)

def intern (c : Context) (i : Interner) : Except Fault (Context × Interner) :=
  match c with
  | .node l d ps =>
    match i.visited.lookup l with
    | some answer => .ok (answer, i)
    | none =>
      match i.table.find? (.node l d ps) with
      | some recorded => .ok (i.answer l recorded)
      | none =>
        internNode (fun n i =>
          match _read : parent (.node l d ps) n with
          | .error fault => .error fault
          | .ok p => intern p i) l (.node l d ps) i
  | c => .ok (c, i)
termination_by c
decreasing_by
  obtain ⟨path, inRow, rfl⟩ := mem_of_parent _read
  exact Reaches.sizeOf_parent inRow

end Checked

/-- The canonical instance of a context, found with all checks. -/
def internChecked (n : Network) (c : Context) (s : Supply) :
    Except Fault (Context × Network × Supply) := do
  let interned ← Checked.intern c ⟨s, n.interned, []⟩
  .ok (interned.1, { n with interned := interned.2.table }, interned.2.supply)

namespace Checked

open Context.Checked

variable {known : Set Context} {c : Context} {s : Supply} {i : Interner}
  {ps front rest done : List Path}

theorem identical_comm (a b : Context) : a.identical b = b.identical a := by
  cases a <;> cases b <;> simp [identical, Bool.beq_comm]

/-- Each parent is the same instance as before. -/
def kept (ps interned : List Path) : Bool :=
  (ps.zip interned).all fun pair => pair.1.2.identical pair.2.2

/-- The list of new parents, if there has to be one. -/
def replacement (ps interned : List Path) : Option (List Context) :=
  if kept ps interned then none else some (interned.map (·.2))

theorem newParents_eq (split : c.paths = front ++ rest)
    (same : kept front done = true → front = done) (unchanged : Bool) :
    newParents c front.length unchanged (replacement front done) =
      .ok (if kept front done && unchanged then none else some (done.map (·.2))) := by
  cases before : kept front done with
  | true =>
    obtain rfl := same before
    rw [replacement, before, if_pos rfl, newParents, readAll_eq (·.2) parent_eq split]
    cases unchanged <;> rfl
  | false =>
    rw [replacement, before]
    rfl

/-- One more parent that was interned. -/
theorem replacement_append (matching : front.length = done.length) (path interned : Path) :
    replacement (front ++ [path]) (done ++ [interned]) =
      (if kept front done && interned.2.identical path.2 then none
        else some (done.map (·.2))).map (· ++ [interned.2]) := by
  have both : kept (front ++ [path]) (done ++ [interned]) =
      (kept front done && interned.2.identical path.2) := by
    rw [kept, List.zip_append matching, List.all_append, identical_comm]
    simp [kept]
  rw [replacement, both, List.map_append]
  split <;> rfl

/-- By induction on the parents that are left. The instances that those before were replaced with
are known, and have their values. -/
theorem internParents_eq {internParent : Nat → Interner → Except Fault (Context × Interner)}
    (interns : ∀ n path, c.paths[n]? = some path → ∀ {known : Set Context} {i : Interner},
      i.Sound known → path.2 ∈ known → internParent n i = .ok (Interner.intern path.2 i))
    (split : c.paths = front ++ rest) (sound : i.Sound known)
    (present : ∀ path ∈ c.paths, path.2 ∈ known) (doneKnown : ∀ path ∈ done, path.2 ∈ known)
    (values : treePaths done = treePaths front) :
    internParents internParent c front.length (replacement front done) i =
      .ok (replacement c.paths (done ++ (Interner.internPaths rest i).1),
        (Interner.internPaths rest i).2) := by
  induction rest generalizing known front done i with
  | nil =>
    have all : ¬ front.length < c.size := by
      rw [Context.size, split, List.append_nil]
      exact Nat.lt_irrefl _
    rw [internParents, if_neg all, Interner.internPaths, List.append_nil, split, List.append_nil]
  | cons path rest ih =>
    obtain ⟨k, p⟩ := path
    have found : c.paths[front.length]? = some (k, p) := by
      rw [split, List.getElem?_append_right (Nat.le_refl _), Nat.sub_self]
      rfl
    have within : front.length < c.size := (List.getElem?_eq_some_iff.mp found).1
    have inRow : (k, p) ∈ c.paths := List.mem_of_getElem? found
    have matching : front.length = done.length := by
      rw [← List.length_map (·.1), ← keys_treePaths, ← values, keys_treePaths, List.length_map]
    -- As long as no parent was replaced, the old ones are what would have been gathered.
    have same (unchanged : kept front done = true) : front = done :=
      paths_of_kept sound.coherent
        (fun path inFront => present path (split ▸ List.mem_append_left _ inFront)) doneKnown values
        unchanged
    obtain ⟨wider, included, sound', known', value⟩ :=
      Interner.intern_spec p sound (present _ inRow)
    have doneKnown' : ∀ path ∈ done ++ [(k, (Interner.intern p i).1)], path.2 ∈ wider :=
      List.forall_mem_append.mpr
        ⟨fun path inDone => included (doneKnown path inDone), List.forall_mem_singleton.mpr known'⟩
    have values' : treePaths (done ++ [(k, (Interner.intern p i).1)]) =
        treePaths (front ++ [(k, p)]) := by
      rw [treePaths_append, treePaths_append, values]
      simp only [treePaths, value]
    have next := ih (split.trans (List.append_cons _ _ _)) sound'
      (fun path inRow => included (present path inRow)) doneKnown' values'
    rw [List.length_append, List.length_singleton] at next
    rw [internParents, if_pos within, parent_eq found, ok_bind,
      interns _ _ found sound (present _ inRow), ok_bind, newParents_eq split same, ok_bind,
      ← replacement_append matching (k, p) (k, _), next, Interner.internPaths, List.append_assoc]
    rfl

/-- What a node is rebuilt from is what goes on record without checks. -/
theorem rebuild_eq {l : Label} {d : Digest} {interned : List Path} (row : Tree.Row (ps.map (·.1)))
    (values : treePaths interned = treePaths ps) (i : Interner) :
    rebuild (.node l d ps) (replacement ps interned) i.supply =
      .ok (i.updated (.node l d ps) interned) := by
  have keys : interned.map (·.1) = ps.map (·.1) := by
    rw [← keys_treePaths, values, keys_treePaths]
  have ascending : (interned.map (·.1)).Pairwise (· < ·) := keys ▸ row.ascending
  have updated : i.updated (.node l d ps) interned =
      if kept ps interned then (.node l d ps, i.supply)
      else Context.ofPaths interned i.supply := rfl
  rw [replacement, updated]
  split
  · rfl
  · have built := ofParts_eq ascending i.supply
    rw [keys] at built
    rw [rebuild, returnStates_eq, ok_bind]
    exact built

theorem internNode_eq {internParent : Nat → Interner → Except Fault (Context × Interner)}
    {l : Label} {d : Digest}
    (interns : ∀ n path, ps[n]? = some path → ∀ {known : Set Context} {i : Interner},
      i.Sound known → path.2 ∈ known → internParent n i = .ok (Interner.intern path.2 i))
    (sound : i.Sound known) (present : .node l d ps ∈ known) :
    internNode internParent l (.node l d ps) i =
      let parents := Interner.internPaths ps i
      .ok (parents.2.record l (.node l d ps) parents.1) := by
  have parents (path : Path) (inRow : path ∈ ps) : path.2 ∈ known :=
    sound.coherent.parent present inRow
  obtain ⟨-, -, -, -, values⟩ := Interner.internPaths_spec
    (fun path _ _ _ => Interner.intern_spec path.2) sound parents
  have interned : internParents internParent (.node l d ps) 0 none i =
      .ok (replacement ps (Interner.internPaths ps i).1, (Interner.internPaths ps i).2) :=
    internParents_eq (c := .node l d ps) interns (List.nil_append ps).symm sound parents
      (List.forall_mem_nil _) rfl
  rw [internNode, interned, ok_bind]
  dsimp only
  rw [rebuild_eq (sound.coherent.row present) values, ok_bind, Interner.record_eq]

/-- By induction on the context: its parents pass all checks. -/
theorem intern_eq (c : Context) {known : Set Context} {i : Interner} (sound : i.Sound known)
    (present : c ∈ known) : intern c i = .ok (Interner.intern c i) := by
  induction c generalizing known i with
  | outermostAt => rw [intern] <;> simp [Interner.intern]
  | wildcardAt => rw [intern] <;> simp [Interner.intern]
  | node l d ps ih =>
    rw [intern, Interner.intern]
    cases i.visited.lookup l with
    | some answer => rfl
    | none =>
      cases i.table.find? (.node l d ps) with
      | some recorded => rfl
      | none =>
        refine internNode_eq (fun n path found known i sound present => ?_) sound present
        split
        · rename_i failed
          rw [parent_eq found] at failed
          contradiction
        · rename_i p read
          rw [parent_eq found] at read
          obtain rfl := Except.ok.inj read
          exact ih path (List.mem_of_getElem? found) sound present

end Checked

theorem internChecked_eq {known : Set Context} {c : Context} {s : Supply} {n : Network}
    (coherent : Coherent s known) (sound : n.Sound known) (present : c ∈ known) :
    n.internChecked c s = .ok (n.intern c s) := by
  have start : Interner.Sound known ⟨s, n.interned, []⟩ :=
    ⟨coherent, sound, fun _ impossible => absurd impossible List.not_mem_nil⟩
  rw [internChecked, Checked.intern_eq c start present]
  rfl

end Prediction.Network
