import Prediction.Context.Build
import Prediction.Network.Basic

/-!
Interning contexts in a network. Parents are interned before the nodes over them, so that every
instance handed out is built from instances handed out; a context equal to one on record is not
looked into again.
-/

namespace Prediction.Network

/-- The state of one traversal: `visited` holds the answers for the instances met so far. -/
structure Interner where
  supply : Supply
  table : Context.Table
  visited : List (Label × Context)

namespace Interner

def answer (i : Interner) (l : Label) (c : Context) : Context × Interner :=
  (c, { i with visited := (l, c) :: i.visited })

/-- Records a node whose interned paths are given; it is rebuilt only if a parent was replaced. -/
def record (i : Interner) (l : Label) (c : Context) (ps : List Path) : Context × Interner :=
  let kept := (c.paths.zip ps).all fun pair => pair.1.2.identical pair.2.2
  let updated := if kept then (c, i.supply) else Context.ofPaths ps i.supply
  let canonical := i.table.canonical updated.1
  answer { i with supply := updated.2, table := canonical.2 } l canonical.1

mutual

def intern : Context → Interner → Context × Interner
  | c@(.node l _ ps), i =>
    match i.visited.lookup l with
    | some known => (known, i)
    | none =>
      match i.table.find? c with
      | some recorded => i.answer l recorded
      | none =>
        let parents := internPaths ps i
        parents.2.record l c parents.1
  | c, i => (c, i)
termination_by structural c => c

def internPaths : List Path → Interner → List Path × Interner
  | [], i => ([], i)
  | (k, p) :: ps, i =>
    let parent := intern p i
    let rest := internPaths ps parent.2
    ((k, parent.1) :: rest.1, rest.2)
termination_by structural ps => ps

end

end Interner

/-- The canonical instance of a context. -/
def intern (n : Network) (c : Context) (s : Supply) : Context × Network × Supply :=
  let interned := Interner.intern c ⟨s, n.interned, []⟩
  (interned.1, { n with interned := interned.2.table }, interned.2.supply)

end Prediction.Network
