import Prediction.Proofs.Session.Basic

/-!
Linear sessions: what the commands of a session mean. Contexts are trees and sets are linear, so
there is nothing to allocate, to remember or to intern, and the numbers of caches and networks are
ignored.
-/

namespace Prediction

def Tree.branches : Tree → List Tree.Branch
  | .node ps => ps
  | _ => []

namespace LinearSet.Cursor

open ConfigSet.Cursor (Move)

def move (k : Cursor) : Move → Except ConfigSet.Error (Option Config.Value) × Cursor
  | .advance => (.ok k.advance.1, k.advance.2)
  | .remove =>
    match k.remove with
    | .error refusal => (.error refusal, k)
    | .ok (c, later) => (.ok (some c), later)

def walk (k : Cursor) : List Move → List (Except ConfigSet.Error (Option Config.Value)) × Cursor
  | [] => ([], k)
  | m :: ms =>
    let step := k.move m
    let rest := step.2.walk ms
    (step.1 :: rest.1, rest.2)

end LinearSet.Cursor

structure LinearSession where
  contexts : Nat → Tree
  sets : Nat → LinearSet
  frozen : Nat → LinearSet

namespace LinearSession

open Session (Draft Recipe Edit Command Answer)

def starting : LinearSession where
  contexts _ := .outermost
  sets _ := .empty
  frozen _ := .empty

def draft (s : LinearSession) (d : Draft) : Config.Value :=
  ⟨d.state, d.alt, s.contexts d.context, d.guard, d.depth, d.reachesOuter, d.hidden, d.suppressed⟩

def putContext (s : LinearSession) (target : Nat) (t : Tree) : LinearSession :=
  { s with contexts := Function.update s.contexts target t }

def putSet (s : LinearSession) (target : Nat) (set : LinearSet) : LinearSession :=
  { s with sets := Function.update s.sets target set }

def obtain? (s : LinearSession) : Recipe → Option Tree
  | .outermost => some .outermost
  | .wildcard => some .wildcard
  | .copy c => some (s.contexts c)
  | .push below k => some ((s.contexts below).push k)
  | .ofParts parents ks =>
    if parents.length = ks.length ∧ ks.Pairwise (· < ·) then
      some (.ofPaths (ks.zip (parents.map s.contexts)))
    else none
  | .addOutermost c => some (s.contexts c).addOutermost
  | .parent c path => (s.contexts c).branches[path]?.map (·.2)
  | .join left right _ => some ((s.contexts left).join (s.contexts right))
  | .cachedJoin left right _ => some ((s.contexts left).join (s.contexts right))
  | .share c _ => some (s.contexts c)
  | .intern c _ => some (s.contexts c)
  | .entry set index => (s.sets set).entries[index]?.map (·.context)
  | .frozenEntry set index => (s.frozen set).entries[index]?.map (·.context)

def performEdit (s : LinearSession) (set : Nat) : Edit → Answer × LinearSession
  | .add draft _ =>
    match (s.sets set).add (s.draft draft) with
    | .error refusal => (.refused refusal, s)
    | .ok step => (.changed step.1, s.putSet set step.2)
  | .addAll drafts _ =>
    let added := (s.sets set).addAll (drafts.map s.draft)
    (.ofExcept .changed added.1, s.putSet set added.2)
  | .remove index =>
    match (s.sets set).remove index with
    | .error refusal => (.refused refusal, s)
    | .ok taken => (.removed taken.1, s.putSet set taken.2)
  | .walk moves =>
    let walked := (s.sets set).cursor.walk moves
    (.walked walked.1, s.putSet set walked.2.set)
  | .dropHidden => (.done, s.putSet set (s.sets set).dropHidden)
  | .internContexts _ => (.done, s)
  | .clear => (.done, s.putSet set (s.sets set).clear)
  | .setOutermost outermost =>
    match (s.sets set).setOutermost outermost with
    | .error refusal => (.refused refusal, s)
    | .ok later => (.done, s.putSet set later)
  | .setConflict conflict => (.done, s.putSet set ((s.sets set).setConflict conflict))

def perform (s : LinearSession) : Command → Answer × LinearSession
  | .context target recipe =>
    match s.obtain? recipe with
    | none => (.built false, s)
    | some t => (.built true, s.putContext target t)
  | .newCache .. => (.done, s)
  | .clearCache _ => (.done, s)
  | .newNetwork _ => (.done, s)
  | .newSet set => (.done, s.putSet set .empty)
  | .edit set edit => s.performEdit set edit
  | .contains set draft => (.covered ((s.sets set).contains (s.draft draft)), s)
  | .copy set target => (.done, s.putSet target (s.sets set))
  | .freeze set target => (.done, { s with frozen := Function.update s.frozen target (s.sets set) })
  | .thaw set target _ =>
    match (s.frozen set).thaw with
    | .error refusal => (.refused refusal, s)
    | .ok later => (.done, s.putSet target later)

def run (s : LinearSession) : List Command → List Answer × LinearSession
  | [] => ([], s)
  | command :: program =>
    let step := s.perform command
    let rest := step.2.run program
    (step.1 :: rest.1, rest.2)

end LinearSession

/-- What can be seen of a session. -/
def Session.linear (s : Session) : LinearSession where
  contexts i := (s.contexts i).tree
  sets i := (s.sets i).linear
  frozen i := (s.frozen i).linear

namespace Session

@[simp] theorem linear_contexts (s : Session) (i : Nat) :
    s.linear.contexts i = (s.contexts i).tree := rfl

@[simp] theorem linear_sets (s : Session) (i : Nat) : s.linear.sets i = (s.sets i).linear := rfl

@[simp] theorem linear_frozen (s : Session) (i : Nat) :
    s.linear.frozen i = (s.frozen i).linear := rfl

@[simp] theorem linear_draft (s : Session) (d : Draft) :
    s.linear.draft d = (d.config s).value := rfl

theorem linear_putContext (s : Session) (target : Nat) (c : Context) :
    (s.putContext target c).linear = s.linear.putContext target c.tree := by
  have contexts := Function.comp_update Context.tree s.contexts target c
  rw [linear, LinearSession.putContext, LinearSession.mk.injEq]
  exact ⟨contexts, rfl, rfl⟩

theorem linear_putSet (s : Session) (target : Nat) (set : ConfigSet) :
    (s.putSet target set).linear = s.linear.putSet target set.linear := by
  have sets := Function.comp_update (fun set : ConfigSet => set.linear) s.sets target set
  rw [linear, LinearSession.putSet, LinearSession.mk.injEq]
  exact ⟨rfl, sets, rfl⟩

section Places

variable {i target : Nat}

theorem sets_putSet_of_ne {s : LinearSession} (other : target ≠ i) (set : LinearSet) :
    (s.putSet target set).sets i = s.sets i :=
  Function.update_of_ne (Ne.symm other) _ _

theorem sets_putSet_self (s : LinearSession) (i : Nat) (set : LinearSet) :
    (s.putSet i set).sets i = set :=
  Function.update_self _ _ _

/-- An edit of one set leaves the others alone. -/
theorem sets_performEdit_of_ne (s : LinearSession) (other : target ≠ i) (edit : Edit) :
    (s.performEdit target edit).2.sets i = s.sets i := by
  cases edit <;> simp only [LinearSession.performEdit]
  all_goals
    try split
    all_goals first | rfl | exact sets_putSet_of_ne other _

end Places

end Session

end Prediction
