import Mathlib.Logic.Function.Basic
import Prediction.Proofs.ConfigSet.Linear

/-!
Sessions: whatever a client may do with contexts and sets of configurations. A session holds
numbered contexts, caches, networks, writable sets and frozen sets, all fed by one supply. A command
is one call on some of them, and a program is a list of commands; a refused call is answered with
its refusal, and the program goes on.
-/

namespace Prediction

structure Session where
  supply : Supply
  contexts : Nat → Context
  caches : Nat → Context.Cache
  networks : Nat → Network
  sets : Nat → ConfigSet
  frozen : Nat → FrozenSet

namespace ConfigSet.Cursor

inductive Move where
  | advance
  | remove
deriving DecidableEq

/-- A move yields the entry that it produced or removed, if any. -/
def move (k : Cursor) : Move → Except ConfigSet.Error (Option Config) × Cursor
  | .advance => (.ok k.advance.1, k.advance.2)
  | .remove =>
    match k.remove with
    | .error refusal => (.error refusal, k)
    | .ok (c, later) => (.ok (some c), later)

def walk (k : Cursor) : List Move → List (Except ConfigSet.Error (Option Config)) × Cursor
  | [] => ([], k)
  | m :: ms =>
    let step := k.move m
    let rest := step.2.walk ms
    (step.1 :: rest.1, rest.2)

end ConfigSet.Cursor

namespace Session

/-- Where a context comes from. Numbers are those of contexts, caches, networks and sets in the
session, or positions of paths and entries. -/
inductive Recipe where
  | outermost
  | wildcard
  | copy (c : Nat)
  | push (below : Nat) (k : ReturnState)
  | ofParts (parents : List Nat) (ks : List ReturnState)
  | addOutermost (c : Nat)
  | parent (c path : Nat)
  | join (left right cache : Nat)
  | cachedJoin (left right cache : Nat)
  | share (c cache : Nat)
  | intern (c network : Nat)
  | entry (set index : Nat)
  | frozenEntry (set index : Nat)

/-- A configuration with a context of the session. -/
structure Draft where
  state : StateId
  alt : Alternative
  context : Nat
  guard : Guard
  depth : UInt32
  reachesOuter : Bool
  hidden : Bool
  suppressed : Bool

/-- A call on one writable set. -/
inductive Edit where
  | add (draft : Draft) (cache : Nat)
  | addAll (drafts : List Draft) (cache : Nat)
  | remove (index : Nat)
  | walk (moves : List ConfigSet.Cursor.Move)
  | dropHidden
  | internContexts (network : Nat)
  | clear
  | setOutermost (outermost : Bool)
  | setConflict (conflict : Option Conflict)

inductive Command where
  | context (target : Nat) (recipe : Recipe)
  | newCache (cache : Nat) (enabled : Bool) (capacity : Nat)
  | clearCache (cache : Nat)
  | newNetwork (network : Nat)
  | newSet (set : Nat)
  | edit (set : Nat) (edit : Edit)
  | contains (set : Nat) (draft : Draft)
  | copy (set target : Nat)
  | freeze (set target : Nat)
  | thaw (set target cache : Nat)

/-- What a client gets to see of a command. -/
inductive Answer where
  | done
  | refused (refusal : ConfigSet.Error)
  | built (accepted : Bool)
  | changed (changed : Bool)
  | removed (c : Config.Value)
  | walked (steps : List (Except ConfigSet.Error (Option Config.Value)))
  | covered (covered : Bool)

def Answer.ofExcept {α : Type} (answer : α → Answer) : Except ConfigSet.Error α → Answer
  | .error refusal => .refused refusal
  | .ok result => answer result

/-- Contexts are outermost, sets are empty, and caches are disabled until new ones are made. -/
def starting (rule : DigestRule) : Session where
  supply := .starting rule
  contexts _ := .outermost
  caches _ := .disabled
  networks _ := .empty
  sets _ := .empty
  frozen _ := ⟨.empty, Supply.reserved⟩

def Draft.config (s : Session) (d : Draft) : Config :=
  ⟨d.state, d.alt, s.contexts d.context, d.guard, d.depth, d.reachesOuter, d.hidden, d.suppressed⟩

def joiner (s : Session) (cache : Nat) : Joiner := ⟨s.supply, s.caches cache⟩

/-- Puts back what joins were made with. -/
def rejoin (s : Session) (cache : Nat) (j : Joiner) : Session :=
  { s with supply := j.supply, caches := Function.update s.caches cache j.cache }

def putContext (s : Session) (target : Nat) (c : Context) : Session :=
  { s with contexts := Function.update s.contexts target c }

def putSet (s : Session) (target : Nat) (set : ConfigSet) : Session :=
  { s with sets := Function.update s.sets target set }

/-- Puts back what a context was interned in. -/
def renet (s : Session) (network : Nat) (n : Network) (supply : Supply) : Session :=
  { s with supply, networks := Function.update s.networks network n }

/-- Obtains a context, unless its parts are refused or there is no such path or entry. -/
def obtain? (s : Session) : Recipe → Option (Context × Session)
  | .outermost => some (.outermost, s)
  | .wildcard => some (.wildcard, s)
  | .copy c =>
    let built := (s.contexts c).copy s.supply
    some (built.1, { s with supply := built.2 })
  | .push below k =>
    let built := (s.contexts below).push k s.supply
    some (built.1, { s with supply := built.2 })
  | .ofParts parents ks =>
    match Context.ofParts (parents.map s.contexts) ks s.supply with
    | .error _ => none
    | .ok built => some (built.1, { s with supply := built.2 })
  | .addOutermost c =>
    let built := (s.contexts c).addOutermost s.supply
    some (built.1, { s with supply := built.2 })
  | .parent c path =>
    match (s.contexts c).path path with
    | .error _ => none
    | .ok found => some (found.2, s)
  | .join left right cache =>
    let joined := (s.contexts left).join (s.contexts right) (s.joiner cache)
    some (joined.1, s.rejoin cache joined.2)
  | .cachedJoin left right cache =>
    let joined := (s.contexts left).cachedJoin (s.contexts right) (s.joiner cache)
    some (joined.1, s.rejoin cache joined.2)
  | .share c cache =>
    let shared := (s.caches cache).share (s.contexts c)
    some (shared.1, s.rejoin cache ⟨s.supply, shared.2⟩)
  | .intern c network =>
    let interned := (s.networks network).intern (s.contexts c) s.supply
    some (interned.1, s.renet network interned.2.1 interned.2.2)
  | .entry set index => (s.sets set).configs[index]?.map fun c => (c.context, s)
  | .frozenEntry set index => (s.frozen set).configs[index]?.map fun c => (c.context, s)

def performEdit (s : Session) (set : Nat) : Edit → Answer × Session
  | .add draft cache =>
    match (s.sets set).add (draft.config s) (s.joiner cache) with
    | .error refusal => (.refused refusal, s)
    | .ok step => (.changed step.changed, (s.putSet set step.set).rejoin cache step.joiner)
  | .addAll drafts cache =>
    let added := (s.sets set).addAll (drafts.map (·.config s)) (s.joiner cache)
    (.ofExcept .changed added.1, (s.putSet set added.2.1).rejoin cache added.2.2)
  | .remove index =>
    match (s.sets set).remove index with
    | .error refusal => (.refused refusal, s)
    | .ok taken => (.removed taken.1.value, s.putSet set taken.2)
  | .walk moves =>
    let walked := (s.sets set).cursor.walk moves
    (.walked (walked.1.map (Except.map (Option.map Config.value))), s.putSet set walked.2.set)
  | .dropHidden => (.done, s.putSet set (s.sets set).dropHidden)
  | .internContexts network =>
    let interned := (s.sets set).internContexts (s.networks network) s.supply
    (.done, (s.putSet set interned.1).renet network interned.2.1 interned.2.2)
  | .clear => (.done, s.putSet set (s.sets set).clear)
  | .setOutermost outermost =>
    match (s.sets set).setOutermost outermost with
    | .error refusal => (.refused refusal, s)
    | .ok later => (.done, s.putSet set later)
  | .setConflict conflict => (.done, s.putSet set ((s.sets set).setConflict conflict))

def perform (s : Session) : Command → Answer × Session
  | .context target recipe =>
    match s.obtain? recipe with
    | none => (.built false, s)
    | some obtained => (.built true, obtained.2.putContext target obtained.1)
  | .newCache cache enabled capacity =>
    (.done, s.rejoin cache ⟨s.supply, .new enabled capacity⟩)
  | .clearCache cache => (.done, s.rejoin cache ⟨s.supply, (s.caches cache).clear⟩)
  | .newNetwork network => (.done, s.renet network .empty s.supply)
  | .newSet set => (.done, s.putSet set .empty)
  | .edit set edit => s.performEdit set edit
  | .contains set draft => (.covered ((s.sets set).contains (draft.config s)), s)
  | .copy set target => (.done, s.putSet target (s.sets set))
  | .freeze set target =>
    let frozen := (s.sets set).freeze s.supply
    (.done, { s with
      supply := frozen.2
      frozen := Function.update s.frozen target frozen.1 })
  | .thaw set target cache =>
    let thawed := (s.frozen set).thaw (s.joiner cache)
    match thawed.1 with
    | .error refusal => (.refused refusal, s.rejoin cache thawed.2)
    | .ok later => (.done, (s.putSet target later).rejoin cache thawed.2)

def run (s : Session) : List Command → List Answer × Session
  | [] => ([], s)
  | command :: program =>
    let step := s.perform command
    let rest := step.2.run program
    (step.1 :: rest.1, rest.2)

/-- The session that a program leads to from the start. -/
def reached (rule : DigestRule) (program : List Command) : Session :=
  ((starting rule).run program).2

end Session

end Prediction
