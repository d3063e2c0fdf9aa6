import Prediction.Proofs.ConfigSet.View
import Prediction.Proofs.Session.Refinement

/-!
Runs that do the same with sets. Two programs may obtain their contexts in ways of their own, use
caches of their own and intern when they like; as long as they make the same calls on sets, with
contexts of the same values, nothing that the sets show tells the runs apart.
-/

namespace Prediction.Session

/-- The command does nothing with sets that could be seen: it obtains a context, makes or clears a
cache, makes a network, or interns contexts. -/
def Command.silent : Command → Bool
  | .context .. | .newCache .. | .clearCache _ | .newNetwork _ => true
  | .edit _ (.internContexts _) => true
  | _ => false

/-- The call has no configuration, no cache and no network in it. -/
def Edit.bare : Edit → Bool
  | .add .. | .addAll .. | .internContexts _ => false
  | _ => true

def Command.bare : Command → Bool
  | .newSet _ | .copy .. | .freeze .. => true
  | .edit _ call => call.bare
  | _ => false

/-- In two sessions, two commands make the same call on sets. Configurations count by value, and
each session joins with a cache of its own. -/
inductive SameCall (s t : Session) : Command → Command → Prop
  | bare {command : Command} : command.bare = true → SameCall s t command command
  | add {d d' : Draft} (set cache cache' : Nat) :
      (d.config s).value = (d'.config t).value →
      SameCall s t (.edit set (.add d cache)) (.edit set (.add d' cache'))
  | addAll {ds ds' : List Draft} (set cache cache' : Nat) :
      (ds.map fun d => (d.config s).value) = (ds'.map fun d => (d.config t).value) →
      SameCall s t (.edit set (.addAll ds cache)) (.edit set (.addAll ds' cache'))
  | contains {d d' : Draft} (set : Nat) :
      (d.config s).value = (d'.config t).value →
      SameCall s t (.contains set d) (.contains set d')
  | thaw (set target cache cache' : Nat) :
      SameCall s t (.thaw set target cache) (.thaw set target cache')

/-- Two programs make the same calls on sets. Either of them may have silent commands anywhere. -/
inductive Alike : Session → Session → List Command → List Command → Prop
  | nil (s t : Session) : Alike s t [] []
  | left {s t : Session} {command : Command} {p q : List Command} : command.silent = true →
      Alike (s.perform command).2 t p q → Alike s t (command :: p) q
  | right {s t : Session} {command : Command} {p q : List Command} : command.silent = true →
      Alike s (t.perform command).2 p q → Alike s t p (command :: q)
  | both {s t : Session} {a b : Command} {p q : List Command} : SameCall s t a b →
      Alike (s.perform a).2 (t.perform b).2 p q → Alike s t (a :: p) (b :: q)

/-- What all sets of a session show. -/
structure Sight where
  sets : Nat → ConfigContents.View
  frozen : Nat → ConfigContents.View

def sight (s : Session) : Sight where
  sets i := (s.sets i).view
  frozen i := (s.frozen i).view

/-- What a client sees in the course of a program: the answer to each command that is not silent,
and what the sets show after it. -/
def observed (s : Session) : List Command → List (Answer × Sight)
  | [] => []
  | command :: program =>
    let step := s.perform command
    let rest := step.2.observed program
    if command.silent then rest else (step.1, step.2.sight) :: rest

end Session

namespace LinearSession

open Session (Command Edit)

/-- The linear sessions differ in their contexts only. -/
structure SameSets (l m : LinearSession) : Prop where
  sets : l.sets = m.sets
  frozen : l.frozen = m.frozen

variable {l m : LinearSession}

theorem SameSets.putSet (same : SameSets l m) (target : Nat) (set : LinearSet) :
    SameSets (l.putSet target set) (m.putSet target set) := by
  refine ⟨?_, same.frozen⟩
  rw [LinearSession.putSet, LinearSession.putSet, same.sets]

/-- A silent command leaves the sets as they are. -/
theorem sameSets_silent (l : LinearSession) {command : Command} (silent : command.silent = true) :
    SameSets (l.perform command).2 l := by
  cases command with
  | context target recipe =>
    simp only [perform]
    split <;> exact ⟨rfl, rfl⟩
  | newCache cache enabled capacity => exact ⟨rfl, rfl⟩
  | clearCache cache => exact ⟨rfl, rfl⟩
  | newNetwork network => exact ⟨rfl, rfl⟩
  | edit set call =>
    cases call with
    | internContexts network => exact ⟨rfl, rfl⟩
    | _ => contradiction
  | _ => contradiction

theorem performEdit_bare (same : SameSets l m) (set : Nat) {call : Edit} (bare : call.bare = true) :
    (l.performEdit set call).1 = (m.performEdit set call).1 ∧
      SameSets (l.performEdit set call).2 (m.performEdit set call).2 := by
  cases call with
  | add draft cache => contradiction
  | addAll drafts cache => contradiction
  | internContexts network => contradiction
  | remove index =>
    simp only [performEdit, same.sets]
    split
    · exact ⟨rfl, same⟩
    · exact ⟨rfl, same.putSet _ _⟩
  | walk moves =>
    simp only [performEdit, same.sets]
    exact ⟨trivial, same.putSet _ _⟩
  | dropHidden =>
    simp only [performEdit, same.sets]
    exact ⟨trivial, same.putSet _ _⟩
  | clear =>
    simp only [performEdit, same.sets]
    exact ⟨trivial, same.putSet _ _⟩
  | setOutermost outermost =>
    simp only [performEdit, same.sets]
    split
    · exact ⟨rfl, same⟩
    · exact ⟨rfl, same.putSet _ _⟩
  | setConflict conflict =>
    simp only [performEdit, same.sets]
    exact ⟨trivial, same.putSet _ _⟩

end LinearSession

namespace Session

open LinearSession (SameSets)

variable {known known' : Set Context} {s t : Session} {a b : Command} {p q : List Command}

/-- The same call on the same sets gets one answer and leads to the same sets. -/
theorem perform_sameCall (same : SameSets s.linear t.linear) (call : SameCall s t a b) :
    (s.linear.perform a).1 = (t.linear.perform b).1 ∧
      SameSets (s.linear.perform a).2 (t.linear.perform b).2 := by
  cases call with
  | bare bare =>
    cases a with
    | newSet set => exact ⟨rfl, same.putSet set .empty⟩
    | edit set call => exact LinearSession.performEdit_bare same set bare
    | copy set target =>
      simp only [LinearSession.perform, same.sets]
      exact ⟨trivial, same.putSet _ _⟩
    | freeze set target =>
      refine ⟨rfl, same.sets, ?_⟩
      simp only [LinearSession.perform, same.sets, same.frozen]
    | _ => contradiction
  | add set cache cache' value =>
    simp only [LinearSession.perform, LinearSession.performEdit, same.sets, linear_draft, value]
    split
    · exact ⟨rfl, same⟩
    · exact ⟨rfl, same.putSet _ _⟩
  | addAll set cache cache' values =>
    have drafts : ∀ (s : Session) (ds : List Draft),
        ds.map s.linear.draft = ds.map fun d => (d.config s).value := fun _ _ => rfl
    simp only [LinearSession.perform, LinearSession.performEdit, same.sets, drafts, values]
    exact ⟨trivial, same.putSet _ _⟩
  | contains set value =>
    simp only [LinearSession.perform, same.sets, linear_draft, value]
    exact ⟨trivial, same⟩
  | thaw set target cache cache' =>
    simp only [LinearSession.perform, same.frozen]
    split
    · exact ⟨rfl, same⟩
    · exact ⟨rfl, same.putSet _ _⟩

theorem Command.not_silent_of_bare {command : Command} (bare : command.bare = true) :
    command.silent = false := by
  cases command with
  | newSet set => rfl
  | copy set target => rfl
  | freeze set target => rfl
  | edit set call =>
    cases call with
    | internContexts network => contradiction
    | _ => rfl
  | _ => contradiction

theorem SameCall.not_silent (call : SameCall s t a b) : a.silent = false ∧ b.silent = false := by
  cases call with
  | bare bare => exact ⟨Command.not_silent_of_bare bare, Command.not_silent_of_bare bare⟩
  | _ => exact ⟨rfl, rfl⟩

theorem sight_of_sameSets (same : SameSets s.linear t.linear) : s.sight = t.sight := by
  have sets (i : Nat) : (s.sets i).view = (t.sets i).view :=
    ConfigContents.view_of_linear (congrFun same.sets i)
  have frozen (i : Nat) : (s.frozen i).view = (t.frozen i).view :=
    ConfigContents.view_of_linear (congrFun same.frozen i)
  simp only [sight, sets, frozen]

/-- Nothing that the sets show or answer tells the sessions apart. -/
structure Indistinguishable (s t : Session) : Prop where
  sight : s.sight = t.sight
  contains : ∀ i (d d' : Draft), (d.config s).value = (d'.config t).value →
    (s.sets i).contains (d.config s) = (t.sets i).contains (d'.config t)
  frozenContains : ∀ i (d d' : Draft), (d.config s).value = (d'.config t).value →
    (s.frozen i).contains (d.config s) = (t.frozen i).contains (d'.config t)

theorem indistinguishable_of_sameSets (same : SameSets s.linear t.linear) (sound : s.Sound known)
    (sound' : t.Sound known') : s.Indistinguishable t where
  sight := sight_of_sameSets same
  contains i d d' value := by
    have sets : (s.sets i).linear = (t.sets i).linear := congrFun same.sets i
    rw [ConfigSet.contains_linear (sound.indexed i) sound.coherent (sound.sets i) (sound.draft d),
      ConfigSet.contains_linear (sound'.indexed i) sound'.coherent (sound'.sets i)
        (sound'.draft d'), sets, value]
  frozenContains i d d' value := by
    have frozen : (s.frozen i).linear = (t.frozen i).linear := congrFun same.frozen i
    rw [FrozenSet.contains, any_covers_linear sound.coherent (sound.frozen i) (sound.draft d),
      FrozenSet.contains, any_covers_linear sound'.coherent (sound'.frozen i) (sound'.draft d'),
      frozen, value]

/-- By induction on how the programs correspond. The sets have the same meaning all along. -/
theorem Alike.observed_eq (alike : Alike s t p q) (sound : s.Sound known) (sound' : t.Sound known')
    (same : SameSets s.linear t.linear) :
    s.observed p = t.observed q ∧ (s.run p).2.Indistinguishable (t.run q).2 := by
  induction alike generalizing known known' with
  | nil s t => exact ⟨rfl, indistinguishable_of_sameSets same sound sound'⟩
  | @left s t command p q silent rest ih =>
    obtain ⟨-, linear, wider, -, later⟩ := perform_realizes sound command
    have kept := s.linear.sameSets_silent silent
    rw [← linear] at kept
    have result := ih later sound' ⟨kept.sets.trans same.sets, kept.frozen.trans same.frozen⟩
    simp only [observed, silent, if_true]
    exact result
  | @right s t command p q silent rest ih =>
    obtain ⟨-, linear, wider, -, later⟩ := perform_realizes sound' command
    have kept := t.linear.sameSets_silent silent
    rw [← linear] at kept
    have result := ih sound later
      ⟨same.sets.trans kept.sets.symm, same.frozen.trans kept.frozen.symm⟩
    simp only [observed, silent, if_true]
    exact result
  | @both s t a b p q call rest ih =>
    obtain ⟨answer, linear, wider, -, later⟩ := perform_realizes sound a
    obtain ⟨answer', linear', wider', -, later'⟩ := perform_realizes sound' b
    obtain ⟨answers, sets⟩ := perform_sameCall same call
    rw [← linear, ← linear'] at sets
    rw [← answer, ← answer'] at answers
    obtain ⟨seen, final⟩ := ih later later' sets
    obtain ⟨first, second⟩ := call.not_silent
    refine ⟨?_, final⟩
    simp only [observed, first, second, answers, seen, sight_of_sameSets sets]

/-- Programs that make the same calls on sets get the same answers to them and are shown the same by
all sets after each call, and lead to sessions that the sets do not tell apart. -/
theorem observed_of_alike (rule rule' : DigestRule) {p q : List Command}
    (alike : Alike (starting rule) (starting rule') p q) :
    (starting rule).observed p = (starting rule').observed q ∧
      (reached rule p).Indistinguishable (reached rule' q) :=
  alike.observed_eq (sound_starting rule) (sound_starting rule') ⟨rfl, rfl⟩

/-- Two callers of one thread are added, without a cache. -/
def twoAdditions : List Command :=
  [.context 0 (.push 9 7), .edit 0 (.add ⟨5, 1, 0, .always, 0, false, false, false⟩ 0),
    .context 0 (.push 9 8), .edit 0 (.add ⟨5, 1, 0, .always, 0, false, false, false⟩ 0),
    .contains 0 ⟨5, 1, 0, .always, 0, false, false, false⟩]

/-- The same is added through a small cache, from contexts that were built more than once, and with
the set interned in between. -/
def twoCachedAdditions : List Command :=
  [.newCache 0 true 1, .context 1 (.push 9 7),
    .edit 0 (.add ⟨5, 1, 1, .always, 0, false, false, false⟩ 0), .edit 0 (.internContexts 0),
    .context 2 (.push 9 8), .context 3 (.push 9 8), .context 4 (.cachedJoin 1 2 0),
    .edit 0 (.add ⟨5, 1, 3, .always, 0, false, false, false⟩ 0), .clearCache 0,
    .contains 0 ⟨5, 1, 2, .always, 0, false, false, false⟩]

theorem observed_of_alike_twoAdditions :
    Alike (starting .sha256) (starting .sha256) twoAdditions twoCachedAdditions ∧
      (starting .sha256).observed twoAdditions = (starting .sha256).observed twoCachedAdditions ∧
      (reached .sha256 twoAdditions).Indistinguishable (reached .sha256 twoCachedAdditions) := by
  have alike : Alike (starting .sha256) (starting .sha256) twoAdditions twoCachedAdditions := by
    refine .left rfl (.right rfl (.right rfl (.both (.add 0 0 0 (by decide +kernel)) ?_)))
    refine .right rfl (.left rfl (.right rfl (.right rfl (.right rfl ?_))))
    refine .both (.add 0 0 0 (by decide +kernel)) (.right rfl ?_)
    exact .both (.contains 0 (by decide +kernel)) (.nil _ _)
  exact ⟨alike, observed_of_alike .sha256 .sha256 alike⟩

end Session

end Prediction
