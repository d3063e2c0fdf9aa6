import Prediction.Proofs.Session.Refinement
import Prediction.Proofs.Tree.Semilattice

/-!
Joins of joins. What nested joins deliver depends on the values of the contexts in them alone, not
on the caches that they go through or on what was joined before. Joins are commutative, idempotent
and absorbing with the wildcard on top, and associative for contexts in proper form.
-/

namespace Prediction.Session

/-- A nest of joins, with the contexts of a session and any of its caches for each join. -/
inductive Joining where
  | context (i : Nat)
  | wildcard
  | join (left right : Joining) (cache : Nat)

/-- Makes the joins one after another, from the left. -/
def Joining.perform (s : Session) : Joining → Context × Session
  | .context i => (s.contexts i, s)
  | .wildcard => (.wildcard, s)
  | .join left right cache =>
    let first := left.perform s
    let second := right.perform first.2
    let joined := first.1.join second.1 (second.2.joiner cache)
    (joined.1, second.2.rejoin cache joined.2)

def Joining.value (contexts : Nat → Tree) : Joining → Tree
  | .context i => contexts i
  | .wildcard => .wildcard
  | .join left right _ => (left.value contexts).join (right.value contexts)

/-- Making the first joins and after that the second ones delivers equal contexts. -/
structure Agree (s : Session) (t u : Joining) : Prop where
  value : (t.perform s).1.tree = (u.perform (t.perform s).2).1.tree
  equal : (t.perform s).1.equal (u.perform (t.perform s).2).1 = true

/-- What holds of joins of any two contexts. -/
structure JoinLaws (s : Session) (i k : Nat) : Prop where
  comm : ∀ x y, s.Agree (.join (.context i) (.context k) x) (.join (.context k) (.context i) y)
  self : ∀ x, s.Agree (.join (.context i) (.context i) x) (.context i)
  absorb : ∀ x y z, s.Agree (.join (.context i) (.join (.context i) (.context k) x) y)
    (.join (.context i) (.context k) z)
  top : ∀ x, s.Agree (.join (.context i) .wildcard x) .wildcard

/-- Joins of three contexts may be nested in either way. -/
def Associates (s : Session) (i k m : Nat) : Prop :=
  ∀ w x y z, s.Agree (.join (.join (.context i) (.context k) w) (.context m) x)
    (.join (.context i) (.join (.context k) (.context m) y) z)

variable {known : Set Context} {s : Session}

/-- By induction on the nest. No join overwrites a context of the session. -/
theorem Joining.perform_spec (sound : s.Sound known) (t : Joining) :
    (t.perform s).2.linear = s.linear ∧
      ∃ wider, known ⊆ wider ∧ Sound wider (t.perform s).2 ∧ (t.perform s).1 ∈ wider ∧
        (t.perform s).1.tree = t.value s.linear.contexts := by
  induction t generalizing s known with
  | context i => exact ⟨rfl, known, subset_rfl, sound, sound.contexts i, rfl⟩
  | wildcard => exact ⟨rfl, known, subset_rfl, sound, sound.coherent.wildcard, rfl⟩
  | join left right cache ihLeft ihRight =>
    obtain ⟨same, middle, upward, sound', present, value⟩ := ihLeft sound
    obtain ⟨same', wider, included, sound'', present', value'⟩ := ihRight sound'
    obtain ⟨widest, included', joiner, joined, value''⟩ :=
      (Context.joinable _ (sound''.joiner cache) (included present) present').1
    rw [same] at same' value'
    refine ⟨same', widest, (upward.trans included).trans included',
      sound''.rejoin included' joiner cache, joined, ?_⟩
    rw [perform, value'', value, value', Joining.value]

theorem agree_of_value (sound : s.Sound known) {t u : Joining}
    (same : t.value s.linear.contexts = u.value s.linear.contexts) : s.Agree t u := by
  obtain ⟨unchanged, wider, -, sound', present, value⟩ := t.perform_spec sound
  obtain ⟨-, widest, included, sound'', present', value'⟩ := u.perform_spec sound'
  have trees : (t.perform s).1.tree = (u.perform (t.perform s).2).1.tree := by
    rw [value, value', unchanged, same]
  exact ⟨trees, (sound''.coherent.equal_iff (included present) present').mpr trees⟩

theorem joins_semilattice (rule : DigestRule) (program : List Command) (i k m : Nat) :
    let s := reached rule program
    s.JoinLaws i k ∧ ((s.contexts i).Proper → (s.contexts k).Proper → (s.contexts m).Proper →
      s.Associates i k m) := by
  obtain ⟨known, sound⟩ := sound_reached rule program
  have canonical (n : Nat) := sound.coherent.canonical (sound.contexts n)
  refine ⟨⟨?_, ?_, ?_, ?_⟩, ?_⟩
  · exact fun _ _ => agree_of_value sound (Tree.join_comm (canonical i) (canonical k))
  · exact fun _ => agree_of_value sound (Tree.join_self _)
  · exact fun _ _ _ => agree_of_value sound (Tree.join_join_left (canonical i) (canonical k))
  · exact fun _ => agree_of_value sound (Tree.join_wildcard _)
  · exact fun first second third _ _ _ _ => agree_of_value sound
      (Tree.join_assoc (canonical i) (canonical k) (canonical m) first second third)

/-- A caller, the same return state above another caller, and the first caller made optional. -/
def nestedCallers : List Command :=
  [.newCache 0 true 2, .context 0 (.push 9 7), .context 1 (.push 9 8), .context 2 (.push 1 7),
    .context 3 (.addOutermost 0)]

theorem joins_semilattice_nestedCallers :
    let s := reached .sha256 nestedCallers
    s.JoinLaws 0 2 ∧ (s.contexts 0).Proper ∧ (s.contexts 2).Proper ∧ (s.contexts 3).Proper ∧
      s.Associates 0 2 3 := by
  intro s
  have caller (k : ReturnState) : Tree.Proper (.node [(k, .outermost)]) :=
    .node (by simp) (by simpa using .outermost)
  have nested : Tree.Proper (.node [(7, .node [(8, .outermost)])]) :=
    .node (by simp [outermostKey]) (by simpa using caller 8)
  have optional : Tree.Proper (.node [(7, .outermost), (outermostKey, .outermost)]) :=
    .node (by simp) (by simpa using .outermost)
  obtain ⟨laws, associates⟩ := joins_semilattice .sha256 nestedCallers 0 2 3
  exact ⟨laws, caller 7, nested, optional, associates (caller 7) nested optional⟩

end Prediction.Session
