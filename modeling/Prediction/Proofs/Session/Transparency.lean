import Prediction.Proofs.Session.Refinement

/-!
Caches cannot be seen in what joins deliver. Whatever a cache has met before, and whatever of that
it has forgotten, a join through it is equal to the join that is made without a cache.
-/

namespace Prediction

open Context

/-- What a join through a cache delivered has the value that the join without a cache would have
had in its place, and is equal to what that join delivers afterwards. -/
structure Joiner.Transparent (before : Supply) (a b : Context) (joined : Context × Joiner) :
    Prop where
  value : joined.1.tree = (a.join b ⟨before, .disabled⟩).1.tree
  equal : joined.1.equal (a.join b ⟨joined.2.supply, .disabled⟩).1 = true

variable {known : Set Context} {j : Joiner} {a b : Context}

/-- A disabled cache has nothing in it that could be wrong. -/
theorem Joiner.Sound.uncached (sound : j.Sound known) :
    Joiner.Sound known ⟨j.supply, .disabled⟩ :=
  ⟨sound.coherent, Cache.sound_new known false 0⟩

/-- Both joins have the value of the join of trees, so their results are equal as soon as both of
them are known. -/
theorem Joins.transparent {joined : Context × Joiner}
    (joins : Joins known (a.tree.join b.tree) joined) (sound : j.Sound known) (left : a ∈ known)
    (right : b ∈ known) : Joiner.Transparent j.supply a b joined := by
  obtain ⟨wider, included, sound', present, value⟩ := joins
  obtain ⟨-, -, -, -, plain⟩ := (joinable a sound.uncached left right).1
  obtain ⟨widest, upward, later, delivered, plain'⟩ :=
    (joinable a sound'.uncached (included left) (included right)).1
  constructor
  · exact value.trans plain.symm
  · rw [later.coherent.equal_iff (upward present) delivered]
    exact value.trans plain'.symm

namespace Session

/-- In every session that a program leads to, with every cache in it: enabled or not, of any
capacity, with any joins on record or cleared. -/
theorem joins_transparent (rule : DigestRule) (program : List Command) (i k cache : Nat) :
    let s := reached rule program
    let a := s.contexts i
    let b := s.contexts k
    Joiner.Transparent s.supply a b (a.join b (s.joiner cache)) ∧
      Joiner.Transparent s.supply a b (a.cachedJoin b (s.joiner cache)) := by
  obtain ⟨known, sound⟩ := sound_reached rule program
  have joiner := sound.joiner cache
  have left := sound.contexts i
  have right := sound.contexts k
  have direct := (joinable _ joiner left right).1
  have cached := Joinable.remember (joinable _) joiner left right
  exact ⟨direct.transparent joiner left right, cached.transparent joiner left right⟩

end Session

end Prediction
