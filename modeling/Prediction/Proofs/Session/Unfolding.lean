import Prediction.Proofs.Context.Comparison
import Prediction.Proofs.Context.Graph
import Prediction.Proofs.Session.Equality

/-!
Contexts by what they unfold to. However contexts were built and shared, and whatever the digests
are, comparing them with all shortcuts is comparing the trees that they unfold to.
-/

namespace Prediction.Session

open Context

/-- A context that a client can get hold of, or one below it. -/
def Obtainable (s : Session) (c : Context) : Prop :=
  ∃ held, s.HoldsContext held ∧ held.Reaches c

variable {s : Session} {known : Set Context} {c : Context}

theorem Sound.obtainable (sound : s.Sound known) (obtained : s.Obtainable c) : c ∈ known := by
  obtain ⟨held, holds, reaches⟩ := obtained
  exact reaches.mem sound.coherent (sound.holdsContext holds)

/-- All comparisons of contexts in a session are comparisons of trees. -/
structure ComparesTrees (s : Session) : Prop where
  /-- What a comparison looks at, in which order. -/
  staged : ∀ a b, s.Obtainable a → s.Obtainable b → a.equal b = a.compare s.supply.rule b
  equal_iff : ∀ a b, s.Obtainable a → s.Obtainable b → (a.equal b = true ↔ a.tree = b.tree)
  /-- No shortcut takes different trees for the same. -/
  identical : ∀ a b, s.Obtainable a → s.Obtainable b → a.identical b = true → a.tree = b.tree
  /-- No shortcut tells the same tree apart. -/
  digest : ∀ a b, s.Obtainable a → s.Obtainable b → a.tree = b.tree →
    a.digest s.supply.rule = b.digest s.supply.rule

/-- Digests may collide: nothing is asked of the rule. -/
theorem reached_comparesTrees (rule : DigestRule) (program : List Command) :
    (reached rule program).ComparesTrees := by
  obtain ⟨known, sound⟩ := sound_reached rule program
  have coherent := sound.coherent
  refine ⟨?staged, ?equal, ?identical, ?digest⟩
  case staged => exact fun a b _ _ => equal_eq_compare _ a b
  case equal =>
    exact fun a b left right => coherent.equal_iff (sound.obtainable left) (sound.obtainable right)
  case identical =>
    intro a b left right one
    rw [coherent.eq_of_identical (sound.obtainable left) (sound.obtainable right) one]
  case digest =>
    intro a b left right same
    rw [coherent.digest_tree (sound.obtainable left), coherent.digest_tree (sound.obtainable right),
      same]

/-- Under this rule, all digests collide. -/
def collidingRule : DigestRule :=
  ⟨.ofWords [], .ofWords [], fun _ => .ofWords []⟩

/-- One stack twice over, built apart from each other, and another stack. -/
def stacksApart : List Command :=
  [.context 0 (.push 9 7), .context 0 (.push 0 5), .context 1 (.push 9 7), .context 1 (.push 1 5),
    .context 2 (.push 9 7), .context 2 (.push 2 4)]

example : let s := reached collidingRule stacksApart
    (s.contexts 0).identical (s.contexts 1) = false ∧
      (s.contexts 0).equal (s.contexts 1) = true ∧
      (s.contexts 0).digest collidingRule = (s.contexts 2).digest collidingRule ∧
      (s.contexts 0).equal (s.contexts 2) = false := by
  decide +kernel

end Prediction.Session
