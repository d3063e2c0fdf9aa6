import Prediction.Proofs.Context.Stacks
import Prediction.Proofs.Session.Refinement
import Prediction.Proofs.Tree.Semilattice

/-!
Joins and their operands. In every session, and whatever a cache has met before, a join that has the
value of an operand is that very instance, so that a client sees by identity alone whether a join
has added anything. What covers a join covers both of its operands; the converse fails exactly where
paths marked as the one to the outermost context clash.
-/

namespace Prediction

namespace Context

/-- What a join delivered is the left operand itself if it is equal to that one, otherwise the right
operand itself if it is equal to that one, and otherwise neither of them. It is equal to an operand
exactly if that one covers the other. -/
structure ReturnsOperand (a b joined : Context) : Prop where
  left : joined.equal a = true → joined.identical a = true
  right : joined.equal a = false → joined.equal b = true → joined.identical b = true
  neither : joined.equal a = false → joined.equal b = false →
    joined.identical a = false ∧ joined.identical b = false
  equal_left : joined.equal a = true ↔ a.covers b = true
  equal_right : joined.equal b = true ↔ b.covers a = true

/-- Joining the second context and the third one adds the path to the outermost context somewhere,
where the first one marks that path but has a parent on it that does not end there. -/
def Clash (a b c : Context) : Prop := Tree.Clash a.tree b.tree c.tree

variable {known : Set Context} {j : Joiner} {a b c : Context}

theorem not_identical_of_not_equal (different : a.equal b = false) : a.identical b = false := by
  rw [Bool.eq_false_iff] at different ⊢
  exact mt equal_of_identical different

/-- Trees tell when a join keeps an operand, and comparing known contexts is comparing trees. -/
theorem returnsOperand_join (sound : j.Sound known) (left : a ∈ known) (right : b ∈ known) :
    ReturnsOperand a b (a.join b j).1 := by
  obtain ⟨⟨wider, included, sound', present, value⟩, keepsLeft, keepsRight⟩ :=
    joinable a sound left right
  have sameLeft := sound'.coherent.equal_iff present (included left)
  have sameRight := sound'.coherent.equal_iff present (included right)
  constructor
  · intro same
    rw [keepsLeft (sameLeft.mp same)]
    exact identical_self a
  · intro different same
    have changed : (a.join b j).1.tree ≠ a.tree := mt sameLeft.mpr (Bool.eq_false_iff.mp different)
    rw [keepsRight changed (sameRight.mp same)]
    exact identical_self b
  · exact fun notLeft notRight =>
      ⟨not_identical_of_not_equal notLeft, not_identical_of_not_equal notRight⟩
  · exact (covers_iff_join sound left right).symm
  · have canonical := sound.coherent.canonical left
    rw [sameRight, value, Tree.join_comm canonical (sound.coherent.canonical right)]
    exact (covers_iff_join_tree sound.coherent right left).symm

theorem covers_join_iff (sound : j.Sound known) (top : a ∈ known) (left : b ∈ known)
    (right : c ∈ known) :
    a.covers (b.join c j).1 = true ↔
      (a.covers b = true ∧ a.covers c = true) ∧ ¬ a.Clash b c := by
  obtain ⟨wider, included, sound', present, value⟩ := (joinable b sound left right).1
  have coherent := sound.coherent
  rw [covers_eq sound'.coherent (included top) present, value, covers_eq coherent top left,
    covers_eq coherent top right]
  exact Tree.covers_join_iff (coherent.canonical top) (coherent.canonical left)
    (coherent.canonical right)

end Context

namespace Session

/-- In every session that a program leads to, for all of its contexts and with every cache in it. -/
theorem joins_returnOperand (rule : DigestRule) (program : List Command) (i k cache : Nat) :
    let s := reached rule program
    Context.ReturnsOperand (s.contexts i) (s.contexts k)
      ((s.contexts i).join (s.contexts k) (s.joiner cache)).1 := by
  obtain ⟨known, sound⟩ := sound_reached rule program
  exact Context.returnsOperand_join (sound.joiner cache) (sound.contexts i) (sound.contexts k)

/-- A context covers a join if and only if it covers both operands and does not clash with them,
which only a context can that marks a path as the one to the outermost context but has another
parent there. -/
theorem covers_join_iff_not_clash (rule : DigestRule) (program : List Command)
    (i k m cache : Nat) :
    let s := reached rule program
    let a := s.contexts i
    let b := s.contexts k
    let c := s.contexts m
    (a.covers (b.join c (s.joiner cache)).1 = true ↔
        (a.covers b = true ∧ a.covers c = true) ∧ ¬ a.Clash b c) ∧
      (a.Clash b c → ¬ a.Proper) := by
  obtain ⟨known, sound⟩ := sound_reached rule program
  exact ⟨Context.covers_join_iff (sound.joiner cache) (sound.contexts i) (sound.contexts k)
    (sound.contexts m), Tree.Clash.not_proper⟩

/-- The caller 1, and the path to the outermost context with the caller 2 as its parent; the caller
1 alone. -/
def parentBelowMark : List Command :=
  [.context 1 (.push 0 2), .context 2 (.ofParts [0, 1] [1, outermostKey]), .context 3 (.push 0 1)]

/-- Both the caller 1 and the outermost context are covered, and their join is not. -/
theorem not_covers_join_parentBelowMark :
    let s := reached .sha256 parentBelowMark
    ¬ ((s.contexts 2).covers ((s.contexts 3).join (s.contexts 0) (s.joiner 0)).1 = true ↔
      (s.contexts 2).covers (s.contexts 3) = true ∧
        (s.contexts 2).covers (s.contexts 0) = true) := by
  intro s lawful
  obtain ⟨known, sound⟩ := sound_reached .sha256 parentBelowMark
  have coherent := sound.coherent
  have caller : (s.contexts 2).covers (s.contexts 3) = true := by
    rw [Context.covers_eq coherent (sound.contexts 2) (sound.contexts 3)]
    rfl
  have outermost : (s.contexts 2).covers (s.contexts 0) = true := by
    rw [Context.covers_eq coherent (sound.contexts 2) (sound.contexts 0)]
    rfl
  have clash : (s.contexts 2).Clash (s.contexts 3) (s.contexts 0) :=
    .symm (.mark (p := .node [(2, .outermost)]) rfl rfl rfl)
  have joined := Context.covers_join_iff (sound.joiner 0) (sound.contexts 2) (sound.contexts 3)
    (sound.contexts 0)
  exact (joined.mp (lawful.mpr ⟨caller, outermost⟩)).2 clash

end Session

end Prediction
