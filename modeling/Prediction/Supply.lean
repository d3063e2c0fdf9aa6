import Prediction.Digest

/-!
Allocation. Everything that can be shared carries a label, and two contexts of one kind are the same
instance exactly when their labels agree; a supply never hands out a label twice. The supply also
fixes how the digest of a context follows from its paths, so that everything built from one supply
has comparable digests.
-/

namespace Prediction

/-- Identifies one allocation. -/
abbrev Label := Nat

/-- Names the place where a parse thread resumes when its current rule finishes. -/
abbrev ReturnState := UInt32

/-- How the digest of a context follows from those of its parents. Equality of contexts uses digests
only to reject early, so it is right under every rule. -/
structure DigestRule where
  outermost : Digest
  wildcard : Digest
  ofPaths : List (ReturnState × Digest) → Digest

namespace DigestRule

/-- Hashes a message that determines the context: one word tells the kinds of contexts apart, and
each path adds its return state and its parent's digest. -/
def sha256 : DigestRule where
  outermost := .ofWords [0]
  wildcard := .ofWords [1]
  ofPaths paths := .ofWords (2 :: paths.flatMap fun path => path.1 :: path.2.words)

end DigestRule

structure Supply where
  next : Label
  rule : DigestRule

namespace Supply

/-- The label of what all supplies share: one guard, one outermost context and one wildcard. -/
def reserved : Label := 0

/-- A supply from which nothing was built yet. -/
def starting (rule : DigestRule) : Supply := ⟨reserved + 1, rule⟩

def fresh (s : Supply) : Label × Supply :=
  (s.next, { s with next := s.next + 1 })

@[simp] theorem fresh_label (s : Supply) : s.fresh.1 = s.next := rfl

@[simp] theorem fresh_next (s : Supply) : s.fresh.2.next = s.next + 1 := rfl

@[simp] theorem fresh_rule (s : Supply) : s.fresh.2.rule = s.rule := rfl

end Supply

end Prediction
