import Prediction.Guard.Basic
import Prediction.Supply

/-!
Guards as allocated instances. The simplifications of `Guard.and` and `Guard.or` return an operand
itself where they can; `always` is a single instance.
-/

namespace Prediction.Guard

structure Instance where
  label : Label
  guard : Guard

namespace Instance

def same (left right : Instance) : Bool :=
  left.label == right.label

def always : Instance := ⟨Supply.reserved, .always⟩

def allocate (g : Guard) (s : Supply) : Instance × Supply :=
  (⟨s.fresh.1, g⟩, s.fresh.2)

def and (left right : Instance) (s : Supply) : Instance × Supply :=
  if left.guard.isAlways then (right, s)
  else if right.guard.isAlways || left.guard = right.guard then (left, s)
  else allocate (left.guard.and right.guard) s

def or (left right : Instance) (s : Supply) : Instance × Supply :=
  if left.guard.isAlways || right.guard.isAlways then (always, s)
  else if left.guard = right.guard then (left, s)
  else allocate (left.guard.or right.guard) s

theorem guard_and (left right : Instance) (s : Supply) :
    (left.and right s).1.guard = left.guard.and right.guard := by
  unfold and Guard.and
  split
  · rfl
  · split
    · rfl
    · simp_all [allocate]

theorem guard_or (left right : Instance) (s : Supply) :
    (left.or right s).1.guard = left.guard.or right.guard := by
  unfold or Guard.or
  split
  · rfl
  · split
    · rfl
    · simp_all [allocate]

end Instance

end Prediction.Guard
