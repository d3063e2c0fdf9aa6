import Prediction.ConfigSet.Basic

/-!
A cursor walks over a writable set once and may remove the entry it produced last.
-/

namespace Prediction.ConfigSet

inductive CursorState where
  | fresh
  | produced (index : Nat)
  | removed (index : Nat)
deriving DecidableEq

structure Cursor where
  set : ConfigSet
  next : Nat
  state : CursorState

def cursor (s : ConfigSet) : Cursor := ⟨s, 0, .fresh⟩

namespace Cursor

/-- The next entry. At the end nothing changes, so the last entry can still be removed. -/
def advance (k : Cursor) : Option Config × Cursor :=
  match k.set.configs[k.next]? with
  | some c => (some c, { k with next := k.next + 1, state := .produced k.next })
  | none => (none, k)

/-- Removes the entry produced last. The walk goes on with the entry after it. -/
def remove (k : Cursor) : Except ConfigSet.Error (Config × Cursor) :=
  match k.state with
  | .fresh => .error .noCurrentConfig
  | .removed index => .error (.alreadyRemoved index)
  | .produced index =>
    match k.set.remove index with
    | .error refusal => .error refusal
    | .ok (c, set) => .ok (c, ⟨set, index, .removed index⟩)

end Cursor

end Prediction.ConfigSet
