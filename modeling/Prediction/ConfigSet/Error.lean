import Prediction.Config

/-!
What operations on sets of configurations refuse to do.
-/

namespace Prediction

inductive ConfigSet.Error where
  | hiddenInOutermost (key : Config.Key)
  | outerContextInOutermost (key : Config.Key)
  | dipsIntoOuterContext
  | outermostLatch
  | noCurrentConfig
  | alreadyRemoved (index : Nat)
  | indexOutOfBounds (index size : Nat)
deriving DecidableEq

namespace ConfigSet.Error

/-- Whether the refused operation would have broken what outermost sets promise. -/
def breaksInvariant : ConfigSet.Error → Bool
  | .hiddenInOutermost _ | .outerContextInOutermost _ | .dipsIntoOuterContext => true
  | _ => false

def keyText (key : Config.Key) : String :=
  "(" ++ toString key.state ++ "," ++ toString key.alt ++ ")"

def message : ConfigSet.Error → String
  | .hiddenInOutermost key =>
    "hidden configuration " ++ keyText key ++
      " cannot be added to an outermost configuration set"
  | .outerContextInOutermost key =>
    "configuration " ++ keyText key ++
      " reaches the outer context of an outermost configuration set"
  | .dipsIntoOuterContext =>
    "configuration set already dips into the outer context and cannot become outermost"
  | .outermostLatch => "an outermost configuration set cannot be reverted to non-outermost"
  | .noCurrentConfig => "no configuration to remove; the cursor has not produced one yet"
  | .alreadyRemoved index =>
    "configuration at position " ++ toString index ++ " was already removed"
  | .indexOutOfBounds index size =>
    "index " ++ toString index ++ " is out of bounds for a configuration set of length " ++
      toString size

/-- A stable name of the cause, the same for all of its details. -/
def code : ConfigSet.Error → String
  | .hiddenInOutermost _ => "config_set::hidden_in_outermost"
  | .outerContextInOutermost _ => "config_set::outer_context_in_outermost"
  | .dipsIntoOuterContext => "config_set::dips_into_outer_context"
  | .outermostLatch => "config_set::outermost_latch"
  | .noCurrentConfig => "config_set::no_current_config"
  | .alreadyRemoved _ => "config_set::already_removed"
  | .indexOutOfBounds .. => "config_set::index_out_of_bounds"

def help? : ConfigSet.Error → Option String
  | .hiddenInOutermost _ =>
    some "hidden configurations only exist while evaluating predicates during lookahead"
  | .noCurrentConfig => some "call `next_config` before `remove`"
  | _ => none

end ConfigSet.Error

end Prediction
