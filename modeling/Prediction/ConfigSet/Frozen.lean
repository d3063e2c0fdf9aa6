import Prediction.ConfigSet.Basic

/-!
Frozen sets of configurations. Copies of a frozen set share its storage, which a label identifies;
thawing replays the configurations into a new writable set.
-/

namespace Prediction

structure FrozenSet extends ConfigContents where
  storage : Label

def ConfigSet.freeze (s : ConfigSet) (supply : Supply) : FrozenSet × Supply :=
  (⟨s.toConfigContents, supply.fresh.1⟩, supply.fresh.2)

namespace FrozenSet

def contains (f : FrozenSet) (c : Config) : Bool :=
  f.configs.any (·.covers c)

def sharesStorage (f g : FrozenSet) : Bool :=
  f.storage == g.storage

/-- Equality of contents. Shared storage is not compared. -/
def equal (f g : FrozenSet) : Bool :=
  f.outermost == g.outermost && f.conflict == g.conflict &&
    (f.sharesStorage g || f.configs.isEqv g.configs Config.equal)

/-- The flags are those of the frozen set from the start; the conflict is not kept. -/
def thaw (f : FrozenSet) (j : Joiner) : Except ConfigSet.Error ConfigSet × Joiner :=
  let replayed := (ConfigSet.starting f.outermost f.guarded f.dips).addAll f.configs j
  (replayed.1.map fun _ => replayed.2.1, replayed.2.2)

end FrozenSet

end Prediction
