import Mathlib.Data.List.TakeWhile
import Prediction.Proofs.ConfigSet.Thawing
import Prediction.Proofs.Session.Outermost

/-!
Freezing a set and thawing it again. Every set that a program can lead to is rebuilt by that, unless
it is outermost and has a hidden entry all the same; then the first such entry is refused.
-/

namespace Prediction

namespace ConfigSet

variable {s : ConfigSet}

/-- What thawing gives for a set that was frozen. Nothing is joined, so what joins would be made
with is left as it is. -/
structure Thaws (s : ConfigSet) (j : Joiner) (thawed : Except ConfigSet.Error ConfigSet × Joiner) :
    Prop where
  untouched : thawed.2 = j
  refused : ∀ refusal, thawed.1 = .error refusal ↔ s.outermost = true ∧
    ∃ c, s.configs.find? (·.hidden) = some c ∧ refusal = .hiddenInOutermost c.key
  rebuilt : s.Overt → ∃ t, thawed.1 = .ok t ∧ t.Rebuilds s

/-- Where nothing reaches further out, an outermost set refuses the hidden configurations. -/
theorem findSome?_refusal? {cs : List Config} (outermost : s.outermost = true)
    (inner : ∀ c ∈ cs, c.reachesOuter = false) :
    cs.findSome? s.refusal? = (cs.find? (·.hidden)).map fun c => .hiddenInOutermost c.key := by
  induction cs with
  | nil => rfl
  | cons c cs ih =>
    obtain ⟨first, others⟩ := List.forall_mem_cons.mp inner
    rw [List.findSome?_cons, List.find?_cons, ih others, refusal?, if_pos outermost]
    cases c.hidden <;> simp [first]

theorem first_refused_iff (exclusive : s.Exclusive) (refusal : ConfigSet.Error) :
    s.configs.findSome? s.refusal? = some refusal ↔ s.outermost = true ∧
      ∃ c, s.configs.find? (·.hidden) = some c ∧ refusal = .hiddenInOutermost c.key := by
  cases outermost : s.outermost with
  | true =>
    rw [findSome?_refusal? outermost (exclusive.entries outermost), Option.map_eq_some_iff]
    simp only [true_and, eq_comm]
  | false => simp [List.findSome?_eq_some_iff, refusal?_of_not_outermost outermost]

theorem refusal?_eq_none (overt : s.Overt) (exclusive : s.Exclusive) :
    ∀ c ∈ s.configs, s.refusal? c = none := by
  intro c present
  cases outermost : s.outermost with
  | true =>
    have visible := overt outermost c present
    have inner := exclusive.entries outermost c present
    simp [refusal?, outermost, visible, inner]
  | false => exact refusal?_of_not_outermost outermost c

/-- Thawing replays the entries one after another, and they cannot be merged. -/
theorem thaws_of_indexed (indexed : s.Indexed) (guards : s.linear.NotesGuards)
    (reach : s.linear.NotesReach) (supply : Supply) (j : Joiner) :
    s.Thaws j ((s.freeze supply).1.thaw j) := by
  have exclusive : s.Exclusive := reach.exclusive
  have replay := addAll_of_distinct (s := starting s.outermost s.guarded s.dips) (j := j)
    indexed.distinct
  have same : (starting s.outermost s.guarded s.dips).refusal? = s.refusal? := rfl
  rw [same] at replay
  simp only [FrozenSet.thaw, freeze, replay]
  constructor
  · rfl
  · intro refusal
    rw [← first_refused_iff exclusive]
    cases s.configs.findSome? s.refusal? <;> simp [Except.map]
  · intro overt
    have accepted := refusal?_eq_none overt exclusive
    have all : (s.configs.takeWhile fun c => (s.refusal? c).isNone) = s.configs :=
      List.takeWhile_eq_self_iff.mpr fun c present => by simp [accepted c present]
    rw [List.findSome?_eq_none_iff.mpr accepted, all]
    exact ⟨_, rfl, rebuilds_appendAll guards fun c present =>
      reach.noted c.value (List.mem_map_of_mem present)⟩

end ConfigSet

namespace Session

/-- Whatever a program has done to a set, freezing and thawing it again rebuilds it, or else it is
outermost with a hidden entry; whatever cache is there is not used. -/
theorem thaw_freeze (rule : DigestRule) (program : List Command) (i : Nat) (supply : Supply)
    (j : Joiner) :
    let s := (reached rule program).sets i
    s.Thaws j ((s.freeze supply).1.thaw j) := by
  obtain ⟨known, sound⟩ := sound_reached rule program
  have guards := all_reached LinearSet.invariant_notesGuards rule program
  have reach := all_reached LinearSet.invariant_notesReach rule program
  exact ConfigSet.thaws_of_indexed (sound.indexed i) (guards.sets i) (reach.sets i) supply j

end Session

end Prediction
