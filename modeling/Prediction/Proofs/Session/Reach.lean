import Prediction.Proofs.ConfigSet.Reach
import Prediction.Proofs.Session.Origins
import Prediction.Proofs.Session.Prefixes

/-!
Depths of entries in sessions. Where every configuration that is added with a depth is marked as
reaching the outer context, so is every entry of every set all along the program, if and only if
nothing with a depth is ever merged into an entry without the mark.
-/

namespace Prediction

open ConfigSet (Marked)
open Session (Edit Command Draft)

namespace Session

/-- The configurations that a call adds, and the cache that it uses for that. -/
def Edit.addition? : Edit → Option (List Draft × Nat)
  | .add draft cache => some ([draft], cache)
  | .addAll drafts cache => some (drafts, cache)
  | _ => none

/-- What the command is to add. -/
def Command.drafts : Command → List Draft
  | .edit _ call => (call.addition?.map Prod.fst).getD []
  | _ => []

/-- What the command is to add is marked as the depths demand. -/
def Command.KnowsReach (command : Command) : Prop :=
  ∀ draft ∈ command.drafts, 0 < draft.depth → draft.reachesOuter = true

/-- The merges that the command makes. A frozen set is thawed without any. -/
def Command.merges (s : Session) : Command → List (Config × Config)
  | .edit i call =>
    match call.addition? with
    | none => []
    | some (drafts, cache) => (s.sets i).merges (drafts.map (·.config s)) (s.joiner cache)
  | _ => []

/-- The command merges nothing with a depth into an entry that is not marked. -/
def Command.MergesMarked (s : Session) (command : Command) : Prop := Marked (command.merges s)

variable {known : Set Context} {s : Session} {i : Nat}

/-- One configuration is added as a list of one is. -/
theorem sets_performEdit_addition {call : Edit} {drafts : List Draft} {cache : Nat}
    (s : Session) (i : Nat) (adds : call.addition? = some (drafts, cache)) :
    (s.performEdit i call).2.sets i =
      ((s.sets i).addAll (drafts.map (·.config s)) (s.joiner cache)).2.1 := by
  cases call with
  | add draft cache =>
    obtain ⟨rfl, rfl⟩ := Prod.mk.inj (Option.some.inj adds)
    simp only [performEdit, List.map_cons, List.map_nil, ConfigSet.addAll]
    cases (s.sets i).add (draft.config s) (s.joiner cache) with
    | error refusal => rfl
    | ok step => exact Function.update_self _ _ _
  | addAll drafts cache =>
    obtain ⟨rfl, rfl⟩ := Prod.mk.inj (Option.some.inj adds)
    exact Function.update_self _ _ _
  | _ => contradiction

/-- Every other call leaves the set without new entries. -/
theorem entries_performEdit_subset {call : Edit} (s : LinearSession) (i : Nat)
    (addsNothing : call.addition? = none) :
    ((s.performEdit i call).2.sets i).entries ⊆ (s.sets i).entries := by
  cases call with
  | add => contradiction
  | addAll => contradiction
  | remove index =>
    simp only [LinearSession.performEdit]
    split
    · exact List.Subset.refl _
    · rename_i removed
      rw [sets_putSet_self, LinearSet.eq_of_remove removed]
      exact (List.eraseIdx_sublist _ index).subset
  | walk moves =>
    simp only [LinearSession.performEdit, sets_putSet_self]
    exact LinearSession.walk_induction
      (motive := fun set => set.entries ⊆ (s.sets i).entries)
      (fun _ index included => List.Subset.trans (List.eraseIdx_sublist _ index).subset included)
      (List.Subset.refl _) moves
  | dropHidden =>
    simp only [LinearSession.performEdit, sets_putSet_self]
    exact List.filter_sublist.subset
  | internContexts => exact List.Subset.refl _
  | clear =>
    simp only [LinearSession.performEdit, sets_putSet_self]
    exact List.nil_subset _
  | setOutermost outermost =>
    simp only [LinearSession.performEdit]
    split
    · exact List.Subset.refl _
    · rename_i set
      rw [sets_putSet_self, (LinearSet.eq_of_latch set).1]
      exact List.Subset.refl _
  | setConflict =>
    simp only [LinearSession.performEdit, sets_putSet_self]
    exact List.Subset.refl _

theorem knowReach_performEdit_iff (sound : s.Sound known) (before : (s.sets i).KnowReach)
    {call : Edit} (knows : (Command.edit i call).KnowsReach) :
    ((s.performEdit i call).2.sets i).KnowReach ↔ (Command.edit i call).MergesMarked s := by
  cases adds : call.addition? with
  | none =>
    have nothing : (Command.edit i call).merges s = [] := by simp only [Command.merges, adds]
    have marked : (Command.edit i call).MergesMarked s :=
      fun merge made => absurd (nothing ▸ made) List.not_mem_nil
    refine iff_of_true ?_ marked
    have kept : (s.linear.sets i).KnowReach := LinearSet.knowReach_linear.mpr before
    rw [← LinearSet.knowReach_linear, ← linear_sets, (performEdit_realizes sound i call).linear]
    exact kept.subset (entries_performEdit_subset s.linear i adds)
  | some addition =>
    obtain ⟨drafts, cache⟩ := addition
    have offered : ∀ c ∈ drafts.map (·.config s), c.KnowsReach := by
      simp only [Command.KnowsReach, Command.drafts, adds] at knows
      exact List.forall_mem_map.mpr knows
    rw [sets_performEdit_addition s i adds,
      ConfigSet.knowReach_addAll_iff (sound.indexed i) offered, and_iff_right before]
    simp only [Command.MergesMarked, Command.merges, adds]

/-- All sets, writable and frozen ones, have entries that are marked as their depths demand. -/
def KnowReach (s : Session) : Prop := ∀ i, (s.sets i).KnowReach ∧ (s.frozen i).KnowReach

theorem knowReach_perform_iff (sound : s.Sound known) (distinct : s.linear.All LinearSet.Distinct)
    (before : s.KnowReach) {command : Command} (knows : command.KnowsReach) :
    (s.perform command).2.KnowReach ↔ command.MergesMarked s := by
  constructor
  · intro after
    cases command with
    | edit target call =>
      exact (knowReach_performEdit_iff sound (before target).1 knows).mp (after target).1
    | _ => exact fun merge made => absurd made List.not_mem_nil
  · intro marked i
    have sets (i : Nat) : (s.linear.sets i).KnowReach :=
      LinearSet.knowReach_linear.mpr (before i).1
    have frozen (i : Nat) : (s.linear.frozen i).KnowReach :=
      LinearSet.knowReach_linear.mpr (before i).2
    rw [← LinearSet.knowReach_linear, ← LinearSet.knowReach_linear, ← linear_sets, ← linear_frozen,
      (perform_realizes sound command).linear]
    constructor
    · apply LinearSession.sets_perform sets
      · exact fun entry listed => absurd listed List.not_mem_nil
      · exact fun i later thawed =>
          (frozen i).subset (LinearSet.entries_of_thaw (distinct.frozen i) thawed)
      · rintro target call rfl
        rw [← (performEdit_realizes sound target call).linear]
        exact LinearSet.knowReach_linear.mpr
          ((knowReach_performEdit_iff sound (before target).1 knows).mpr marked)
    · rcases LinearSession.frozen_perform s.linear command i with same | ⟨set, now⟩
      · exact same ▸ frozen i
      · exact now ▸ sets set

/-- Where a program marks all that it adds as the depths demand, so are all entries of all sets
along it, if and only if it merges nothing with a depth into an entry that is not marked. -/
theorem knowReach_iff_mergesMarked (rule : DigestRule) (program : List Command)
    (knows : ∀ command ∈ program, command.KnowsReach) :
    (∀ front, front <+: program → (reached rule front).KnowReach) ↔
      (starting rule).Meets Command.MergesMarked program := by
  refine always_iff_meets (motive := KnowReach) ?_ ?_
  · intro i
    exact ⟨fun c listed => absurd listed List.not_mem_nil,
      fun c listed => absurd listed List.not_mem_nil⟩
  · intro front command isFront before
    obtain ⟨known, sound⟩ := sound_reached rule front
    have distinct := all_reached LinearSet.invariant_distinct rule front
    have listed : command ∈ program := isFront.subset (List.mem_append_right _ List.mem_cons_self)
    exact knowReach_perform_iff sound distinct before (knows command listed)

/-- A thread comes from the outer context, and then one from further out joins it. -/
def deepFirst : List Command :=
  [.edit 0 (.add ⟨1, 1, 0, .always, 1, true, false, false⟩ 0),
    .edit 0 (.add ⟨1, 1, 0, .always, 2, true, false, false⟩ 0)]

/-- The entry that the second one is merged into is marked already. -/
theorem knowReach_deepFirst : (∀ command ∈ deepFirst, command.KnowsReach) ∧
    ∀ front, front <+: deepFirst → (reached .sha256 front).KnowReach := by
  have knows : ∀ command ∈ deepFirst, command.KnowsReach := by
    simp [deepFirst, Command.KnowsReach, Command.drafts, Edit.addition?]
  have first : Command.MergesMarked (starting .sha256) deepFirst[0] :=
    fun merge made => absurd made List.not_mem_nil
  have second : Command.MergesMarked ((starting .sha256).perform deepFirst[0]).2 deepFirst[1] := by
    intro merge made
    obtain rfl := List.mem_singleton.mp made
    exact fun _ => rfl
  refine ⟨knows, ?_⟩
  exact (knowReach_iff_mergesMarked .sha256 deepFirst knows).mpr ⟨first, second, trivial⟩

/-- A thread that comes from the outer context joins one that has not been there. -/
def deepLast : List Command :=
  [.edit 0 (.add ⟨1, 1, 0, .always, 0, false, false, false⟩ 0),
    .edit 0 (.add ⟨1, 1, 0, .always, 1, true, false, false⟩ 0)]

/-- Both are marked as they should be, and the set notes that the outer context was reached, but its
only entry has the depth without the mark. -/
theorem not_knowReach_deepLast : (∀ command ∈ deepLast, command.KnowsReach) ∧
    ((reached .sha256 deepLast).sets 0).dips = true ∧ ¬ (reached .sha256 deepLast).KnowReach := by
  refine ⟨by simp [deepLast, Command.KnowsReach, Command.drafts, Edit.addition?], rfl, ?_⟩
  intro know
  have marked := (know 0).1 _ List.mem_cons_self (by decide)
  contradiction

end Session

end Prediction
