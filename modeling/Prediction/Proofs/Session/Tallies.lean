import Prediction.Proofs.ConfigSet.Tallies
import Prediction.Proofs.Session.Additions
import Prediction.Proofs.Session.Aggregates

/-!
The history of additions in sessions. A ledger lists for each set what was added to it since it was
made or emptied, copies and thawed sets included, and gives a set up once entries are taken out.
After every program the sets on the ledger know what a recomputation over their history gives.
-/

namespace Prediction.Session

/-- The set is new after the command, or was emptied by it. -/
def Command.resets (i : Nat) : Command → Bool
  | .newSet set | .edit set .clear => set == i
  | _ => false

/-- What was added to each set, in order, unless something was taken out of it since. -/
structure Ledger where
  sets : Nat → Option (List Config)
  frozen : Nat → Option (List Config)

namespace Ledger

/-- All sets are empty. -/
def opening : Ledger := ⟨fun _ => some [], fun _ => some []⟩

def putSet (l : Ledger) (target : Nat) (added : Option (List Config)) : Ledger :=
  { l with sets := Function.update l.sets target added }

/-- The ledger after a command. What a set refuses is not entered. -/
def enter (l : Ledger) (s : Session) : Command → Ledger
  | .newSet set => l.putSet set (some [])
  | .edit set .clear => l.putSet set (some [])
  | .edit set call =>
    if call.takesOut then l.putSet set none
    else l.putSet set ((l.sets set).map (· ++ (Command.edit set call).inserted s set))
  | .copy set target => l.putSet target (l.sets set)
  | .freeze set target => { l with frozen := Function.update l.frozen target (l.sets set) }
  | .thaw set target cache =>
    match ((s.frozen set).thaw (s.joiner cache)).1 with
    | .error _ => l
    | .ok _ => l.putSet target (l.frozen set)
  | _ => l

/-- The ledger after a program. -/
def follow (l : Ledger) (s : Session) : List Command → Ledger
  | [] => l
  | command :: program => (l.enter s command).follow (s.perform command).2 program

/-- Each set that has a history knows what a recomputation over it gives. -/
def Tallied (history : Nat → Option (List Config)) (sets : Nat → LinearSet) : Prop :=
  ∀ i added, history i = some added → (sets i).Tallies (added.map Config.value)

structure Records (l : Ledger) (s : LinearSession) : Prop where
  sets : Tallied l.sets s.sets
  frozen : Tallied l.frozen s.frozen

variable {history : Nat → Option (List Config)} {sets : Nat → LinearSet}
  {added : Option (List Config)} {set : LinearSet}

theorem Tallied.update (tallied : Tallied history sets)
    (new : ∀ cs, added = some cs → set.Tallies (cs.map Config.value)) (target : Nat) :
    Tallied (Function.update history target added) (Function.update sets target set) := by
  intro i cs listed
  by_cases here : i = target
  · subst here
    rw [Function.update_self] at listed ⊢
    exact new cs listed
  · rw [Function.update_of_ne here] at listed ⊢
    exact tallied i cs listed

theorem records_opening : opening.Records .starting := by
  have tallied : Tallied (fun _ => some []) fun _ => .empty := by
    intro i added listed
    obtain rfl := Option.some.inj listed
    exact LinearSet.tallies_starting false
  exact ⟨tallied, tallied⟩

variable {i : Nat} {s : Session} {l : Ledger} {before : List Config}

theorem sets_putSet_of_ne {target : Nat} (other : target ≠ i) :
    (l.putSet target added).sets i = l.sets i :=
  Function.update_of_ne (Ne.symm other) _ _

theorem enter_edit {call : Edit} (adds : call.onlyAdds = true) :
    l.enter s (.edit i call) =
      l.putSet i ((l.sets i).map (· ++ (Command.edit i call).inserted s i)) := by
  cases call with
  | remove | walk | dropHidden | clear => contradiction
  | _ => rfl

theorem enter_edit_of_ne {target : Nat} (other : target ≠ i) (call : Edit) :
    (l.enter s (.edit target call)).sets i = l.sets i := by
  cases call <;> exact sets_putSet_of_ne other

/-- What a command adds to a set is entered, and nothing else while the set is only added to. -/
theorem sets_enter {command : Command} (adds : command.onlyAdds i = true)
    (listed : l.sets i = some before) :
    (l.enter s command).sets i = some (before ++ command.inserted s i) := by
  have kept : l.sets i = some (before ++ []) := by rw [listed, List.append_nil]
  cases command with
  | edit target call =>
    by_cases here : target = i
    · subst here
      rw [enter_edit (by simpa [Command.onlyAdds] using adds), listed]
      exact Function.update_self ..
    · rw [enter_edit_of_ne here, Command.inserted, if_neg here]
      exact kept
  | newSet target =>
    have other : target ≠ i := by simpa [Command.onlyAdds] using adds
    exact (sets_putSet_of_ne other).trans kept
  | copy set target =>
    have other : target ≠ i := by simpa [Command.onlyAdds] using adds
    exact (sets_putSet_of_ne other).trans kept
  | thaw set target cache =>
    have other : target ≠ i := by simpa [Command.onlyAdds] using adds
    simp only [enter]
    cases ((s.frozen set).thaw (s.joiner cache)).1 with
    | error _ => exact kept
    | ok _ => exact (sets_putSet_of_ne other).trans kept
  | _ => exact kept

theorem sets_follow (program : List Command)
    (adds : ∀ command ∈ program, command.onlyAdds i = true) (listed : l.sets i = some before) :
    (l.follow s program).sets i = some (before ++ s.inserted i program) := by
  induction program generalizing l s before with
  | nil => exact listed.trans (by simp [inserted])
  | cons command program ih =>
    obtain ⟨first, others⟩ := List.forall_mem_cons.mp adds
    rw [follow, inserted, ← List.append_assoc]
    exact ih others (sets_enter first listed)

theorem follow_append (l : Ledger) (s : Session) (first second : List Command) :
    l.follow s (first ++ second) = (l.follow s first).follow (s.run first).2 second := by
  induction first generalizing l s with
  | nil => rfl
  | cons command first ih => exact ih (l.enter s command) (s.perform command).2

/-- The history of a set starts anew where the set does. -/
theorem sets_follow_reset {reset : Command} (resets : reset.resets i = true)
    (history : List Command) {rest : List Command}
    (adds : ∀ command ∈ rest, command.onlyAdds i = true) :
    (l.follow s (history ++ reset :: rest)).sets i =
      some ((s.run (history ++ [reset])).2.inserted i rest) := by
  rw [follow_append, run_snoc]
  have anew : ((l.follow s history).enter (s.run history).2 reset).sets i = some [] := by
    cases reset with
    | newSet set =>
      obtain rfl := beq_iff_eq.mp resets
      exact Function.update_self ..
    | edit set call =>
      cases call with
      | clear =>
        obtain rfl := beq_iff_eq.mp resets
        exact Function.update_self ..
      | _ => contradiction
    | _ => contradiction
  exact sets_follow rest adds anew

end Ledger

open Ledger (Tallied Records)

/-- An edit changes one set, and no frozen one. -/
theorem sets_frozen_performEdit (s : LinearSession) (i : Nat) (call : Edit) :
    (s.performEdit i call).2.sets = Function.update s.sets i ((s.performEdit i call).2.sets i) ∧
      (s.performEdit i call).2.frozen = s.frozen := by
  constructor
  · exact Function.eq_update_iff.mpr
      ⟨rfl, fun k other => sets_performEdit_of_ne s (Ne.symm other) call⟩
  · cases call <;> simp only [LinearSession.performEdit]
    all_goals
      try split
      all_goals rfl

variable {known : Set Context} {s : Session} {l : Ledger}

theorem Ledger.Records.edit (records : l.Records s.linear) (i : Nat) (call : Edit) :
    (l.enter s (.edit i call)).Records (s.linear.performEdit i call).2 := by
  obtain ⟨sets, frozen⟩ := sets_frozen_performEdit s.linear i call
  have exchanged {added : Option (List Config)} (new : ∀ cs, added = some cs →
      ((s.linear.performEdit i call).2.sets i).Tallies (cs.map Config.value)) :
      (l.putSet i added).Records (s.linear.performEdit i call).2 :=
    ⟨sets ▸ records.sets.update new i, frozen ▸ records.frozen⟩
  cases adds : call.onlyAdds with
  | true =>
    rw [Ledger.enter_edit adds]
    apply exchanged
    intro cs listed
    obtain ⟨before, old, rfl⟩ := Option.map_eq_some_iff.mp listed
    rw [List.map_append]
    exact ((records.sets i before old).insertAll _).congr (holdings_performEdit s i adds)
  | false =>
    cases call with
    | clear =>
      apply exchanged
      intro cs listed
      obtain rfl := Option.some.inj listed
      simp only [LinearSession.performEdit, sets_putSet_self]
      exact LinearSet.tallies_starting _
    | remove | walk | dropHidden => exact exchanged fun cs listed => absurd listed (by simp)
    | _ => contradiction

/-- By cases on the command. Thawing needs that no two entries could be merged, and that the flags
which were frozen are those of the entries at least. -/
theorem Ledger.Records.perform (records : l.Records s.linear) (sound : s.Sound known)
    (all : s.linear.All fun set => set.Distinct ∧ set.Notes) (command : Command) :
    (l.enter s command).Records (s.perform command).2.linear := by
  rw [(perform_realizes sound command).linear]
  cases command with
  | newSet set =>
    refine ⟨records.sets.update (fun cs listed => ?_) set, records.frozen⟩
    obtain rfl := Option.some.inj listed
    exact LinearSet.tallies_starting false
  | edit set call => exact records.edit set call
  | copy set target => exact ⟨records.sets.update (records.sets set) target, records.frozen⟩
  | freeze set target => exact ⟨records.sets, records.frozen.update (records.sets set) target⟩
  | thaw set target cache =>
    have value := (FrozenSet.thaw_linear (sound.joiner cache) (sound.frozen set)).1
    simp only [Ledger.enter, LinearSession.perform, linear_frozen, ← value]
    cases outcome : ((s.frozen set).thaw (s.joiner cache)).1 with
    | error refusal => exact records
    | ok later =>
      obtain ⟨distinct, -, guards, reach⟩ := all.frozen set
      have thawed : (s.frozen set).linear.thaw = .ok later.linear := by
        rw [← value, outcome]
        rfl
      refine ⟨records.sets.update (fun cs listed => ?_) target, records.frozen⟩
      have tallies := records.frozen set cs listed
      exact tallies.congr (LinearSet.sameHoldings_of_thaw distinct guards reach.noted
        tallies.exactAlt thawed)
  | context target recipe =>
    simp only [LinearSession.perform]
    split <;> exact ⟨records.sets, records.frozen⟩
  | _ => exact records

theorem Ledger.Records.run (records : l.Records s.linear) (sound : s.Sound known)
    (all : s.linear.All fun set => set.Distinct ∧ set.Notes) (program : List Command) :
    (l.follow s program).Records (s.run program).2.linear := by
  induction program generalizing l s known with
  | nil => exact records
  | cons command program ih =>
    have invariant := LinearSet.invariant_distinct.and LinearSet.invariant_notes
    obtain ⟨-, linear, wider, -, sound'⟩ := perform_realizes sound command
    exact ih (records.perform sound all command) sound'
      (linear ▸ all.perform invariant command)

/-- Whatever a program does: what a set says of all its configurations accounts for exactly those
that were added to it, as long as the ledger has them. It has all of them since the set was made or
emptied, unless some call takes entries out. -/
theorem aggregates_tally (rule : DigestRule) (program : List Command) (i : Nat) :
    let s := reached rule program
    let ledger := Ledger.opening.follow (starting rule) program
    (∀ added, ledger.sets i = some added → (s.sets i).Tallies added) ∧
      (∀ added, ledger.frozen i = some added → (s.frozen i).Tallies added) ∧
      ∀ history reset rest, program = history ++ reset :: rest → reset.resets i = true →
        (∀ command ∈ rest, command.onlyAdds i = true) →
        ledger.sets i = some ((reached rule (history ++ [reset])).inserted i rest) := by
  have invariant := LinearSet.invariant_distinct.and LinearSet.invariant_notes
  have records : Ledger.opening.Records (starting rule).linear := Ledger.records_opening
  obtain ⟨sets, frozen⟩ := records.run (sound_starting rule) (.starting invariant) program
  refine ⟨fun added listed => (sets i added listed).contents,
    fun added listed => (frozen i added listed).contents, ?_⟩
  rintro history reset rest rfl resets adds
  exact Ledger.sets_follow_reset resets history adds

/-- A thread is taken out and the set is emptied. After that a thread is added and the set is
copied, and the copy merges the same thread from further out into its entry. -/
def mergedFromOutside : List Command :=
  [.edit 0 (.add ⟨5, 2, 0, .always, 0, false, false, false⟩ 0), .edit 0 (.remove 0),
    .edit 0 .clear, .edit 0 (.add ⟨5, 1, 0, .always, 0, false, false, false⟩ 0), .copy 0 1,
    .edit 1 (.add ⟨5, 1, 0, .always, 3, true, false, false⟩ 0)]

theorem aggregates_tally_mergedFromOutside :
    let s := reached .sha256 mergedFromOutside
    let ledger := Ledger.opening.follow (starting .sha256) mergedFromOutside
    let thread : Config := ⟨5, 1, .outermost, .always, 0, false, false, false⟩
    ledger.sets 0 = some ((reached .sha256 (mergedFromOutside.take 3)).inserted 0
        (mergedFromOutside.drop 3)) ∧
      (s.sets 0).Tallies [thread] ∧
      (s.sets 1).Tallies [thread, { thread with depth := 3, reachesOuter := true }] := by
  obtain ⟨tallies, -, lists⟩ := aggregates_tally .sha256 mergedFromOutside 0
  obtain ⟨copied, -, -⟩ := aggregates_tally .sha256 mergedFromOutside 1
  exact ⟨lists (mergedFromOutside.take 2) (.edit 0 .clear) (mergedFromOutside.drop 3) rfl rfl
    (by decide), tallies _ rfl, copied _ rfl⟩

end Prediction.Session
