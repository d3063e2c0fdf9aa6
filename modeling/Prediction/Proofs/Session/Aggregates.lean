import Prediction.Proofs.ConfigSet.Aggregates
import Prediction.Proofs.Session.Additions
import Prediction.Proofs.Session.Prefixes
import Prediction.Proofs.Session.Thawing

/-!
What a set says of all its entries together. In every session that a program leads to it leaves no
entry out. The unique alternative is exact all along a program, if and only if no call that takes
entries out changes which alternative the entries have in common, as such a call does not look into
it again.
-/

namespace Prediction

open Session (Edit Command)

/-- What is said of all entries holds of each of them, and what one of them has is known. -/
structure ConfigContents.Accounts (s : ConfigContents) : Prop where
  uniqueAlt : ∀ alt, s.uniqueAlt = some alt → ∀ c ∈ s.configs, c.alt = alt
  guarded : ∀ c ∈ s.configs, c.guard ≠ .always → s.guarded = true
  dips : ∀ c ∈ s.configs, c.reachesOuter = true → s.dips = true

namespace LinearSet

/-- The three of them together, as they are kept together. -/
def Notes (s : LinearSet) : Prop := s.NotesAlts ∧ s.NotesGuards ∧ s.NotesReach

theorem invariant_notes : Invariant Notes :=
  invariant_notesAlts.and (invariant_notesGuards.and invariant_notesReach)

theorem Notes.accounts {s : ConfigContents} (notes : s.linear.Notes) : s.Accounts := by
  obtain ⟨alts, guards, reach⟩ := notes
  constructor
  · intro alt unique c present
    exact alts alt unique c.value (List.mem_map_of_mem present)
  · intro c present guarded
    have isGuarded : c.guard.isAlways = false :=
      Bool.eq_false_iff.mpr (mt Guard.isAlways_iff.mp guarded)
    exact guards c.value (List.mem_map_of_mem present) isGuarded
  · intro c present reaches
    exact reach.noted c.value (List.mem_map_of_mem present) reaches

end LinearSet

namespace Session

variable {known : Set Context} {s : Session} {i : Nat}

/-- In every session that a program leads to, and within its next command, what a set says accounts
for all of its entries; so does a frozen set. -/
theorem aggregates_account (rule : DigestRule) (program : List Command) :
    let s := reached rule program
    (∀ i, (s.sets i).Accounts ∧ (s.frozen i).Accounts) ∧
      ∀ command : Command, ∀ passed ∈ command.insertions s, passed.Accounts := by
  obtain ⟨known, sound⟩ := sound_reached rule program
  have all := all_reached LinearSet.invariant_notes rule program
  constructor
  · intro i
    exact ⟨(all.sets i).accounts, (all.frozen i).accounts⟩
  · intro command later passed
    exact (holds_insertions LinearSet.invariant_notes sound all command later passed).accounts

/-- The call takes entries out of the set and leaves the others as they are. -/
def Edit.takesOut : Edit → Bool
  | .remove _ | .walk _ | .dropHidden => true
  | _ => false

/-- If the command takes entries out of a set, those that remain share an alternative exactly if all
of them did before. -/
def Command.KeepsSharedAlt (s : Session) : Command → Prop
  | .edit i call => call.takesOut = true → ∀ alt,
    ((s.performEdit i call).2.sets i).SharesAlt alt ↔ (s.sets i).SharesAlt alt
  | _ => True

/-- A call that takes entries out does not look into what the others have in common. -/
theorem uniqueAlt_performEdit (sound : s.Sound known) (i : Nat) {call : Edit}
    (takes : call.takesOut = true) :
    ((s.performEdit i call).2.sets i).uniqueAlt = (s.sets i).uniqueAlt := by
  have linear : ((s.linear.performEdit i call).2.sets i).uniqueAlt =
      (s.linear.sets i).uniqueAlt := by
    cases call with
    | remove index =>
      simp only [LinearSession.performEdit]
      split
      · rfl
      · rename_i removed
        rw [sets_putSet_self, LinearSet.eq_of_remove removed]
    | walk moves =>
      simp only [LinearSession.performEdit, sets_putSet_self]
      exact LinearSession.walk_induction
        (motive := fun set => set.uniqueAlt = (s.linear.sets i).uniqueAlt)
        (fun _ _ same => same) rfl moves
    | dropHidden =>
      simp only [LinearSession.performEdit, sets_putSet_self]
      rfl
    | _ => contradiction
  rw [← (performEdit_realizes sound i call).linear] at linear
  exact linear

/-- Every other call finds the unique alternative out or leaves it exact. -/
theorem exactAlt_performEdit (s : Session) (i : Nat) {call : Edit} (stays : call.takesOut = false)
    (exact : (s.linear.sets i).ExactAlt) : ((s.linear.performEdit i call).2.sets i).ExactAlt := by
  cases adds : call.onlyAdds with
  | true => exact (exact.insertAll _).congr (holdings_performEdit s i adds)
  | false =>
    cases call with
    | clear =>
      simp only [LinearSession.performEdit, sets_putSet_self]
      exact LinearSet.exactAlt_starting _ false false
    | _ => contradiction

theorem exactAlt_performEdit_iff (sound : s.Sound known) (exact : (s.sets i).ExactAlt)
    (call : Edit) : ((s.performEdit i call).2.sets i).ExactAlt ↔
      Command.KeepsSharedAlt s (.edit i call) := by
  cases takes : call.takesOut with
  | true =>
    have unique := uniqueAlt_performEdit sound i takes
    constructor
    · intro after _ alt
      rw [← exact alt, ← unique]
      exact (after alt).symm
    · intro keeps alt
      rw [unique, exact alt]
      exact (keeps takes alt).symm
  | false =>
    refine ⟨fun _ takes' => absurd takes' (by simp [takes]), fun _ => ?_⟩
    have after := exactAlt_performEdit s i takes (LinearSet.exactAlt_linear.mpr exact)
    rw [← (performEdit_realizes sound i call).linear] at after
    exact LinearSet.exactAlt_linear.mp after

/-- With the unique alternatives exact before a command, they are so afterwards exactly if it keeps
what the entries of its set share. -/
theorem exactAlt_perform_iff (sound : s.Sound known) (exact : ∀ i, (s.sets i).ExactAlt)
    (command : Command) :
    (∀ i, ((s.perform command).2.sets i).ExactAlt) ↔ command.KeepsSharedAlt s := by
  constructor
  · intro after
    cases command with
    | edit target call =>
      exact (exactAlt_performEdit_iff sound (exact target) call).mp (after target)
    | _ => trivial
  · intro keeps i
    rw [← LinearSet.exactAlt_linear, ← linear_sets, (perform_realizes sound command).linear]
    apply LinearSession.sets_perform
    · exact fun i => LinearSet.exactAlt_linear.mpr (exact i)
    · exact LinearSet.exactAlt_starting false false false
    · exact fun _ _ thawed => LinearSet.exactAlt_of_thaw thawed
    · rintro target call rfl
      rw [← (performEdit_realizes sound target call).linear]
      exact LinearSet.exactAlt_linear.mpr
        ((exactAlt_performEdit_iff sound (exact target) call).mpr keeps)

/-- All along a program the unique alternative of every set is the one that its entries share, if
and only if no call that takes entries out changes what the entries share. -/
theorem exactAlt_iff_keepsSharedAlt (rule : DigestRule) (program : List Command) :
    (∀ front, front <+: program → ∀ i, ((reached rule front).sets i).ExactAlt) ↔
      (starting rule).Meets Command.KeepsSharedAlt program := by
  refine always_iff_meets (motive := fun s => ∀ i, (s.sets i).ExactAlt) ?_ ?_
  · intro i
    exact LinearSet.exactAlt_linear.mp (LinearSet.exactAlt_starting false false false)
  · intro front command _ exact
    obtain ⟨known, sound⟩ := sound_reached rule front
    exact exactAlt_perform_iff sound exact command

/-- Two alternatives, and then the thread for the second one is taken out. -/
def oneLeft : List Command :=
  [.edit 0 (.add ⟨1, 1, 0, .always, 0, false, false, false⟩ 0),
    .edit 0 (.add ⟨2, 2, 0, .always, 0, false, false, false⟩ 0), .edit 0 (.remove 1)]

/-- The other thread is all that is left, and its alternative is not known to be the only one. -/
theorem not_exactAlt_oneLeft : ¬ ((reached .sha256 oneLeft).sets 0).ExactAlt := by
  intro exact
  have shared : ((reached .sha256 oneLeft).sets 0).SharesAlt 1 :=
    ⟨List.cons_ne_nil _ _, List.forall_mem_singleton.mpr rfl⟩
  have unique := (exact 1).mpr shared
  contradiction

end Session

end Prediction
