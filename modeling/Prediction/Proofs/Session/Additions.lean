import Prediction.Proofs.ConfigSet.Changes
import Prediction.Proofs.Session.Refinement

/-!
What programs add to a set. However a program adds to it, and whatever else the session does in
between, the set holds what it would hold if all that was added had been inserted at once.
-/

namespace Prediction.Session

/-- The call takes no entry away from the set. -/
def Edit.onlyAdds : Edit → Bool
  | .add .. | .addAll .. | .internContexts _ | .setOutermost _ | .setConflict _ => true
  | .remove _ | .walk _ | .dropHidden | .clear => false

/-- The command takes no entry away from the set and does not exchange the set. -/
def Command.onlyAdds (i : Nat) : Command → Bool
  | .newSet set => set != i
  | .edit set call => set != i || call.onlyAdds
  | .copy _ target => target != i
  | .thaw _ target _ => target != i
  | _ => true

def Edit.offered (s : Session) : Edit → List Config
  | .add draft _ => [draft.config s]
  | .addAll drafts _ => drafts.map (·.config s)
  | _ => []

/-- What a command adds to a set: the configurations before the first that is refused. -/
def Command.inserted (s : Session) (i : Nat) : Command → List Config
  | .edit set call =>
    if set = i then (call.offered s).takeWhile fun c => ((s.sets i).refusal? c).isNone else []
  | _ => []

/-- What a program adds to a set, in order. -/
def inserted (s : Session) (i : Nat) : List Command → List Config
  | [] => []
  | command :: program => command.inserted s i ++ (s.perform command).2.inserted i program

/-- A session, after any history, in which a set is new. -/
def opening (rule : DigestRule) (history : List Command) (i : Nat) : Session :=
  ((reached rule history).perform (.newSet i)).2

variable {known : Set Context} {s : Session} {i : Nat}

/-- The configurations that a command adds are those that it offers, up to the first that the set
refuses. -/
theorem holdings_performEdit (s : Session) (i : Nat) {call : Edit} (adds : call.onlyAdds = true) :
    ((s.linear.performEdit i call).2.sets i).SameHoldings
      ((s.linear.sets i).insertAll (((Command.edit i call).inserted s i).map Config.value)) := by
  have offered (cs : List Config) :
      (s.linear.sets i).insertAll
          ((cs.takeWhile fun c => ((s.sets i).refusal? c).isNone).map Config.value) =
        ((s.linear.sets i).addAll (cs.map Config.value)).2 := by
    rw [LinearSet.addAll_eq_insertAll, List.takeWhile_map]
    rfl
  simp only [Command.inserted, if_true, offered]
  cases call with
  | add draft cache =>
    simp only [LinearSession.performEdit, Edit.offered, List.map_cons, List.map_nil,
      LinearSet.addAll, linear_draft]
    cases (s.linear.sets i).add (draft.config s).value with
    | error refusal => exact .refl _
    | ok step =>
      rw [sets_putSet_self]
      exact .refl _
  | addAll drafts cache =>
    simp only [LinearSession.performEdit, Edit.offered, List.map_map, sets_putSet_self]
    exact .refl _
  | internContexts network => exact .refl _
  | setOutermost outermost =>
    simp only [LinearSession.performEdit]
    split
    · exact .refl _
    · rename_i later set
      rw [sets_putSet_self]
      obtain ⟨rfl, -⟩ := LinearSet.eq_of_latch set
      exact ⟨rfl, rfl, rfl, rfl⟩
  | setConflict conflict =>
    rw [LinearSession.performEdit, sets_putSet_self]
    exact ⟨rfl, rfl, rfl, rfl⟩
  | remove => contradiction
  | walk => contradiction
  | dropHidden => contradiction
  | clear => contradiction

theorem holdings_perform (sound : s.Sound known) {command : Command}
    (adds : command.onlyAdds i = true) :
    ((s.perform command).2.linear.sets i).SameHoldings
      ((s.linear.sets i).insertAll ((command.inserted s i).map Config.value)) := by
  rw [(perform_realizes sound command).linear]
  cases command with
  | edit target call =>
    by_cases here : target = i
    · subst here
      exact holdings_performEdit s target (by simpa [Command.onlyAdds] using adds)
    · rw [Command.inserted, if_neg here, LinearSession.perform, sets_performEdit_of_ne _ here]
      exact .refl _
  | newSet target =>
    have other : target ≠ i := by simpa [Command.onlyAdds] using adds
    rw [LinearSession.perform, sets_putSet_of_ne other]
    exact .refl _
  | copy set target =>
    have other : target ≠ i := by simpa [Command.onlyAdds] using adds
    rw [LinearSession.perform, sets_putSet_of_ne other]
    exact .refl _
  | thaw set target cache =>
    have other : target ≠ i := by simpa [Command.onlyAdds] using adds
    simp only [LinearSession.perform]
    split
    · exact .refl _
    · rw [sets_putSet_of_ne other]
      exact .refl _
  | context target recipe =>
    simp only [LinearSession.perform]
    split <;> exact .refl _
  | _ => exact .refl _

/-- By induction on the program. What the session looks like in between does not matter, as an
insertion depends on what the set holds alone. -/
theorem holdings_run (sound : s.Sound known) (program : List Command)
    (adds : ∀ command ∈ program, command.onlyAdds i = true) :
    ((s.run program).2.linear.sets i).SameHoldings
      ((s.linear.sets i).insertAll ((s.inserted i program).map Config.value)) := by
  induction program generalizing s known with
  | nil => exact .refl _
  | cons command program ih =>
    obtain ⟨first, others⟩ := List.forall_mem_cons.mp adds
    obtain ⟨-, -, wider, -, sound'⟩ := perform_realizes sound command
    rw [inserted, List.map_append, LinearSet.insertAll_append]
    exact (ih sound' others).trans ((holdings_perform sound first).insertAll _)

theorem known_of_command (sound : s.Sound known) (command : Command) :
    ∀ c ∈ command.inserted s i, c.context ∈ known := by
  intro c added
  cases command with
  | edit target call =>
    simp only [Command.inserted] at added
    split at added
    · have offered := (List.takeWhile_prefix _).subset added
      cases call with
      | add draft cache => exact sound.drafts [draft] c offered
      | addAll drafts cache => exact sound.drafts drafts c offered
      | _ => contradiction
    · contradiction
  | _ => contradiction

/-- The contexts of what was added are known in the end. -/
theorem known_inserted (sound : s.Sound known) (program : List Command) (i : Nat) :
    ∃ wider, known ⊆ wider ∧ Sound wider (s.run program).2 ∧
      ∀ c ∈ s.inserted i program, c.context ∈ wider := by
  induction program generalizing s known with
  | nil => exact ⟨known, subset_rfl, sound, fun c added => absurd added List.not_mem_nil⟩
  | cons command program ih =>
    obtain ⟨-, -, middle, upward, sound'⟩ := perform_realizes sound command
    obtain ⟨wider, included, sound'', contexts⟩ := ih sound'
    refine ⟨wider, upward.trans included, sound'', ?_⟩
    intro c added
    rcases List.mem_append.mp added with now | later
    · exact included (upward (known_of_command sound command c now))
    · exact contexts c later

theorem canonical_inserted (sound : s.Sound known) (program : List Command) (i : Nat) :
    ∀ c ∈ (s.inserted i program).map Config.value, c.context.Canonical := by
  obtain ⟨wider, -, sound', contexts⟩ := known_inserted sound program i
  intro value listed
  obtain ⟨c, added, rfl⟩ := List.mem_map.mp listed
  exact sound'.coherent.canonical (contexts c added)

theorem sound_opening (rule : DigestRule) (history : List Command) (i : Nat) :
    ∃ known, Sound known (opening rule history i) := by
  obtain ⟨known, sound⟩ := sound_reached rule history
  obtain ⟨-, -, wider, -, sound'⟩ := perform_realizes sound (.newSet i)
  exact ⟨wider, sound'⟩

theorem sets_opening (rule : DigestRule) (history : List Command) (i : Nat) :
    (opening rule history i).sets i = .empty :=
  Function.update_self _ _ _

end Prediction.Session
