import Prediction.Proofs.ConfigSet.Changes
import Prediction.Proofs.Session.Refinement

/-!
Where the sets of a session come from. After a command each set is what changes made of it, or it
was latched, or another set took its place. With that, an invariant of sets holds of all sets that a
program can lead to, and of those that it passes through within a command.
-/

namespace Prediction

open Session (Command Edit)
open LinearSet (Change Changes Invariant)

namespace ConfigSet

variable {known : Set Context} {s : ConfigSet} {cs : List Config} {j : Joiner}

/-- The sets that adding configurations passes through, one after each insertion. -/
def insertions (s : ConfigSet) : List Config → Joiner → List ConfigSet
  | [], _ => []
  | c :: cs, j =>
    match s.add c j with
    | .error _ => []
    | .ok step => step.set :: step.set.insertions cs step.joiner

theorem changes_insertions (indexed : s.Indexed) (sound : j.Sound known) (within : s.Known known)
    (contexts : ∀ c ∈ cs, c.context ∈ known) :
    ∀ later ∈ s.insertions cs j, Changes s.linear later.linear := by
  induction cs generalizing s j known with
  | nil => exact fun later passed => absurd passed List.not_mem_nil
  | cons c cs ih =>
    obtain ⟨first, others⟩ := List.forall_mem_cons.mp contexts
    simp only [insertions]
    rcases add_realizes indexed sound within first with
      ⟨refusal, refused, -⟩ | ⟨step, result, added, added', indexed', realizes⟩
    · rw [refused]
      exact fun later passed => absurd passed List.not_mem_nil
    · obtain ⟨-, set, wider, upward, sound', within'⟩ := realizes
      have change : Change s.linear step.set.linear := set ▸ LinearSet.change_add added'
      rw [added]
      refine List.forall_mem_cons.mpr ⟨.single change, ?_⟩
      intro later passed
      have rest := ih indexed' sound' within' (fun c' present => upward (others c' present))
      exact .head change (rest later passed)

end ConfigSet

namespace LinearSession

/-- How a command leads to the set of a number. -/
inductive Origin (s : LinearSession) (i : Nat) : Command → LinearSet → Prop
  | changed {command : Command} {later : LinearSet} :
      Changes (s.sets i) later → Origin s i command later
  | latched {outermost : Bool} {later : LinearSet} :
      (s.sets i).setOutermost outermost = .ok later →
      Origin s i (.edit i (.setOutermost outermost)) later
  | new : Origin s i (.newSet i) .empty
  | copied (set : Nat) : Origin s i (.copy set i) (s.sets set)
  | thawed {set cache : Nat} {later : LinearSet} :
      (s.frozen set).thaw = .ok later → Origin s i (.thaw set i cache) later

variable {s : LinearSession} {i : Nat}

theorem origin_same (s : LinearSession) (i : Nat) (command : Command) :
    Origin s i command (s.sets i) :=
  .changed .refl

/-- A walk takes entries out, if it does anything to the set. -/
theorem walk_induction {motive : LinearSet → Prop} {k : LinearSet.Cursor}
    (remove : ∀ s index, motive s → motive { s with entries := s.entries.eraseIdx index })
    (before : motive k.set) (moves : List ConfigSet.Cursor.Move) :
    motive (k.walk moves).2.set := by
  induction moves generalizing k with
  | nil => exact before
  | cons m ms ih =>
    apply ih
    cases m with
    | advance =>
      simp only [LinearSet.Cursor.move, LinearSet.Cursor.advance]
      split <;> exact before
    | remove =>
      simp only [LinearSet.Cursor.move]
      split
      · exact before
      · rename_i removed
        obtain ⟨index, set⟩ := LinearSet.eq_of_cursor removed
        exact set ▸ remove k.set index before

theorem changes_walk (k : LinearSet.Cursor) (moves : List ConfigSet.Cursor.Move) :
    Changes k.set (k.walk moves).2.set :=
  walk_induction (fun s index changes => .tail changes (.remove s index)) .refl moves

theorem origin_performEdit (s : LinearSession) (i : Nat) (edit : Edit) :
    Origin s i (.edit i edit) ((s.performEdit i edit).2.sets i) := by
  have stored {later : LinearSet} (origin : Origin s i (.edit i edit) later) :
      Origin s i (.edit i edit) ((s.putSet i later).sets i) :=
    (Session.sets_putSet_self s i later).symm ▸ origin
  cases edit with
  | add draft cache =>
    simp only [performEdit]
    split
    · exact origin_same s i _
    · rename_i added
      exact stored (.changed (.single (LinearSet.change_add added)))
  | addAll drafts cache => exact stored (.changed (LinearSet.changes_addAll _ _))
  | remove index =>
    simp only [performEdit]
    split
    · exact origin_same s i _
    · rename_i removed
      exact stored (.changed (.single (LinearSet.change_of_remove removed)))
  | walk moves => exact stored (.changed (changes_walk (s.sets i).cursor moves))
  | dropHidden => exact stored (.changed (.single (.dropHidden _)))
  | internContexts network => exact origin_same s i _
  | clear => exact stored (.changed (.single (.clear _)))
  | setOutermost outermost =>
    simp only [performEdit]
    split
    · exact origin_same s i _
    · rename_i latched
      exact stored (.latched latched)
  | setConflict conflict => exact stored (.changed (.single (.setConflict _ conflict)))

theorem origin_perform (s : LinearSession) (command : Command) (i : Nat) :
    Origin s i command ((s.perform command).2.sets i) := by
  cases command with
  | context target recipe =>
    simp only [perform]
    split <;> exact origin_same s i _
  | newSet target =>
    by_cases here : target = i
    · subst here
      exact (Session.sets_putSet_self s target .empty).symm ▸ .new
    · exact (Session.sets_putSet_of_ne here .empty).symm ▸ origin_same s i _
  | edit target edit =>
    by_cases here : target = i
    · subst here
      exact origin_performEdit s target edit
    · exact (Session.sets_performEdit_of_ne s here edit).symm ▸ origin_same s i _
  | copy set target =>
    by_cases here : target = i
    · subst here
      exact (Session.sets_putSet_self s target (s.sets set)).symm ▸ .copied set
    · exact (Session.sets_putSet_of_ne here (s.sets set)).symm ▸ origin_same s i _
  | thaw set target cache =>
    simp only [perform]
    split
    · exact origin_same s i _
    · rename_i later thawed
      by_cases here : target = i
      · subst here
        exact (Session.sets_putSet_self s target later).symm ▸ .thawed thawed
      · exact (Session.sets_putSet_of_ne here later).symm ▸ origin_same s i _
  | _ => exact origin_same s i _

/-- What is true of new sets and of thawed ones is true of all sets after a command, if it was
before and an edit leaves it true of the set that it edits. -/
theorem sets_perform {motive : LinearSet → Prop} {command : Command}
    (before : ∀ i, motive (s.sets i)) (new : motive .empty)
    (thawed : ∀ i later, (s.frozen i).thaw = .ok later → motive later)
    (edited : ∀ target call, command = .edit target call →
      motive ((s.performEdit target call).2.sets target)) (i : Nat) :
    motive ((s.perform command).2.sets i) := by
  have stored (target : Nat) {set : LinearSet} (holds : motive set) :
      motive ((s.putSet target set).sets i) :=
    (Function.forall_update_iff s.sets fun _ set => motive set).mpr
      ⟨holds, fun i _ => before i⟩ i
  cases command with
  | edit target call =>
    by_cases here : target = i
    · exact here ▸ edited target call rfl
    · exact (Session.sets_performEdit_of_ne s here call).symm ▸ before i
  | newSet target => exact stored target new
  | copy set target => exact stored target (before set)
  | thaw set target cache =>
    simp only [perform]
    split
    · exact before i
    · rename_i later outcome
      exact stored target (thawed set later outcome)
  | context target recipe =>
    simp only [perform]
    split <;> exact before i
  | _ => exact before i

/-- A frozen set is what it was, or what a writable set was when it was frozen. -/
theorem frozen_perform (s : LinearSession) (command : Command) (i : Nat) :
    (s.perform command).2.frozen i = s.frozen i ∨
      ∃ set, (s.perform command).2.frozen i = s.sets set := by
  cases command with
  | freeze set target =>
    by_cases here : i = target
    · subst here
      exact .inr ⟨set, Function.update_self _ _ _⟩
    · exact .inl (Function.update_of_ne here _ _)
  | edit target edit =>
    left
    cases edit <;> simp only [perform, performEdit]
    all_goals
      try split
      all_goals rfl
  | context target recipe =>
    simp only [perform]
    split <;> exact .inl rfl
  | thaw set target cache =>
    simp only [perform]
    split <;> exact .inl rfl
  | _ => exact .inl rfl

/-- All sets of a session, writable and frozen ones. -/
structure All (motive : LinearSet → Prop) (s : LinearSession) : Prop where
  sets : ∀ i, motive (s.sets i)
  frozen : ∀ i, motive (s.frozen i)

variable {motive : LinearSet → Prop}

theorem All.starting (invariant : Invariant motive) : All motive starting :=
  ⟨fun _ => invariant.empty, fun _ => invariant.empty⟩

theorem All.perform (all : s.All motive) (invariant : Invariant motive) (command : Command) :
    (s.perform command).2.All motive := by
  constructor
  · intro i
    have origin := origin_perform s command i
    generalize (s.perform command).2.sets i = later at origin ⊢
    cases origin with
    | changed changes => exact invariant.changes (all.sets i) changes
    | latched set => exact invariant.latch (all.sets i) set
    | new => exact invariant.empty
    | copied set => exact all.sets set
    | thawed thawed =>
      exact invariant.changes (invariant.starting (all.frozen _)) (LinearSet.changes_thaw thawed)
  · intro i
    rcases frozen_perform s command i with same | ⟨set, now⟩
    · exact same ▸ all.frozen i
    · exact now ▸ all.sets set

theorem All.run (all : s.All motive) (invariant : Invariant motive) (program : List Command) :
    (s.run program).2.All motive := by
  induction program generalizing s with
  | nil => exact all
  | cons command program ih => exact ih (all.perform invariant command)

end LinearSession

namespace Session

variable {motive : LinearSet → Prop} {known : Set Context} {s : Session}

theorem linear_reached (rule : DigestRule) (program : List Command) :
    (reached rule program).linear = (LinearSession.starting.run program).2 :=
  (run_realizes (sound_starting rule) program).2.1

/-- An invariant of sets holds of all sets that a program can lead to. -/
theorem all_reached (invariant : Invariant motive) (rule : DigestRule) (program : List Command) :
    (reached rule program).linear.All motive := by
  rw [linear_reached]
  exact (LinearSession.All.starting invariant).run invariant program

/-- The sets that a command passes through while it adds configurations. -/
def Command.insertions (s : Session) : Command → List ConfigSet
  | .edit i (.add draft cache) => (s.sets i).insertions [draft.config s] (s.joiner cache)
  | .edit i (.addAll drafts cache) =>
    (s.sets i).insertions (drafts.map (·.config s)) (s.joiner cache)
  | .thaw set _ cache =>
    let frozen := s.frozen set
    (ConfigSet.starting frozen.outermost frozen.guarded frozen.dips).insertions frozen.configs
      (s.joiner cache)
  | _ => []

/-- An invariant of sets holds of those as well. -/
theorem holds_insertions (invariant : Invariant motive) (sound : s.Sound known)
    (all : s.linear.All motive) (command : Command) :
    ∀ later ∈ command.insertions s, motive later.linear := by
  intro later passed
  cases command with
  | edit i edit =>
    have added {cs : List Config} {cache : Nat} (contexts : ∀ c ∈ cs, c.context ∈ known)
        (passed : later ∈ (s.sets i).insertions cs (s.joiner cache)) : motive later.linear :=
      invariant.changes (all.sets i) (ConfigSet.changes_insertions (sound.indexed i)
        (sound.joiner cache) (sound.sets i) contexts later passed)
    cases edit with
    | add draft cache => exact added (sound.drafts [draft]) passed
    | addAll drafts cache => exact added (sound.drafts drafts) passed
    | _ => contradiction
  | thaw set target cache =>
    have start := invariant.starting (all.frozen set)
    exact invariant.changes start (ConfigSet.changes_insertions (ConfigSet.indexed_starting _ _ _)
      (sound.joiner cache) (fun c present => absurd present List.not_mem_nil) (sound.frozen set)
      later passed)
  | _ => contradiction

end Session

end Prediction
