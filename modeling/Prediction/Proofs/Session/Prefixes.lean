import Mathlib.Data.List.Induction
import Prediction.Proofs.Session.Refinement

/-!
What holds all along a program: in the session that it starts from, and after each of its commands.
A property that a command keeps under some condition holds all along, if and only if every command
meets the condition in the session that it finds.
-/

namespace Prediction.Session

variable {s : Session} {program : List Command} {motive : Session → Prop}
  {condition : Session → Command → Prop}

theorem run_append (s : Session) (first second : List Command) :
    (s.run (first ++ second)).2 = ((s.run first).2.run second).2 := by
  induction first generalizing s with
  | nil => rfl
  | cons command first ih => exact ih (s.perform command).2

theorem answers_append (s : Session) (first second : List Command) :
    (s.run (first ++ second)).1 = (s.run first).1 ++ ((s.run first).2.run second).1 := by
  induction first generalizing s with
  | nil => rfl
  | cons command first ih => exact congrArg _ (ih (s.perform command).2)

theorem run_snoc (s : Session) (front : List Command) (command : Command) :
    (s.run (front ++ [command])).2 = ((s.run front).2.perform command).2 :=
  run_append s front [command]

/-- Each command meets the condition in the session that it finds. -/
def Meets (condition : Session → Command → Prop) (s : Session) : List Command → Prop
  | [] => True
  | command :: program => condition s command ∧ (s.perform command).2.Meets condition program

theorem meets_iff : s.Meets condition program ↔
    ∀ front command, front ++ [command] <+: program → condition (s.run front).2 command := by
  induction program generalizing s with
  | nil =>
    refine ⟨fun _ front command isFront => ?_, fun _ => trivial⟩
    simp at isFront
  | cons first program ih =>
    rw [Meets, ih]
    constructor
    · rintro ⟨now, later⟩ front command isFront
      rcases List.prefix_cons_iff.mp isFront with nothing | ⟨rest, split, isFront'⟩
      · simp at nothing
      · cases front with
        | nil =>
          obtain ⟨rfl, -⟩ := List.cons.inj split
          exact now
        | cons first' front =>
          obtain ⟨rfl, rfl⟩ := List.cons.inj split
          exact later front command isFront'
    · intro always
      refine ⟨always [] first (List.prefix_append [first] program), ?_⟩
      intro front command isFront
      exact always (first :: front) command (List.cons_prefix_cons.mpr ⟨rfl, isFront⟩)

/-- By induction on the front of the program, one command more at a time. -/
theorem always_iff_meets (start : motive s)
    (step : ∀ front command, front ++ [command] <+: program → motive (s.run front).2 →
      (motive ((s.run front).2.perform command).2 ↔ condition (s.run front).2 command)) :
    (∀ front, front <+: program → motive (s.run front).2) ↔ s.Meets condition program := by
  rw [meets_iff]
  constructor
  · intro always front command isFront
    have before := always front ((List.prefix_append front [command]).trans isFront)
    have after := always (front ++ [command]) isFront
    rw [run_snoc] at after
    exact (step front command isFront before).mp after
  · intro meets front
    induction front using List.reverseRecOn with
    | nil => exact fun _ => start
    | append_singleton front command ih =>
      intro isFront
      have before := ih ((List.prefix_append front [command]).trans isFront)
      rw [run_snoc]
      exact (step front command isFront before).mpr (meets front command isFront)

end Prediction.Session
