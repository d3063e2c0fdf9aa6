import Prediction.Proofs.ConfigSet.Refusals
import Prediction.Proofs.Session.Origins
import Prediction.Proofs.Session.Prefixes

/-!
Steps that fail. A step that fails leaves the session as it found it, caches and cursors included.
Only additions of many configurations and walks can fail halfway, and then what they did is what
their steps before and after the failed ones do. So a program does the same without the steps that
fail, and gets the same answers to all others.
-/

namespace Prediction

namespace ConfigSet.Cursor

/-- The moves of a walk that do not fail, with what they yield. -/
def successes (k : Cursor) : List Move → List (Move × Option Config)
  | [] => []
  | m :: ms =>
    match (k.move m).1 with
    | .error _ => (k.move m).2.successes ms
    | .ok yielded => (m, yielded) :: (k.move m).2.successes ms

variable {k : Cursor} {refusal : ConfigSet.Error}

theorem eq_of_refused {m : Move} (refused : (k.move m).1 = .error refusal) :
    (k.move m).2 = k := by
  cases m with
  | advance => contradiction
  | remove =>
    cases outcome : k.remove with
    | error _ => simp only [move, outcome]
    | ok taken => simp [move, outcome] at refused

/-- By induction on the moves. After a failed one the walk goes on from the same cursor. -/
theorem walk_successes (k : Cursor) (moves : List Move) :
    k.walk ((k.successes moves).map (·.1)) =
      ((k.successes moves).map fun step => .ok step.2, (k.walk moves).2) := by
  induction moves generalizing k with
  | nil => rfl
  | cons m ms ih =>
    have rest := ih (k.move m).2
    rw [successes, walk]
    cases outcome : (k.move m).1 with
    | error refusal =>
      rw [eq_of_refused outcome] at rest ⊢
      exact rest
    | ok yielded =>
      rw [List.map_cons, walk, outcome, rest]
      rfl

end ConfigSet.Cursor

namespace Session

def Answer.failed : Answer → Bool
  | .refused _ => true
  | .built accepted => !accepted
  | .walked steps => steps.any fun step => !step.isOk
  | .done | .changed _ | .removed _ | .covered _ => false

/-- The command can fail as a whole only. -/
def Command.isOneStep : Command → Bool
  | .edit _ (.addAll ..) | .edit _ (.walk _) => false
  | _ => true

/-- The configurations that would be added before the first refused one. -/
def admitted (s : Session) (i : Nat) (drafts : List Draft) : List Draft :=
  drafts.takeWhile fun d => ((s.sets i).refusal? (d.config s)).isNone

/-- What is left of a command without the steps that fail, with the answer to it. -/
def Command.successes (s : Session) (command : Command) : List (Command × Answer) :=
  if (s.perform command).1.failed then
    match command with
    | .edit i (.addAll drafts cache) =>
      let additions := Command.edit i (.addAll (s.admitted i drafts) cache)
      [(additions, (s.perform additions).1)]
    | .edit i (.walk moves) =>
      let steps := (s.sets i).cursor.successes moves
      [(.edit i (.walk (steps.map (·.1))),
        .walked (steps.map fun step => .ok (step.2.map Config.value)))]
    | _ => []
  else [(command, (s.perform command).1)]

def successes (s : Session) : List Command → List (Command × Answer)
  | [] => []
  | command :: program => command.successes s ++ (s.perform command).2.successes program

variable {s : Session} {i cache : Nat} {drafts : List Draft} {refusal : ConfigSet.Error}

/-- Putting back what was never changed. -/
theorem rejoin_joiner (s : Session) (cache : Nat) : s.rejoin cache (s.joiner cache) = s := by
  simp only [rejoin, joiner, Function.update_eq_self]

theorem putSet_sets (s : Session) (i : Nat) : s.putSet i (s.sets i) = s := by
  simp only [putSet, Function.update_eq_self]

theorem perform_of_failed (distinct : ∀ i, (s.frozen i).linear.Distinct) {command : Command}
    (oneStep : command.isOneStep = true) (failed : (s.perform command).1.failed = true) :
    (s.perform command).2 = s := by
  cases command with
  | context target recipe =>
    cases outcome : s.obtain? recipe with
    | none => simp only [perform, outcome]
    | some obtained => simp [perform, outcome, Answer.failed] at failed
  | edit i edit =>
    cases edit with
    | add draft cache =>
      cases outcome : (s.sets i).add (draft.config s) (s.joiner cache) with
      | error refusal => simp only [perform, performEdit, outcome]
      | ok step => simp [perform, performEdit, outcome, Answer.failed] at failed
    | remove index =>
      cases outcome : (s.sets i).remove index with
      | error refusal => simp only [perform, performEdit, outcome]
      | ok taken => simp [perform, performEdit, outcome, Answer.failed] at failed
    | setOutermost outermost =>
      cases outcome : (s.sets i).setOutermost outermost with
      | error refusal => simp only [perform, performEdit, outcome]
      | ok later => simp [perform, performEdit, outcome, Answer.failed] at failed
    | addAll => contradiction
    | walk => contradiction
    | _ => contradiction
  | thaw set target cache =>
    have untouched := FrozenSet.joiner_of_thaw (distinct set) (s.joiner cache)
    cases outcome : ((s.frozen set).thaw (s.joiner cache)).1 with
    | error refusal => simp only [perform, outcome, untouched, rejoin_joiner]
    | ok later => simp [perform, outcome, Answer.failed] at failed
  | _ => contradiction

/-- Configurations that are not refused are added, all at once and one by one. -/
theorem run_additions (accepted : ∀ d ∈ drafts, (s.sets i).refusal? (d.config s) = none)
    (cache : Nat) :
    let additions := s.run (drafts.map fun d => .edit i (.add d cache))
    additions.2 = (s.performEdit i (.addAll drafts cache)).2 ∧
      ∀ answer ∈ additions.1, answer.failed = false := by
  induction drafts generalizing s with
  | nil =>
    have same : (s.performEdit i (.addAll [] cache)).2 = s := by
      simp only [performEdit, List.map_nil, ConfigSet.addAll, putSet_sets, rejoin_joiner]
    exact ⟨same.symm, fun answer given => absurd given List.not_mem_nil⟩
  | cons d drafts ih =>
    obtain ⟨first, others⟩ := List.forall_mem_cons.mp accepted
    let step := (s.sets i).insert (d.config s) (s.joiner cache)
    let later := (s.putSet i step.set).rejoin cache step.joiner
    have added : s.perform (.edit i (.add d cache)) = (.changed step.changed, later) := by
      simp only [perform, performEdit, ConfigSet.add, first]
      rfl
    have set : later.sets i = step.set := Function.update_self _ _ _
    have joiner : later.joiner cache = step.joiner :=
      congrArg (Joiner.mk _) (Function.update_self _ _ _)
    obtain ⟨state, answers⟩ :=
      ih (s := later) (by rw [set, ConfigSet.refusal?_insert]; exact others)
    have all := ConfigSet.addAll_cons_of_accepted first (drafts.map (·.config s)) (s.joiner cache)
    rw [List.map_cons, run, added]
    refine ⟨state.trans ?_, List.forall_mem_cons.mpr ⟨rfl, answers⟩⟩
    simp only [performEdit, List.map_cons, all, set, joiner]
    simp only [putSet, rejoin, later, Function.update_idem]
    rfl

/-- What a set refuses, and why. -/
structure Refuses (s : Session) (i : Nat) : Prop where
  add : ∀ draft cache refusal, (s.performEdit i (.add draft cache)).1 = .refused refusal ↔
    (s.sets i).outermost = true ∧
      (draft.hidden = true ∧ refusal = .hiddenInOutermost (draft.config s).key ∨
        draft.hidden = false ∧ draft.reachesOuter = true ∧
          refusal = .outerContextInOutermost (draft.config s).key)
  remove : ∀ index refusal, (s.performEdit i (.remove index)).1 = .refused refusal ↔
    (s.sets i).size ≤ index ∧ refusal = .indexOutOfBounds index (s.sets i).size
  unlatch : ∀ refusal, (s.performEdit i (.setOutermost false)).1 = .refused refusal ↔
    (s.sets i).outermost = true ∧ refusal = .outermostLatch
  latch : ∀ refusal, (s.performEdit i (.setOutermost true)).1 = .refused refusal ↔
    (s.sets i).dips = true ∧ refusal = .dipsIntoOuterContext

/-- Additions that fail do what adding one by one does: all before the refused configuration are
added. -/
structure EndsBefore (s : Session) (i cache : Nat) (front : List Draft) (d : Draft)
    (refusal : ConfigSet.Error) (additions : Session) : Prop where
  added : ∀ answer ∈ (s.run (front.map fun d => .edit i (.add d cache))).1, answer.failed = false
  state : additions = (s.run (front.map fun d => .edit i (.add d cache))).2
  refused : (additions.performEdit i (.add d cache)).1 = .refused refusal

/-- What fails leaves everything as it was, apart from additions and walks that fail halfway. A walk
goes on from the same cursor. -/
structure Atomic (s : Session) : Prop where
  command : ∀ command, command.isOneStep = true → (s.perform command).1.failed = true →
    (s.perform command).2 = s
  move : ∀ (k : ConfigSet.Cursor) m refusal, (k.move m).1 = .error refusal → (k.move m).2 = k
  addAll : ∀ i drafts cache refusal,
    (s.performEdit i (.addAll drafts cache)).1 = .refused refusal →
      ∃ front d back, drafts = front ++ d :: back ∧
        s.EndsBefore i cache front d refusal (s.performEdit i (.addAll drafts cache)).2

/-- Without the steps that fail, a program gets the same answers to all others and leads to the same
session. -/
structure Repeats (s : Session) (program : List Command) : Prop where
  run : s.run ((s.successes program).map (·.1)) =
    ((s.successes program).map (·.2), (s.run program).2)
  succeeds : ∀ step ∈ s.successes program, step.2.failed = false

theorem refuses (s : Session) (i : Nat) : s.Refuses i where
  add draft cache refusal := by
    refine Iff.trans ?_ (ConfigSet.refusal?_eq_some_iff (s := s.sets i) (c := draft.config s))
    rw [← ConfigSet.add_eq_error_iff (j := s.joiner cache)]
    simp only [performEdit]
    cases (s.sets i).add (draft.config s) (s.joiner cache) <;> simp
  remove index refusal := by
    rw [← ConfigSet.remove_eq_error_iff]
    simp only [performEdit]
    cases (s.sets i).remove index <;> simp
  unlatch refusal := by
    simp only [performEdit, ConfigSet.setOutermost]
    cases (s.sets i).outermost <;> simp [eq_comm]
  latch refusal := by
    simp only [performEdit, ConfigSet.setOutermost]
    cases (s.sets i).dips <;> simp [eq_comm]

theorem refusal?_performEdit_addAll (s : Session) (i : Nat) (drafts : List Draft) (cache : Nat) :
    ((s.performEdit i (.addAll drafts cache)).2.sets i).refusal? = (s.sets i).refusal? := by
  have set : (s.performEdit i (.addAll drafts cache)).2.sets i =
      ((s.sets i).addAll (drafts.map (·.config s)) (s.joiner cache)).2.1 :=
    Function.update_self _ _ _
  rw [set, ConfigSet.refusal?_addAll]

theorem additions_refused_iff : (s.performEdit i (.addAll drafts cache)).1 = .refused refusal ↔
    drafts.findSome? (fun d => (s.sets i).refusal? (d.config s)) = some refusal := by
  have reason : ((s.sets i).addAll (drafts.map (·.config s)) (s.joiner cache)).1 =
      .error refusal ↔ (drafts.map (·.config s)).findSome? (s.sets i).refusal? = some refusal :=
    ConfigSet.addAll_eq_error_iff
  rw [List.findSome?_map] at reason
  refine Iff.trans ?_ reason
  simp only [performEdit]
  cases ((s.sets i).addAll (drafts.map (·.config s)) (s.joiner cache)).1 <;>
    simp [Answer.ofExcept]

/-- Additions fail by being refused. -/
theorem additions_failed_iff : (s.performEdit i (.addAll drafts cache)).1.failed = true ↔
    ∃ refusal, (s.performEdit i (.addAll drafts cache)).1 = .refused refusal := by
  simp only [performEdit]
  cases ((s.sets i).addAll (drafts.map (·.config s)) (s.joiner cache)).1 <;>
    simp [Answer.ofExcept, Answer.failed]

/-- What comes after a refused configuration makes no difference. -/
theorem performEdit_of_refused {front back : List Draft} {d : Draft}
    (accepted : ∀ d ∈ front, (s.sets i).refusal? (d.config s) = none)
    (refused : (s.sets i).refusal? (d.config s) = some refusal) :
    (s.performEdit i (.addAll (front ++ d :: back) cache)).2 =
      (s.performEdit i (.addAll front cache)).2 := by
  have ends := ConfigSet.addAll_of_refused (List.forall_mem_map.mpr accepted) refused
    (back.map (·.config s)) (s.joiner cache)
  simp only [performEdit, List.map_append, List.map_cons, ends]

theorem endsBefore (refused : (s.performEdit i (.addAll drafts cache)).1 = .refused refusal) :
    ∃ front d back, drafts = front ++ d :: back ∧
      s.EndsBefore i cache front d refusal (s.performEdit i (.addAll drafts cache)).2 := by
  have isFirst := additions_refused_iff.mp refused
  obtain ⟨front, d, back, rfl, isRefused, accepted⟩ := List.findSome?_eq_some_iff.mp isFirst
  obtain ⟨state, added⟩ := run_additions accepted cache
  refine ⟨front, d, back, rfl, added, ?_, ?_⟩
  · exact (performEdit_of_refused accepted isRefused).trans state.symm
  · have still := isRefused
    rw [← refusal?_performEdit_addAll s i (front ++ d :: back) cache] at still
    exact ((refuses _ i).add d cache refusal).mpr (ConfigSet.refusal?_eq_some_iff.mp still)

/-- Without the refused configuration and those after it, additions do the same and do not fail. -/
theorem performEdit_admitted (failed : (s.performEdit i (.addAll drafts cache)).1.failed = true) :
    (s.performEdit i (.addAll (s.admitted i drafts) cache)).2 =
        (s.performEdit i (.addAll drafts cache)).2 ∧
      (s.performEdit i (.addAll (s.admitted i drafts) cache)).1.failed = false := by
  obtain ⟨refusal, isRefused⟩ := additions_failed_iff.mp failed
  obtain ⟨front, d, back, rfl, refused, accepted⟩ :=
    List.findSome?_eq_some_iff.mp (additions_refused_iff.mp isRefused)
  have admitted : s.admitted i (front ++ d :: back) = front := by
    rw [Session.admitted, List.takeWhile_append_of_pos (by simpa using accepted)]
    simp [refused]
  have noneRefused := List.findSome?_eq_none_iff.mpr accepted
  rw [admitted, Bool.eq_false_iff, ne_eq, additions_failed_iff]
  refine ⟨(performEdit_of_refused accepted refused).symm, ?_⟩
  rintro ⟨other, isRefused'⟩
  have found := additions_refused_iff.mp isRefused'
  rw [noneRefused] at found
  contradiction

/-- One command without what fails in it. -/
theorem run_successes_perform (distinct : ∀ i, (s.frozen i).linear.Distinct) (command : Command) :
    s.run ((command.successes s).map (·.1)) =
        ((command.successes s).map (·.2), (s.perform command).2) ∧
      ∀ step ∈ command.successes s, step.2.failed = false := by
  unfold Command.successes
  split
  · rename_i failed
    split
    · rename_i i drafts cache
      obtain ⟨state, succeeds⟩ := performEdit_admitted failed
      exact ⟨congrArg _ state, List.forall_mem_singleton.mpr succeeds⟩
    · rename_i i moves
      have walked := (s.sets i).cursor.walk_successes moves
      refine ⟨?_, List.forall_mem_singleton.mpr ?_⟩
      · simp only [List.map_cons, List.map_nil, run, perform, performEdit, walked, List.map_map]
        rfl
      · simp [Answer.failed, Except.isOk, Except.toBool]
    · rename_i notAdditions notWalk
      have oneStep : command.isOneStep = true := by
        unfold Command.isOneStep
        split
        · exact absurd rfl (notAdditions _ _ _)
        · exact absurd rfl (notWalk _ _)
        · rfl
      have same := perform_of_failed distinct oneStep failed
      exact ⟨congrArg _ same.symm, fun step left => absurd left List.not_mem_nil⟩
  · rename_i succeeded
    exact ⟨rfl, List.forall_mem_singleton.mpr (Bool.eq_false_iff.mpr succeeded)⟩

theorem distinct_reached (rule : DigestRule) (program : List Command) (i : Nat) :
    ((reached rule program).frozen i).linear.Distinct :=
  (all_reached LinearSet.invariant_distinct rule program).frozen i

/-- By induction on the program that is still to run. -/
theorem repeats_reached (rule : DigestRule) (history program : List Command) :
    (reached rule history).Repeats program := by
  induction program generalizing history with
  | nil => exact ⟨rfl, fun step left => absurd left List.not_mem_nil⟩
  | cons command program ih =>
    have step := run_successes_perform (distinct_reached rule history) command
    have rest := ih (history ++ [command])
    have next : reached rule (history ++ [command]) = ((reached rule history).perform command).2 :=
      run_snoc _ history command
    rw [next] at rest
    generalize reached rule history = s at step rest ⊢
    obtain ⟨now, succeeds⟩ := step
    have state : (s.run ((command.successes s).map (·.1))).2 = (s.perform command).2 :=
      congrArg Prod.snd now
    constructor
    · rw [successes, List.map_append, List.map_append]
      refine Prod.ext ?_ ?_
      · rw [answers_append, state, rest.run, now]
      · rw [run_append, state, rest.run]
        rfl
    · exact fun step left => (List.mem_append.mp left).elim (succeeds step) (rest.succeeds step)

/-- In every session that a program leads to, a call is refused for the reasons given only, and what
fails leaves no trace: additions end before the first refused configuration, all else leaves the
session as it is, and whatever program comes next does the same without the steps that fail. -/
theorem failures_atomic (rule : DigestRule) (history : List Command) :
    let s := reached rule history
    (∀ i, s.Refuses i) ∧ s.Atomic ∧ ∀ program, s.Repeats program := by
  intro s
  have atomic : s.Atomic :=
    { command := fun command => perform_of_failed (distinct_reached rule history)
      move := fun k m refusal => ConfigSet.Cursor.eq_of_refused
      addAll := fun i drafts cache refusal => endsBefore }
  exact ⟨refuses s, atomic, repeats_reached rule history⟩

/-- Of three additions to an outermost set, the second of a hidden configuration, the first is left,
and of a removal from beyond its end nothing. -/
example :
    let visible : Draft := ⟨1, 1, 0, .always, 0, false, false, false⟩
    let additions := [visible, { visible with hidden := true }, { visible with state := 2 }]
    let program : List Command :=
      [.edit 0 (.setOutermost true), .edit 0 (.addAll additions 0), .edit 0 (.remove 1)]
    ((starting .sha256).successes program).map (·.1) =
      [.edit 0 (.setOutermost true), .edit 0 (.addAll [visible] 0)] := rfl

end Session

end Prediction
