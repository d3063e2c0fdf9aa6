import Prediction.Proofs.Session.Origins
import Prediction.Proofs.Session.Prefixes

/-!
Outermost sets. An outermost set never reaches further out, in its flags or in its entries, and
stays outermost. That it has no hidden entry is not known of every one: additions refuse hidden
configurations, but the latch may be set on a set that has some.
-/

namespace Prediction

open Session (Command)
open LinearSet (Change Changes Invariant)

/-- An outermost set does not reach further out, and none of its entries does. -/
structure ConfigContents.Exclusive (s : ConfigContents) : Prop where
  latch : ¬ (s.outermost = true ∧ s.dips = true)
  entries : s.outermost = true → ∀ c ∈ s.configs, c.reachesOuter = false

/-- An outermost set has no hidden entry. -/
def ConfigContents.Overt (s : ConfigContents) : Prop :=
  s.outermost = true → ∀ c ∈ s.configs, c.hidden = false

namespace LinearSet

variable {s t : LinearSet}

/-- A set that has an entry which reaches further out is known to do so, and is not outermost. -/
structure NotesReach (s : LinearSet) : Prop where
  latch : s.outermost = true → s.dips = false
  noted : ∀ entry ∈ s.entries, entry.reachesOuter = true → s.dips = true

theorem NotesReach.change (notes : s.NotesReach) (change : Change s t) : t.NotesReach := by
  obtain ⟨latch, noted⟩ := notes
  cases change with
  | @merge c entry index accepted present =>
    constructor
    · intro outermost
      exact Bool.or_eq_false_iff.mpr
        ⟨latch outermost, (refusal?_eq_none_iff.mp accepted outermost).2⟩
    · intro other listed reaches
      refine Bool.or_eq_true_iff.mpr (.inl ?_)
      rcases List.mem_or_eq_of_mem_set listed with old | rfl
      · exact noted other old reaches
      · exact noted entry (List.mem_of_getElem? present) reaches
  | @append c accepted =>
    constructor
    · intro outermost
      exact Bool.or_eq_false_iff.mpr
        ⟨latch outermost, (refusal?_eq_none_iff.mp accepted outermost).2⟩
    · intro other listed reaches
      apply Bool.or_eq_true_iff.mpr
      rcases List.mem_append.mp listed with old | new
      · exact .inl (noted other old reaches)
      · exact .inr (List.mem_singleton.mp new ▸ reaches)
  | remove index =>
    exact ⟨latch, fun entry listed => noted entry (List.mem_of_mem_eraseIdx listed)⟩
  | dropHidden =>
    exact ⟨latch, fun entry listed => noted entry (List.mem_filter.mp listed).1⟩
  | clear => exact ⟨fun _ => rfl, fun entry listed => absurd listed List.not_mem_nil⟩
  | setConflict => exact ⟨latch, noted⟩

theorem invariant_notesReach : Invariant NotesReach where
  empty := ⟨fun _ => rfl, fun entry listed => absurd listed List.not_mem_nil⟩
  change := NotesReach.change
  latch := by
    intro s t outermost notes set
    obtain ⟨rfl, -, dips⟩ := eq_of_latch set
    exact ⟨dips, notes.noted⟩
  starting notes := ⟨notes.latch, fun entry listed => absurd listed List.not_mem_nil⟩

theorem NotesReach.exclusive {s : ConfigContents} (notes : s.linear.NotesReach) :
    s.Exclusive := by
  constructor
  · rintro ⟨outermost, dips⟩
    exact Bool.false_ne_true ((notes.latch outermost).symm.trans dips)
  · intro outermost c present
    rw [Bool.eq_false_iff]
    intro reaches
    have dips := notes.noted c.value (List.mem_map_of_mem present) reaches
    exact Bool.false_ne_true ((notes.latch outermost).symm.trans dips)

def Overt (s : LinearSet) : Prop := s.outermost = true → ∀ entry ∈ s.entries, entry.hidden = false

/-- Merging leaves an entry hidden or visible as it was. -/
theorem Overt.change (overt : s.Overt) (change : Change s t) : t.Overt := by
  intro outermost entry listed
  rw [outermost_of_changes (.single change)] at outermost
  cases change with
  | @merge _ target _ _ present =>
    rcases List.mem_or_eq_of_mem_set listed with old | rfl
    · exact overt outermost entry old
    · exact overt outermost target (List.mem_of_getElem? present)
  | append accepted =>
    rcases List.mem_append.mp listed with old | new
    · exact overt outermost entry old
    · exact List.mem_singleton.mp new ▸ (refusal?_eq_none_iff.mp accepted outermost).1
  | remove => exact overt outermost entry (List.mem_of_mem_eraseIdx listed)
  | dropHidden => exact overt outermost entry (List.mem_filter.mp listed).1
  | clear => exact absurd listed List.not_mem_nil
  | setConflict => exact overt outermost entry listed

theorem Overt.changes (overt : s.Overt) (changes : Changes s t) : t.Overt := by
  induction changes with
  | refl => exact overt
  | tail _ last ih => exact ih.change last

theorem overt_linear {s : ConfigContents} : s.linear.Overt ↔ s.Overt := by
  simp only [Overt, ConfigContents.Overt, ConfigContents.linear, List.forall_mem_map]
  rfl

end LinearSet

namespace Session

variable {known : Set Context} {s : Session} {i : Nat}

/-- The command puts another set in the place of this one. -/
def Command.replaces (i : Nat) : Command → Bool
  | .newSet target => target == i
  | .copy _ target => target == i
  | .thaw _ target _ => target == i
  | _ => false

/-- Once a set is outermost, it stays so, and so are copies of it, writable or frozen, and what
becomes of a frozen set when it is thawed. -/
structure KeepsLatch (s : Session) (i : Nat) : Prop where
  later : (s.sets i).outermost = true → ∀ program : List Command,
    (∀ command ∈ program, command.replaces i = false) →
    ((s.run program).2.sets i).outermost = true
  copied : ∀ target, ((s.perform (.copy i target)).2.sets target).outermost = (s.sets i).outermost
  frozen : ∀ target,
    ((s.perform (.freeze i target)).2.frozen target).outermost = (s.sets i).outermost
  thawed : ∀ cache later, ((s.frozen i).thaw (s.joiner cache)).1 = .ok later →
    later.outermost = (s.frozen i).outermost

theorem outermost_perform {s : LinearSession} (outermost : (s.sets i).outermost = true)
    {command : Command} (same : command.replaces i = false) :
    ((s.perform command).2.sets i).outermost = true := by
  have origin := s.origin_perform command i
  generalize (s.perform command).2.sets i = later at origin ⊢
  cases origin with
  | changed changes => exact (LinearSet.outermost_of_changes changes).trans outermost
  | latched set =>
    obtain ⟨rfl, kept, -⟩ := LinearSet.eq_of_latch set
    exact kept outermost
  | new => simp [Command.replaces] at same
  | copied set => simp [Command.replaces] at same
  | thawed thawed => simp [Command.replaces] at same

theorem outermost_run {s : LinearSession} (outermost : (s.sets i).outermost = true)
    {program : List Command} (same : ∀ command ∈ program, command.replaces i = false) :
    ((s.run program).2.sets i).outermost = true := by
  induction program generalizing s with
  | nil => exact outermost
  | cons command program ih =>
    obtain ⟨first, others⟩ := List.forall_mem_cons.mp same
    exact ih (outermost_perform outermost first) others

theorem Sound.keepsLatch (sound : s.Sound known) (i : Nat) : s.KeepsLatch i where
  later outermost program same := by
    have kept := outermost_run (s := s.linear) outermost same
    rw [← (run_realizes sound program).2.1] at kept
    exact kept
  copied target := by
    have copy : (s.perform (.copy i target)).2.sets target = s.sets i :=
      Function.update_self _ _ _
    rw [copy]
  frozen target := by
    have frozen : ((s.perform (.freeze i target)).2.frozen target) =
        ((s.sets i).freeze s.supply).1 := Function.update_self _ _ _
    rw [frozen]
    rfl
  thawed cache later outcome := by
    have value := (FrozenSet.thaw_linear (sound.joiner cache) (sound.frozen i)).1
    rw [outcome] at value
    exact LinearSet.outermost_of_changes (LinearSet.changes_thaw value.symm)

/-- In every session that a program leads to, no set is outermost and reaches further out, frozen
sets and those that a next command passes through included; and the latch is never undone. -/
theorem outermost_exclusive (rule : DigestRule) (program : List Command) :
    let s := reached rule program
    (∀ i, (s.sets i).Exclusive ∧ (s.frozen i).Exclusive) ∧
      (∀ command : Command, ∀ passed ∈ command.insertions s, passed.Exclusive) ∧
      ∀ i, s.KeepsLatch i := by
  obtain ⟨known, sound⟩ := sound_reached rule program
  have all := all_reached LinearSet.invariant_notesReach rule program
  refine ⟨?_, ?_, sound.keepsLatch⟩
  · intro i
    exact ⟨(all.sets i).exclusive, (all.frozen i).exclusive⟩
  · intro command later passed
    exact (holds_insertions LinearSet.invariant_notesReach sound all command later passed).exclusive

/-- If the command sets the latch of a set, the set has no hidden entry at that time. -/
def Command.LatchesOvert (s : Session) : Command → Prop
  | .edit i (.setOutermost true) =>
    (s.sets i).dips = false → ∀ c ∈ (s.sets i).configs, c.hidden = false
  | _ => True

/-- No command of the program sets the latch of a set that has a hidden entry. -/
def LatchesOvert (s : Session) : List Command → Prop
  | [] => True
  | command :: program => command.LatchesOvert s ∧ (s.perform command).2.LatchesOvert program

theorem overt_perform (sound : s.Sound known) (overt : ∀ i, (s.sets i).Overt) {command : Command}
    (latches : command.LatchesOvert s) (i : Nat) : ((s.perform command).2.sets i).Overt := by
  have before (i : Nat) : (s.linear.sets i).Overt := LinearSet.overt_linear.mpr (overt i)
  have origin := s.linear.origin_perform command i
  rw [← (perform_realizes sound command).linear, linear_sets] at origin
  rw [← LinearSet.overt_linear]
  generalize ((s.perform command).2.sets i).linear = later at origin ⊢
  cases origin with
  | changed changes => exact (before i).changes changes
  | @latched outermost _ set =>
    obtain ⟨rfl, -, dips⟩ := LinearSet.eq_of_latch set
    cases outermost with
    | false => exact fun outermost => absurd outermost Bool.false_ne_true
    | true => exact fun _ => List.forall_mem_map.mpr (latches (dips rfl))
  | new => exact fun _ entry listed => absurd listed List.not_mem_nil
  | copied set => exact before set
  | thawed thawed =>
    have start (outermost guarded dips : Bool) :
        (LinearSet.starting outermost guarded dips).Overt :=
      fun _ entry listed => absurd listed List.not_mem_nil
    exact (start _ _ _).changes (LinearSet.changes_thaw thawed)

/-- What a latch was set on can be read off the set afterwards. -/
theorem latchesOvert_of_overt {command : Command}
    (overt : ∀ i, ((s.perform command).2.sets i).Overt) : command.LatchesOvert s := by
  unfold Command.LatchesOvert
  split
  · rename_i i
    intro dips
    have accepted : (s.sets i).setOutermost true = .ok { s.sets i with outermost := true } := by
      simp [ConfigSet.setOutermost, dips]
    have after := overt i
    simp only [perform, performEdit, accepted, putSet, Function.update_self] at after
    exact after rfl
  · trivial

theorem latchesOvert_iff_meets {program : List Command} :
    s.LatchesOvert program ↔ s.Meets Command.LatchesOvert program := by
  induction program generalizing s with
  | nil => exact Iff.rfl
  | cons command program ih => exact and_congr Iff.rfl ih

theorem overt_run_iff (sound : s.Sound known) (overt : ∀ i, (s.sets i).Overt)
    (program : List Command) :
    (∀ front, front <+: program → ∀ i, ((s.run front).2.sets i).Overt) ↔
      s.LatchesOvert program := by
  rw [latchesOvert_iff_meets]
  refine always_iff_meets (motive := fun s => ∀ i, (s.sets i).Overt) overt ?_
  intro front command _ before
  obtain ⟨-, -, wider, -, sound'⟩ := run_realizes sound front
  exact ⟨latchesOvert_of_overt, overt_perform sound' before⟩

/-- All along a program, no outermost set has a hidden entry, if and only if the program sets no
latch on a set that has one. -/
theorem overt_iff_latchesOvert (rule : DigestRule) (program : List Command) :
    (∀ front, front <+: program → ∀ i, ((reached rule front).sets i).Overt) ↔
      (starting rule).LatchesOvert program :=
  overt_run_iff (sound_starting rule)
    (fun _ _ _ present => absurd present List.not_mem_nil) program

/-- A hidden configuration is added, and the latch is set after that. -/
def latchedLate : List Command :=
  [.edit 0 (.add ⟨1, 1, 0, .always, 0, false, true, false⟩ 0), .edit 0 (.setOutermost true)]

/-- So it happens that an outermost set has a hidden entry. -/
theorem not_overt_latchedLate : ¬ ((reached .sha256 latchedLate).sets 0).Overt := by
  intro overt
  have hidden := overt rfl _ List.mem_cons_self
  contradiction

end Session

end Prediction
