import Prediction.Proofs.ConfigSet.Changes
import Prediction.Proofs.ConfigSet.Refinement
import Prediction.Proofs.ConfigSet.Summary

/-!
Thawing what was frozen. No two entries of a writable set could be merged, so that replaying them
appends one after another and makes no join. What is known of all configurations is then found out
again, starting from what was known before.
-/

namespace Prediction

theorem Config.equal_self (c : Config) : c.equal c = true := by
  simp [equal, Context.equal_of_identical (Context.identical_self c.context)]

theorem isEqv_self {α : Type} {same : α → α → Bool} (refl : ∀ a, same a a = true) (l : List α) :
    l.isEqv l same = true := by
  induction l with
  | nil => rfl
  | cons a l ih => rw [List.isEqv_cons_cons, refl, ih, Bool.and_self]

/-- Sets of the same configurations differ in the latch and in the conflict at most. -/
theorem ConfigContents.equal_iff_of_configs {s t : ConfigContents} (same : t.configs = s.configs) :
    t.equal s = true ↔ t.outermost = s.outermost ∧ t.conflict = s.conflict := by
  simp [equal, same, isEqv_self Config.equal_self]

namespace LinearSet

/-- No two entries could be merged. -/
def Distinct (s : LinearSet) : Prop := (s.entries.map Config.Value.identity).Nodup

/-- A set that has an entry with a guard is known to have one. -/
def NotesGuards (s : LinearSet) : Prop :=
  ∀ entry ∈ s.entries, entry.guard.isAlways = false → s.guarded = true

variable {s t : LinearSet}

theorem Distinct.change (distinct : s.Distinct) (change : Change s t) : t.Distinct := by
  cases change with
  | @merge c entry _ _ present =>
    have kept := map_mergeInto present (Config.Value.identity_absorb entry c)
    rw [Distinct, kept]
    exact distinct
  | append _ unmerged => exact distinct_append distinct unmerged
  | remove index => exact distinct.sublist ((List.eraseIdx_sublist _ index).map _)
  | dropHidden => exact distinct.sublist (List.filter_sublist.map _)
  | clear => exact .nil
  | setConflict => exact distinct

theorem invariant_distinct : Invariant Distinct where
  empty := .nil
  change := Distinct.change
  latch distinct set := by
    obtain ⟨rfl, -⟩ := eq_of_latch set
    exact distinct
  starting _ := .nil

/-- What cannot be merged is appended. -/
theorem entries_insertAll {cs : List Config.Value}
    (distinct : ((s.entries ++ cs).map Config.Value.identity).Nodup) :
    (s.insertAll cs).entries = s.entries ++ cs := by
  induction cs generalizing s with
  | nil => exact (List.append_nil _).symm
  | cons c cs ih =>
    have appended : (s.insert c).2.entries = s.entries ++ [c] := by
      rcases insert_cases s c with ⟨entry, index, present, merges, -⟩ | ⟨-, inserted⟩
      · have listed := List.mem_map_of_mem (f := Config.Value.identity)
          (List.mem_of_getElem? present)
        rw [List.map_append] at distinct
        have same := Config.Value.mergesWith_iff_identity.mp merges
        exact absurd same ((List.nodup_append.mp distinct).2.2 _ listed _ List.mem_cons_self)
      · rw [inserted]
        rfl
    have rest : ((s.insert c).2.entries ++ cs).map Config.Value.identity =
        (s.entries ++ c :: cs).map Config.Value.identity := by
      rw [appended, List.append_assoc, List.singleton_append]
    rw [insertAll, ih (rest ▸ distinct), appended, List.append_assoc, List.singleton_append]

/-- A thawed set has no other entries than the frozen one. -/
theorem entries_of_thaw (distinct : s.Distinct) (thawed : s.thaw = .ok t) :
    t.entries ⊆ s.entries := by
  rw [eq_of_thaw thawed, addAll_eq_insertAll]
  have front := List.takeWhile_sublist
    (fun c => ((starting s.outermost s.guarded s.dips).refusal? c).isNone) (l := s.entries)
  rw [entries_insertAll (distinct.sublist (front.map _))]
  exact front.subset

theorem NotesGuards.change (notes : s.NotesGuards) (change : Change s t) : t.NotesGuards := by
  cases change with
  | @merge _ entry _ _ present =>
    intro other listed guarded
    rcases List.mem_or_eq_of_mem_set listed with old | rfl
    · exact notes other old guarded
    · exact notes entry (List.mem_of_getElem? present) guarded
  | append =>
    intro other listed guarded
    apply Bool.or_eq_true_iff.mpr
    rcases List.mem_append.mp listed with old | new
    · exact .inl (notes other old guarded)
    · obtain rfl := List.mem_singleton.mp new
      exact .inr (by simp [guarded])
  | remove => exact fun entry listed => notes entry (List.mem_of_mem_eraseIdx listed)
  | dropHidden => exact fun entry listed => notes entry (List.mem_filter.mp listed).1
  | clear => exact fun entry listed => absurd listed List.not_mem_nil
  | setConflict => exact notes

theorem invariant_notesGuards : Invariant NotesGuards where
  empty := fun entry listed => absurd listed List.not_mem_nil
  change := NotesGuards.change
  latch notes set := by
    obtain ⟨rfl, -⟩ := eq_of_latch set
    exact notes
  starting _ := fun entry listed => absurd listed List.not_mem_nil

/-- Flags that tell the truth stay as they are when the entries are replayed onto them. -/
theorem flags_of_replay (guards : s.NotesGuards)
    (reach : ∀ entry ∈ s.entries, entry.reachesOuter = true → s.dips = true)
    (replayed : t.Summarizes s.guarded s.dips s.entries) :
    t.guarded = s.guarded ∧ t.dips = s.dips := by
  constructor
  · refine replayed.guarded.trans (Bool.or_eq_left_iff_imp.mpr fun found => ?_)
    obtain ⟨entry, listed, isGuarded⟩ := List.any_eq_true.mp found
    exact guards entry listed (by simpa using isGuarded)
  · refine replayed.dips.trans (Bool.or_eq_left_iff_imp.mpr fun found => ?_)
    obtain ⟨entry, listed, reaches⟩ := List.any_eq_true.mp found
    exact reach entry listed reaches

end LinearSet

namespace ConfigSet

variable {s t : ConfigSet} {cs : List Config} {j : Joiner}

/-- Adds configurations as entries of their own. -/
def appendAll (s : ConfigSet) (cs : List Config) : ConfigSet := cs.foldl append s

/-- Configurations that cannot be merged are appended, without any join, up to the first one that is
refused. -/
theorem addAll_of_distinct (distinct : (s.identities ++ cs.map Config.identity).Nodup) :
    s.addAll cs j =
      (match cs.findSome? s.refusal? with
        | some refusal => .error refusal
        | none => .ok !cs.isEmpty,
        s.appendAll (cs.takeWhile fun c => (s.refusal? c).isNone), j) := by
  induction cs generalizing s with
  | nil => rfl
  | cons c cs ih =>
    have first : s.identities ++ (c :: cs).map Config.identity =
        (s.append c).identities ++ cs.map Config.identity := by
      rw [identities_append, List.map_cons, List.append_assoc, List.singleton_append]
    have new : c.identity ∉ s.identities := by
      intro old
      exact (List.nodup_append.mp distinct).2.2 _ old _ List.mem_cons_self rfl
    rw [first] at distinct
    have rest := ih distinct
    have same : (s.append c).refusal? = s.refusal? := rfl
    rw [same] at rest
    unfold addAll add
    cases refusal : s.refusal? c with
    | some refusal => simp [refusal, appendAll]
    | none =>
      simp only [insert_of_new new, rest, List.findSome?_cons, List.takeWhile_cons, refusal,
        Option.isNone_none, if_true]
      cases cs.findSome? s.refusal? <;> rfl

theorem configs_appendAll (s : ConfigSet) (cs : List Config) :
    (s.appendAll cs).configs = s.configs ++ cs ∧ (s.appendAll cs).outermost = s.outermost ∧
      (s.appendAll cs).conflict = s.conflict := by
  induction cs generalizing s with
  | nil => simp [appendAll]
  | cons c cs ih =>
    obtain ⟨configs, outermost, conflict⟩ := ih (s.append c)
    have snoc : (s.append c).configs ++ cs = s.configs ++ c :: cs := List.append_assoc _ _ _
    exact ⟨configs.trans snoc, outermost, conflict⟩

theorem summarizes_appendAll {guarded dips : Bool} {inserted : List Config.Value}
    (summarizes : s.linear.Summarizes guarded dips inserted) (cs : List Config) :
    (s.appendAll cs).linear.Summarizes guarded dips (inserted ++ cs.map Config.value) := by
  induction cs generalizing s inserted with
  | nil => simpa [appendAll] using summarizes
  | cons c cs ih =>
    have step := summarizes.append c.value
    rw [← append_linear] at step
    have rest := ih step
    rwa [List.append_assoc] at rest

/-- A new set is what another one was: it has the same configurations with the same instances of
their contexts, and its conflict is gone. -/
structure Rebuilds (t s : ConfigSet) : Prop where
  configs : t.configs = s.configs
  outermost : t.outermost = s.outermost
  guarded : t.guarded = s.guarded
  dips : t.dips = s.dips
  conflict : t.conflict = none
  uniqueAlt : ∀ alt, t.uniqueAlt = some alt ↔ s.configs ≠ [] ∧ ∀ c ∈ s.configs, c.alt = alt
  equal : t.equal s.toConfigContents = true ↔ s.conflict = none

/-- Replaying all entries of a set whose flags tell the truth. -/
theorem rebuilds_appendAll (guards : s.linear.NotesGuards)
    (reach : ∀ c ∈ s.configs, c.reachesOuter = true → s.dips = true) :
    ((starting s.outermost s.guarded s.dips).appendAll s.configs).Rebuilds s := by
  obtain ⟨configs, outermost, conflict⟩ :=
    configs_appendAll (starting s.outermost s.guarded s.dips) s.configs
  have start : (starting s.outermost s.guarded s.dips).linear =
      LinearSet.starting s.outermost s.guarded s.dips := rfl
  have known := LinearSet.summarizes_starting s.outermost s.guarded s.dips
  rw [← start] at known
  have summarizes := summarizes_appendAll known s.configs
  have flags := LinearSet.flags_of_replay guards (List.forall_mem_map.mpr reach) summarizes
  generalize (starting s.outermost s.guarded s.dips).appendAll s.configs = t at *
  refine ⟨configs, outermost, flags.1, flags.2, conflict, ?_, ?_⟩
  · intro alt
    refine (summarizes.uniqueAlt alt).trans ?_
    rw [List.nil_append, List.forall_mem_map, ne_eq, List.map_eq_nil_iff]
    rfl
  · rw [ConfigContents.equal_iff_of_configs configs, conflict]
    exact (and_iff_right outermost).trans eq_comm

end ConfigSet

end Prediction
