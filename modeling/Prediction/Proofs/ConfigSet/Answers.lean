import Prediction.Proofs.ConfigSet.Refinement
import Prediction.Proofs.ConfigSet.Thawing
import Prediction.Proofs.Tree.Covers

/-!
What a set answers about a configuration. Asking through the index, asking by a search of all
entries and adding give one answer. A configuration that is covered leaves the threads of the set as
they are; any other one is appended, or the context of one entry takes it in.
-/

namespace Prediction

open Context

/-- Equality of threads. Contexts count by value; depths and flags do not matter. -/
def Config.sameThread (c other : Config) : Bool :=
  c.mergesWith other && c.context.equal other.context

/-- A context that allows exactly what two others do, and more than the first of them. -/
structure Context.Enlarges (wider a b : Context) : Prop where
  allows : ∀ stack, wider.Allows stack ↔ a.Allows stack ∨ b.Allows stack
  left : wider.covers a = true
  right : wider.covers b = true
  strict : a.covers wider = false

namespace ConfigContents

/-- The threads of two sets are the same, entry by entry. -/
def sameThreads (s t : ConfigContents) : Bool := s.configs.isEqv t.configs Config.sameThread

/-- One entry took a configuration in and has the given context since. Its depth may have grown, and
so may its exemption; beyond that the set reaches further out at most. -/
structure TookIn (s : ConfigContents) (c : Config) (later : ConfigContents) (i : Nat)
    (entry : Config) (context : Context) : Prop where
  present : s.configs[i]? = some entry
  merges : entry.mergesWith c = true
  configs : later.configs = s.configs.set i { entry with
    context
    depth := max entry.depth c.depth
    suppressed := entry.suppressed || c.suppressed }
  uniqueAlt : later.uniqueAlt = s.uniqueAlt
  guarded : later.guarded = s.guarded
  dips : later.dips = (s.dips || c.reachesOuter)
  outermost : later.outermost = s.outermost
  conflict : later.conflict = s.conflict

/-- There was no entry for a configuration, and now there is. -/
structure Appended (s : ConfigContents) (c : Config) (later : ConfigContents) : Prop where
  unmerged : ∀ entry ∈ s.configs, entry.mergesWith c = false
  configs : later.configs = s.configs ++ [c]

end ConfigContents

/-- What goes with an answer of an addition: both ways of asking before would have told it, and so
does a comparison of the threads with those of the later set. The answer is no if an entry was left
with the very instance of its context, and yes if there is one entry more, or one larger context. -/
structure ConfigSet.Answers (s : ConfigSet) (c : Config) (answer : Bool)
    (later : ConfigContents) : Prop where
  contains : s.contains c = !answer
  searched : ∀ supply, (s.freeze supply).1.contains c = !answer
  threads : s.sameThreads later = !answer
  covered : answer = false → ∃ i entry, s.TookIn c later i entry entry.context
  added : answer = true → s.Appended c later ∨ ∃ i entry context,
    s.TookIn c later i entry context ∧ context.Enlarges entry.context c.context

theorem Config.sameThread_self (c : Config) : c.sameThread c = true := by
  simp [sameThread, equal_of_identical (identical_self c.context)]

theorem isEqv_set {α : Type} {same : α → α → Bool} (refl : ∀ a, same a a = true) {l : List α}
    {i : Nat} {a : α} (present : l[i]? = some a) (b : α) :
    l.isEqv (l.set i b) same = same a b := by
  induction l generalizing i with
  | nil => simp at present
  | cons head l ih =>
    cases i with
    | zero =>
      obtain rfl := Option.some.inj present
      rw [List.set_cons_zero, List.isEqv_cons_cons, isEqv_self refl, Bool.and_true]
    | succ i => rw [List.set_cons_succ, List.isEqv_cons_cons, refl, Bool.true_and, ih present]

theorem isEqv_snoc {α : Type} {same : α → α → Bool} (l : List α) (a : α) :
    l.isEqv (l ++ [a]) same = false := by
  induction l with
  | nil => rfl
  | cons head l ih => rw [List.cons_append, List.isEqv_cons_cons, ih, Bool.and_false]

/-- Whether the threads are the same depends on the context of the one entry. -/
theorem ConfigContents.TookIn.sameThreads {s later : ConfigContents} {c entry : Config} {i : Nat}
    {context : Context} (took : s.TookIn c later i entry context) :
    s.sameThreads later = entry.context.equal context := by
  rw [ConfigContents.sameThreads, took.configs, isEqv_set Config.sameThread_self took.present]
  exact (congrArg (· && _) (Config.mergesWith_self entry)).trans (Bool.true_and _)

variable {known : Set Context} {s : ConfigSet} {entry c : Config} {i : Nat} {j : Joiner}

/-- A join that is another instance than its left operand covers that operand, and is not covered by
it, as it would have its value otherwise. -/
theorem Context.enlarges_join {a b : Context} (sound : j.Sound known) (left : a ∈ known)
    (right : b ∈ known) (changed : (a.join b j).1.identical a = false) :
    (a.join b j).1.Enlarges a b := by
  have joins := (joinable a sound left right).1
  have allows := allows_of_joins sound.coherent left right joins
  obtain ⟨wider, included, sound', present, value⟩ := joins
  have first := sound.coherent.canonical left
  have second := sound.coherent.canonical right
  have coversLeft := Tree.join_covers_left first second
  have coversRight := Tree.join_covers_right first second
  have coherent := sound'.coherent
  refine ⟨allows, ?_, ?_, ?_⟩
  · rwa [covers_eq coherent present (included left), value]
  · rwa [covers_eq coherent present (included right), value]
  · rw [covers_eq coherent (included left) present, value, Bool.eq_false_iff]
    intro covers
    have same := Tree.covers_antisymm (Tree.canonical_join first second) first coversLeft covers
    have kept := (ConfigSet.changed_iff sound left right).mpr same
    exact Bool.false_ne_true (changed.symm.trans kept)

/-- A join is equal to its left operand only if it is that very instance. -/
theorem Context.equal_join {a b : Context} (sound : j.Sound known) (left : a ∈ known)
    (right : b ∈ known) : a.equal (a.join b j).1 = (a.join b j).1.identical a := by
  obtain ⟨wider, included, sound', present, value⟩ := (joinable a sound left right).1
  rw [Bool.eq_iff_iff, sound'.coherent.equal_iff (included left) present, value,
    ConfigSet.changed_iff sound left right, eq_comm]

namespace ConfigSet

theorem changed_of_entry (present : s.configs[i]? = some entry) : (s.mergeAt i c j).changed =
    !(entry.context.join c.context j).1.identical entry.context := by
  rw [mergeAt_of_entry present]

/-- What a merge does to the set, by what it reports. -/
theorem tookIn_mergeAt (present : s.configs[i]? = some entry) (merges : entry.mergesWith c = true) :
    s.TookIn c (s.mergeAt i c j).set.toConfigContents i entry
      (if (s.mergeAt i c j).changed then (entry.context.join c.context j).1
        else entry.context) := by
  rw [mergeAt_of_entry present]
  refine ⟨present, merges, ?_, rfl, rfl, rfl, rfl, rfl⟩
  dsimp only
  split <;> rfl

/-- A merge changes the set unless the entry covers the configuration. -/
theorem changed_mergeAt (sound : j.Sound known) (within : s.Known known)
    (context : c.context ∈ known) (present : s.configs[i]? = some entry) :
    (s.mergeAt i c j).changed = !entry.context.covers c.context := by
  have left := within entry (List.mem_of_getElem? present)
  have kept : (entry.context.join c.context j).1.identical entry.context =
      entry.context.covers c.context := by
    rw [Bool.eq_iff_iff, changed_iff sound left context,
      covers_iff_join_tree sound.coherent left context]
  rw [changed_of_entry present, kept]

/-- Only the entry that a configuration may be merged into could cover it. -/
theorem any_covers_of_present (indexed : s.Indexed) (present : s.configs[i]? = some entry)
    (merges : entry.mergesWith c = true) :
    s.configs.any (·.covers c) = entry.context.covers c.context := by
  have listed := List.mem_of_getElem? present
  rw [Bool.eq_iff_iff, List.any_eq_true]
  constructor
  · rintro ⟨other, listed', covers⟩
    obtain ⟨merges', covers'⟩ := Bool.and_eq_true_iff.mp covers
    exact eq_of_mergesWith indexed listed merges listed' merges' ▸ covers'
  · exact fun covers => ⟨entry, listed, Bool.and_eq_true_iff.mpr ⟨merges, covers⟩⟩

/-- The threads are the same afterwards, unless the context of the entry was enlarged. -/
theorem answers_mergeAt (indexed : s.Indexed) (sound : j.Sound known) (within : s.Known known)
    (context : c.context ∈ known) (present : s.configs[i]? = some entry)
    (merges : entry.mergesWith c = true) :
    s.Answers c (s.mergeAt i c j).changed (s.mergeAt i c j).set.toConfigContents := by
  have left := within entry (List.mem_of_getElem? present)
  have covers : s.configs.any (·.covers c) = !(s.mergeAt i c j).changed := by
    rw [any_covers_of_present indexed present merges, changed_mergeAt sound within context present,
      Bool.not_not]
  have contains := (contains_eq_any indexed).trans covers
  have took := tookIn_mergeAt (j := j) present merges
  have threads := took.sameThreads
  have joined := changed_of_entry (c := c) (j := j) present
  generalize (s.mergeAt i c j).set.toConfigContents = later at *
  generalize (s.mergeAt i c j).changed = answer at *
  cases answer with
  | false =>
    have same := threads.trans (equal_of_identical (identical_self entry.context))
    exact ⟨contains, fun _ => covers, same, fun _ => ⟨i, entry, took⟩, nofun⟩
  | true =>
    have other : (entry.context.join c.context j).1.identical entry.context = false :=
      (Bool.not_eq_true' _).mp joined.symm
    have different := threads.trans ((equal_join sound left context).trans other)
    have larger := enlarges_join sound left context other
    exact ⟨contains, fun _ => covers, different, nofun, fun _ => .inr ⟨i, entry, _, took, larger⟩⟩

/-- However the index leads an insertion, and whatever the insertion joins with. -/
theorem answers_insert (indexed : s.Indexed) (sound : j.Sound known) (within : s.Known known)
    (context : c.context ∈ known) :
    s.Answers c (s.insert c j).changed (s.insert c j).set.toConfigContents := by
  rcases insert_cases indexed c j with
    ⟨i, entry, present, merges, changed, contents⟩ | ⟨unmerged, inserted⟩
  · rw [changed, contents]
    exact answers_mergeAt indexed sound within context present merges
  · have nowhere : s.configs.any (·.covers c) = false := by
      rw [List.any_eq_false]
      intro entry listed covers
      have merges := (Bool.and_eq_true_iff.mp covers).1
      exact absurd merges (Bool.eq_false_iff.mp (unmerged entry listed))
    rw [inserted]
    have contains := (contains_eq_any indexed).trans nowhere
    exact ⟨contains, fun _ => nowhere, isEqv_snoc _ _, nofun, fun _ => .inl ⟨unmerged, rfl⟩⟩

end ConfigSet

end Prediction
