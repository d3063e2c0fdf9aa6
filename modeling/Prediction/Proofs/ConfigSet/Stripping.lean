import Prediction.Proofs.ConfigSet.Union
import Prediction.Proofs.Tree.Covers

/-!
What is left of a linear set once its hidden entries are dropped. Merging never makes an entry
hidden or visible, so the first configuration of an identity decides what becomes of all of them.
-/

namespace Prediction

namespace Config.Value

variable {entry c other : Config.Value}

theorem covers_iff : entry.covers c = true ↔
    entry.identity = c.identity ∧ entry.context.covers c.context = true := by
  rw [Value.covers, Bool.and_eq_true, mergesWith_iff_identity]

/-- What an entry covers is covered by what it becomes, and so is what was merged into it. -/
theorem absorb_covers (left : entry.context.Canonical) (covered : other.context.Canonical)
    (right : c.context.Canonical) (covers : entry.covers other = true) :
    (entry.absorb c).covers other = true := by
  obtain ⟨same, below⟩ := covers_iff.mp covers
  exact covers_iff.mpr ⟨same, Tree.join_covers_of_covers left covered right below⟩

theorem absorb_covers_self (left : entry.context.Canonical) (right : c.context.Canonical)
    (merges : entry.mergesWith c = true) : (entry.absorb c).covers c = true :=
  covers_iff.mpr ⟨mergesWith_iff_identity.mp merges, Tree.join_covers_right left right⟩

end Config.Value

namespace LinearSet

open Config.Value (covers_iff mergesWith_iff_identity absorb_covers absorb_covers_self)

/-- Every configuration is covered by an entry, and each entry is hidden if the first configuration
of its identity was. -/
structure Collects (s : LinearSet) (inserted : List Config.Value) : Prop where
  canonical : ∀ entry ∈ s.entries, entry.context.Canonical
  covered : ∀ c ∈ inserted, c.context.Canonical ∧ ∃ entry ∈ s.entries, entry.covers c = true
  hidden : ∀ entry ∈ s.entries, ∃ first,
    inserted.find? (·.identity = entry.identity) = some first ∧ first.hidden = entry.hidden

variable {s : LinearSet} {inserted cs : List Config.Value} {entry c : Config.Value} {index : Nat}

theorem collects_empty : empty.Collects [] :=
  ⟨fun _ listed => absurd listed List.not_mem_nil, fun _ added => absurd added List.not_mem_nil,
    fun _ listed => absurd listed List.not_mem_nil⟩

/-- What holds of one entry still does, if the entry that takes another's place inherits it. -/
theorem exists_mem_set {entries : List Config.Value} {motive : Config.Value → Prop}
    (present : entries[index]? = some entry) (inherits : motive entry → motive c)
    (holds : ∃ other ∈ entries, motive other) : ∃ other ∈ entries.set index c, motive other := by
  obtain ⟨other, listed, ofOther⟩ := holds
  obtain ⟨place, found⟩ := List.mem_iff_getElem?.mp listed
  by_cases here : index = place
  · subst here
    obtain rfl := Option.some.inj (present.symm.trans found)
    have within : index < entries.length := (List.getElem?_eq_some_iff.mp present).1
    exact ⟨c, List.mem_set within c, inherits ofOther⟩
  · have kept : (entries.set index c)[place]? = some other := by
      rw [List.getElem?_set_ne here, found]
    exact ⟨other, List.mem_of_getElem? kept, ofOther⟩

namespace Collects

/-- Later configurations do not come first. -/
theorem hidden_snoc (collects : s.Collects inserted) (listed : entry ∈ s.entries)
    (c : Config.Value) : ∃ first,
    (inserted ++ [c]).find? (·.identity = entry.identity) = some first ∧
      first.hidden = entry.hidden := by
  obtain ⟨first, found, same⟩ := collects.hidden entry listed
  exact ⟨first, by rw [List.find?_append, found, Option.some_or], same⟩

theorem mergeInto (collects : s.Collects inserted) (canonical : c.context.Canonical)
    (present : s.entries[index]? = some entry) (merges : entry.mergesWith c = true) :
    (s.mergeInto index entry c).2.Collects (inserted ++ [c]) := by
  have listed := List.mem_of_getElem? present
  have within : index < s.entries.length := (List.getElem?_eq_some_iff.mp present).1
  have left := collects.canonical entry listed
  refine ⟨?_, ?_, ?_⟩
  · intro other inSet
    rcases List.mem_or_eq_of_mem_set inSet with old | rfl
    · exact collects.canonical other old
    · exact Tree.canonical_join left canonical
  · intro other added
    rcases List.mem_append.mp added with old | new
    · obtain ⟨covered, cover⟩ := collects.covered other old
      exact ⟨covered, exists_mem_set present (absorb_covers left covered canonical) cover⟩
    · rw [List.mem_singleton.mp new]
      have self := absorb_covers_self left canonical merges
      exact ⟨canonical, entry.absorb c, List.mem_set within _, self⟩
  · intro other inSet
    rcases List.mem_or_eq_of_mem_set inSet with old | rfl
    · exact collects.hidden_snoc old c
    · exact collects.hidden_snoc listed c

theorem append (collects : s.Collects inserted) (canonical : c.context.Canonical)
    (new : ∀ entry ∈ s.entries, entry.mergesWith c = false) :
    (s.append c).Collects (inserted ++ [c]) := by
  have last : c ∈ s.entries ++ [c] := List.mem_append_right _ List.mem_cons_self
  refine ⟨?_, ?_, ?_⟩
  · intro other inSet
    rcases List.mem_append.mp inSet with old | added
    · exact collects.canonical other old
    · exact List.mem_singleton.mp added ▸ canonical
  · intro other added
    rcases List.mem_append.mp added with old | isNew
    · obtain ⟨covered, cover, inSet, covers⟩ := collects.covered other old
      exact ⟨covered, cover, List.mem_append_left _ inSet, covers⟩
    · rw [List.mem_singleton.mp isNew]
      exact ⟨canonical, c, last, covers_iff.mpr ⟨rfl, Tree.covers_self c.context⟩⟩
  · intro other inSet
    rcases List.mem_append.mp inSet with old | added
    · exact collects.hidden_snoc old c
    · rw [List.mem_singleton.mp added]
      have unmet : inserted.find? (·.identity = c.identity) = none := by
        simp only [List.find?_eq_none, decide_eq_true_eq]
        intro earlier added same
        obtain ⟨-, cover, inSet, covers⟩ := collects.covered earlier added
        have merges := mergesWith_iff_identity.mpr ((covers_iff.mp covers).1.trans same)
        exact Bool.eq_false_iff.mp (new cover inSet) merges
      exact ⟨c, by simp [unmet], rfl⟩

theorem insertAll (collects : s.Collects inserted) (canonical : ∀ c ∈ cs, c.context.Canonical) :
    (s.insertAll cs).Collects (inserted ++ cs) :=
  insertAll_induction mergeInto append collects canonical

theorem congr {t : LinearSet} (collects : s.Collects inserted) (same : t.entries = s.entries) :
    t.Collects inserted := by
  obtain ⟨canonical, covered, hidden⟩ := collects
  rw [← same] at canonical covered hidden
  exact ⟨canonical, covered, hidden⟩

/-- The entry of an identity goes if the first configuration of it was hidden, and takes along what
was merged into it. -/
theorem contains_dropHidden_iff (collects : s.Collects inserted) (added : c ∈ inserted) :
    s.dropHidden.contains c = true ↔ ∃ first,
      inserted.find? (·.identity = c.identity) = some first ∧ first.hidden = false := by
  rw [contains, List.any_eq_true]
  constructor
  · rintro ⟨entry, kept, covers⟩
    obtain ⟨listed, visible⟩ := List.mem_filter.mp kept
    obtain ⟨first, found, same⟩ := collects.hidden entry listed
    rw [(covers_iff.mp covers).1] at found
    exact ⟨first, found, same.trans (by simpa using visible)⟩
  · rintro ⟨first, found, visible⟩
    obtain ⟨-, entry, listed, covers⟩ := collects.covered c added
    obtain ⟨first', found', same⟩ := collects.hidden entry listed
    rw [(covers_iff.mp covers).1] at found'
    obtain rfl := Option.some.inj (found.symm.trans found')
    exact ⟨entry, List.mem_filter.mpr ⟨listed, by simp [← same, visible]⟩, covers⟩

end Collects

end LinearSet

end Prediction
