import Prediction.Proofs.ConfigSet.Index
import Prediction.Proofs.ConfigSet.Insert
import Prediction.Proofs.Tree.Stacks

/-!
Merging loses nothing and invents nothing. Of the configurations that were added to a linear set,
those of one identity are one entry, and it allows exactly the stacks that one of them allows.
-/

namespace Prediction

def Config.Value.identity (c : Config.Value) : Identity := (c.key, c.guard)

/-- An entry stands for those of some configurations that have its identity. -/
structure Config.Value.StandsFor (inserted : List Config.Value) (entry : Config.Value) : Prop where
  canonical : entry.context.Canonical
  allows : ∀ stack, entry.context.Allows stack ↔
    ∃ c ∈ inserted, c.identity = entry.identity ∧ c.context.Allows stack
  depth_le : ∀ c ∈ inserted, c.identity = entry.identity → c.depth ≤ entry.depth
  depth_eq : ∃ c ∈ inserted, c.identity = entry.identity ∧ c.depth = entry.depth
  suppressed : entry.suppressed = true ↔
    ∃ c ∈ inserted, c.identity = entry.identity ∧ c.suppressed = true

namespace Config.Value

variable {inserted : List Config.Value} {entry c : Config.Value}

theorem mergesWith_iff_identity : entry.mergesWith c = true ↔ entry.identity = c.identity := by
  simp [mergesWith, identity]

@[simp] theorem identity_absorb (entry c : Config.Value) :
    (entry.absorb c).identity = entry.identity := rfl

theorem exists_snoc {motive : Config.Value → Prop} :
    (∃ c' ∈ inserted ++ [c], motive c') ↔ (∃ c' ∈ inserted, motive c') ∨ motive c := by
  simp [or_and_right, exists_or]

/-- The greater depth is one of the two, and neither is beyond it. -/
theorem max_depth (m n : UInt32) : m ≤ max m n ∧ n ≤ max m n ∧ (max m n = m ∨ max m n = n) := by
  rw [show max m n = if m ≤ n then n else m from rfl]
  split
  · rename_i below
    exact ⟨below, UInt32.le_refl n, .inr rfl⟩
  · rename_i above
    exact ⟨UInt32.le_refl m, UInt32.le_of_lt (UInt32.not_le.mp above), .inl rfl⟩

/-- An entry takes in a further configuration of its identity. -/
theorem StandsFor.absorb (stands : entry.StandsFor inserted) (same : c.identity = entry.identity)
    (canonical : c.context.Canonical) : (entry.absorb c).StandsFor (inserted ++ [c]) := by
  obtain ⟨left, right, attained⟩ := max_depth entry.depth c.depth
  refine ⟨Tree.canonical_join stands.canonical canonical, ?_, ?_, ?_, ?_⟩
  · intro stack
    have joined : (entry.absorb c).context.Allows stack ↔
        entry.context.Allows stack ∨ c.context.Allows stack :=
      Tree.allows_join stands.canonical canonical
    rw [joined, stands.allows, exists_snoc, identity_absorb]
    simp only [same, true_and]
  · intro c' present same'
    rcases List.mem_append.mp present with old | new
    · exact UInt32.le_trans (stands.depth_le c' old same') left
    · rw [List.mem_singleton.mp new]
      exact right
  · rw [exists_snoc]
    rcases attained with kept | raised
    · obtain ⟨c', old, same', depth⟩ := stands.depth_eq
      exact .inl ⟨c', old, same', depth.trans kept.symm⟩
    · exact .inr ⟨same, raised.symm⟩
  · have either : (entry.absorb c).suppressed = true ↔
        entry.suppressed = true ∨ c.suppressed = true := Bool.or_eq_true_iff
    rw [either, stands.suppressed, exists_snoc, identity_absorb]
    simp only [same, true_and]

/-- A configuration of another identity makes no difference. -/
theorem StandsFor.other (stands : entry.StandsFor inserted)
    (different : c.identity ≠ entry.identity) : entry.StandsFor (inserted ++ [c]) := by
  refine ⟨stands.canonical, ?_, ?_, ?_, ?_⟩
  · intro stack
    rw [exists_snoc, stands.allows]
    simp only [different, false_and, or_false]
  · intro c' present same'
    rcases List.mem_append.mp present with old | new
    · exact stands.depth_le c' old same'
    · exact absurd (List.mem_singleton.mp new ▸ same') different
  · exact exists_snoc.mpr (.inl stands.depth_eq)
  · rw [exists_snoc, stands.suppressed]
    simp only [different, false_and, or_false]

/-- The first configuration of an identity is an entry that stands for itself. -/
theorem StandsFor.first (canonical : c.context.Canonical)
    (new : ∀ c' ∈ inserted, c'.identity ≠ c.identity) : c.StandsFor (inserted ++ [c]) := by
  have noneBefore {motive : Config.Value → Prop} :
      ¬ ∃ c' ∈ inserted, c'.identity = c.identity ∧ motive c' := by
    rintro ⟨c', present, same, -⟩
    exact new c' present same
  refine ⟨canonical, ?_, ?_, exists_snoc.mpr (.inr ⟨rfl, rfl⟩), ?_⟩
  · intro stack
    rw [exists_snoc]
    simp only [noneBefore, true_and, false_or]
  · intro c' present same
    rcases List.mem_append.mp present with old | isNew
    · exact absurd same (new c' old)
    · rw [List.mem_singleton.mp isNew]
      exact UInt32.le_refl _
  · rw [exists_snoc]
    simp only [noneBefore, true_and, false_or]

end Config.Value

namespace LinearSet

open Config.Value (StandsFor)

/-- The entries of a set are the distinct identities among some configurations, in the order in
which they came first, and each entry stands for those of its identity. -/
structure Unites (s : LinearSet) (inserted : List Config.Value) : Prop where
  identities : s.entries.map Config.Value.identity =
    (inserted.map Config.Value.identity).eraseDups
  distinct : (s.entries.map Config.Value.identity).Nodup
  stands : ∀ entry ∈ s.entries, entry.StandsFor inserted

variable {s : LinearSet} {inserted cs : List Config.Value} {entry c : Config.Value} {index : Nat}

theorem unites_empty : empty.Unites [] :=
  ⟨rfl, .nil, fun _ present => absurd present List.not_mem_nil⟩

theorem eraseDups_snoc (ids : List Identity) (id : Identity) :
    (ids ++ [id]).eraseDups = if id ∈ ids then ids.eraseDups else ids.eraseDups ++ [id] := by
  rw [List.eraseDups_append]
  split
  · rename_i old
    simp [List.removeAll, old]
  · rename_i new
    simp [List.removeAll, new, List.eraseDups_cons]

theorem identity_not_mem (unmerged : ∀ entry ∈ s.entries, entry.mergesWith c = false) :
    c.identity ∉ s.entries.map Config.Value.identity := by
  intro listed
  obtain ⟨entry, present, same⟩ := List.mem_map.mp listed
  have merges := Config.Value.mergesWith_iff_identity.mpr same
  exact Bool.eq_false_iff.mp (unmerged entry present) merges

theorem distinct_append (distinct : (s.entries.map Config.Value.identity).Nodup)
    (unmerged : ∀ entry ∈ s.entries, entry.mergesWith c = false) :
    ((s.append c).entries.map Config.Value.identity).Nodup := by
  have grown : (s.append c).entries.map Config.Value.identity =
      s.entries.map Config.Value.identity ++ [c.identity] := List.map_append
  rw [grown]
  refine List.nodup_append.mpr ⟨distinct, by simp, ?_⟩
  rintro id listed _ added rfl
  exact identity_not_mem unmerged (List.mem_singleton.mp added ▸ listed)

namespace Unites

theorem mem_identities (unites : s.Unites inserted) {id : Identity} :
    id ∈ s.entries.map Config.Value.identity ↔ id ∈ inserted.map Config.Value.identity := by
  rw [unites.identities, List.mem_eraseDups]

/-- Merging into the entry of the configuration's identity. No other entry has that identity. -/
theorem mergeInto (unites : s.Unites inserted) (canonical : c.context.Canonical)
    (present : s.entries[index]? = some entry) (merges : entry.mergesWith c = true) :
    (s.mergeInto index entry c).2.Unites (inserted ++ [c]) := by
  have same := Config.Value.mergesWith_iff_identity.mp merges
  have old : c.identity ∈ s.entries.map Config.Value.identity :=
    List.mem_map.mpr ⟨entry, List.mem_of_getElem? present, same⟩
  have here : (s.entries.map Config.Value.identity)[index]? = some c.identity := by
    rw [List.getElem?_map, present, Option.map_some, same]
  have kept : (s.entries.set index (entry.absorb c)).map Config.Value.identity =
      s.entries.map Config.Value.identity :=
    map_mergeInto present (Config.Value.identity_absorb entry c)
  refine ⟨?_, kept.symm ▸ unites.distinct, ?_⟩
  · rw [List.map_append, List.map_singleton, eraseDups_snoc, if_pos (unites.mem_identities.mp old),
      ← unites.identities]
    exact kept
  intro other listed
  obtain ⟨place, found⟩ := List.mem_iff_getElem?.mp listed
  simp only [LinearSet.mergeInto, List.getElem?_set] at found
  split at found
  · rename_i at_index
    split at found
    · obtain rfl := Option.some.inj found
      exact (unites.stands entry (List.mem_of_getElem? present)).absorb same.symm canonical
    · contradiction
  · rename_i elsewhere
    apply (unites.stands other (List.mem_of_getElem? found)).other
    intro clash
    apply elsewhere
    have there : (s.entries.map Config.Value.identity)[place]? = some c.identity := by
      rw [List.getElem?_map, found, Option.map_some, clash]
    exact same_position unites.distinct here there

theorem append (unites : s.Unites inserted) (canonical : c.context.Canonical)
    (unmerged : ∀ entry ∈ s.entries, entry.mergesWith c = false) :
    (s.append c).Unites (inserted ++ [c]) := by
  have new := identity_not_mem unmerged
  have unknown := mt unites.mem_identities.mpr new
  have grown : (s.append c).entries.map Config.Value.identity =
      s.entries.map Config.Value.identity ++ [c.identity] := List.map_append
  refine ⟨?_, distinct_append unites.distinct unmerged, ?_⟩
  · rw [grown, List.map_append, List.map_singleton, eraseDups_snoc, if_neg unknown,
      unites.identities]
  · intro other listed
    rcases List.mem_append.mp listed with before | added
    · apply (unites.stands other before).other
      intro clash
      apply new
      exact List.mem_map.mpr ⟨other, before, clash.symm⟩
    · rw [List.mem_singleton.mp added]
      apply StandsFor.first canonical
      intro c' inserted same
      apply unknown
      exact List.mem_map.mpr ⟨c', inserted, same⟩

/-- Only entries matter. -/
theorem congr {t : LinearSet} (unites : s.Unites inserted) (same : t.entries = s.entries) :
    t.Unites inserted := by
  obtain ⟨identities, distinct, stands⟩ := unites
  rw [← same] at identities distinct stands
  exact ⟨identities, distinct, stands⟩

theorem insertAll (unites : s.Unites inserted) (canonical : ∀ c ∈ cs, c.context.Canonical) :
    (s.insertAll cs).Unites (inserted ++ cs) :=
  insertAll_induction mergeInto append unites canonical

end Unites

end LinearSet

end Prediction
