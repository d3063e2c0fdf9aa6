import Prediction.Proofs.ConfigSet.Summary
import Prediction.Proofs.Tree.Stacks

/-!
What a linear set records of the configurations of one identity, whichever of them came first. It is
the same for all orders of insertion, and so is what is known of all configurations together. Only
where an entry stands, and whether it is hidden or reaches further out, is up to the order.
-/

namespace Prediction

structure Config.Record where
  identity : Identity
  context : Tree
  depth : UInt32
  suppressed : Bool

def Config.Value.record (c : Config.Value) : Config.Record :=
  ⟨c.identity, c.context, c.depth, c.suppressed⟩

namespace Config.Value

variable {inserted inserted' : List Config.Value} {entry entry' : Config.Value}

/-- What an entry stands for says what is recorded. Contexts that allow the same stacks are equal,
as they are proper. -/
theorem StandsFor.record_eq (stands : entry.StandsFor inserted)
    (stands' : entry'.StandsFor inserted') (same : ∀ c, c ∈ inserted ↔ c ∈ inserted')
    (identity : entry.identity = entry'.identity) (proper : entry.context.Proper)
    (proper' : entry'.context.Proper) : entry.record = entry'.record := by
  have context : entry.context = entry'.context := by
    apply Tree.eq_of_allows stands.canonical stands'.canonical proper proper'
    intro stack
    simp only [stands.allows, stands'.allows, same, identity]
  have depth : entry.depth = entry'.depth := by
    obtain ⟨c, present, isSame, attained⟩ := stands.depth_eq
    obtain ⟨c', present', isSame', attained'⟩ := stands'.depth_eq
    have below := stands'.depth_le c ((same c).mp present) (isSame.trans identity)
    have above := stands.depth_le c' ((same c').mpr present') (isSame'.trans identity.symm)
    rw [attained] at below
    rw [attained'] at above
    exact UInt32.le_antisymm below above
  have suppressed : entry.suppressed = entry'.suppressed := by
    rw [Bool.eq_iff_iff, stands.suppressed, stands'.suppressed]
    simp only [same, identity]
  rw [record, record, identity, context, depth, suppressed]

end Config.Value

namespace LinearSet

variable {s t : LinearSet} {inserted inserted' cs : List Config.Value}

def Proper (s : LinearSet) : Prop := ∀ entry ∈ s.entries, entry.context.Proper

theorem Proper.insertAll (proper : s.Proper) (all : ∀ c ∈ cs, c.context.Proper) :
    (s.insertAll cs).Proper := by
  refine @insertAll_induction s [] cs (fun s _ => s.Proper) _ ?_ ?_ proper all
  · intro s _ c entry index before admitted present _ other listed
    rcases List.mem_or_eq_of_mem_set listed with old | rfl
    · exact before other old
    · exact Tree.proper_join (before entry (List.mem_of_getElem? present)) admitted
  · intro s _ c before admitted _ other listed
    rcases List.mem_append.mp listed with old | new
    · exact before other old
    · exact List.mem_singleton.mp new ▸ admitted

theorem Unites.mem_records (unites : s.Unites inserted) (unites' : t.Unites inserted')
    (same : ∀ c, c ∈ inserted ↔ c ∈ inserted') (proper : s.Proper) (proper' : t.Proper)
    {record : Config.Record} (listed : record ∈ s.entries.map Config.Value.record) :
    record ∈ t.entries.map Config.Value.record := by
  obtain ⟨entry, present, rfl⟩ := List.mem_map.mp listed
  have identities : entry.identity ∈ t.entries.map Config.Value.identity := by
    have before := unites.mem_identities.mp (List.mem_map_of_mem present)
    obtain ⟨c, old, identity⟩ := List.mem_map.mp before
    exact unites'.mem_identities.mpr (List.mem_map.mpr ⟨c, (same c).mp old, identity⟩)
  obtain ⟨entry', present', identity⟩ := List.mem_map.mp identities
  have recorded := (unites'.stands entry' present').record_eq (unites.stands entry present)
    (fun c => (same c).symm) identity (proper' entry' present') (proper entry present)
  exact List.mem_map.mpr ⟨entry', present', recorded⟩

theorem Unites.nodup_records (unites : s.Unites inserted) :
    (s.entries.map Config.Value.record).Nodup := by
  have distinct := unites.distinct
  have identities : s.entries.map Config.Value.identity =
      (s.entries.map Config.Value.record).map (·.identity) := by
    rw [List.map_map]
    rfl
  rw [identities] at distinct
  exact (List.pairwise_map.mp distinct).imp fun different => mt (congrArg _) different

theorem Unites.records_perm (unites : s.Unites inserted) (unites' : t.Unites inserted')
    (same : ∀ c, c ∈ inserted ↔ c ∈ inserted') (proper : s.Proper) (proper' : t.Proper) :
    (s.entries.map Config.Value.record).Perm (t.entries.map Config.Value.record) := by
  refine (List.perm_ext_iff_of_nodup unites.nodup_records unites'.nodup_records).mpr ?_
  intro record
  exact ⟨unites.mem_records unites' same proper proper',
    unites'.mem_records unites (fun c => (same c).symm) proper' proper⟩

/-- Two sets record the same and know the same of their configurations. -/
structure SameRecords (s t : LinearSet) : Prop where
  records : (s.entries.map Config.Value.record).Perm (t.entries.map Config.Value.record)
  uniqueAlt : s.uniqueAlt = t.uniqueAlt
  guarded : s.guarded = t.guarded
  dips : s.dips = t.dips

theorem Summarizes.congr {guarded dips : Bool} (summarizes : s.Summarizes guarded dips inserted)
    (summarizes' : t.Summarizes guarded dips inserted') (perm : inserted.Perm inserted') :
    s.uniqueAlt = t.uniqueAlt ∧ s.guarded = t.guarded ∧ s.dips = t.dips := by
  refine ⟨Option.ext ?_, ?_, ?_⟩
  · intro alt
    have nothing : inserted = [] ↔ inserted' = [] := by
      rw [← List.length_eq_zero_iff, perm.length_eq, List.length_eq_zero_iff]
    rw [summarizes.uniqueAlt, summarizes'.uniqueAlt]
    simp only [ne_eq, nothing, perm.mem_iff]
  · rw [summarizes.guarded, summarizes'.guarded, perm.any_eq]
  · rw [summarizes.dips, summarizes'.dips, perm.any_eq]

/-- The order in which configurations are inserted into new sets does not matter. -/
theorem sameRecords_of_perm (perm : inserted.Perm inserted')
    (canonical : ∀ c ∈ inserted, c.context.Canonical) (proper : ∀ c ∈ inserted, c.context.Proper) :
    (empty.insertAll inserted).SameRecords (empty.insertAll inserted') := by
  have canonical' : ∀ c ∈ inserted', c.context.Canonical :=
    fun c listed => canonical c (perm.mem_iff.mpr listed)
  have proper' : ∀ c ∈ inserted', c.context.Proper :=
    fun c listed => proper c (perm.mem_iff.mpr listed)
  have start : empty.Proper := fun entry listed => absurd listed List.not_mem_nil
  have known := summarizes_starting false false false
  obtain ⟨uniqueAlt, guarded, dips⟩ :=
    (known.insertAll inserted).congr (known.insertAll inserted') perm
  exact ⟨(unites_empty.insertAll canonical).records_perm (unites_empty.insertAll canonical')
    (fun c => perm.mem_iff) (start.insertAll proper) (start.insertAll proper'),
    uniqueAlt, guarded, dips⟩

end LinearSet

end Prediction
