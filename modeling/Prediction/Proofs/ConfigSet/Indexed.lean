import Mathlib.Data.List.Induction
import Mathlib.Data.List.InsertIdx
import Mathlib.Data.List.Nodup
import Prediction.ConfigSet.Cursor
import Prediction.ConfigSet.Frozen
import Prediction.Proofs.ConfigSet.Index

/-!
Every operation on a writable set keeps its index in order. With the index in order, adding a
configuration finds the one entry of its identity if there is such an entry, and a question about a
configuration is answered as if all entries had been searched.
-/

namespace Prediction

namespace Config

@[simp] theorem identity_absorb (c other : Config) : (c.absorb other).identity = c.identity := rfl

@[simp] theorem identity_withContext (c : Config) (context : Context) :
    (c.withContext context).identity = c.identity := rfl

end Config

namespace ConfigSet

/-- What each entry has in common with the configurations that may be merged into it. -/
def identities (s : ConfigSet) : List Identity := s.configs.map Config.identity

/-- The tables of the set are an index of its entries. -/
def Indexed (s : ConfigSet) : Prop := Indexes s.identities s.representatives s.overflow

variable {s : ConfigSet} {c : Config} {cs : List Config} {j : Joiner} {i : Nat}

theorem identities_getElem? (s : ConfigSet) (i : Nat) :
    s.identities[i]? = s.configs[i]?.map Config.identity := by
  rw [identities, List.getElem?_map]

theorem mergesAt_iff : s.mergesAt c i = true ↔ s.identities[i]? = some c.identity := by
  rw [mergesAt, identities_getElem?, Option.any_eq_true, Option.map_eq_some_iff]
  simp only [Config.mergesWith_iff_identity]

theorem indexed_empty : empty.Indexed := Indexes.empty

theorem indexed_starting (outermost guarded dips : Bool) :
    (starting outermost guarded dips).Indexed :=
  Indexes.empty

theorem mergeAt_of_entry {entry : Config} (present : s.configs[i]? = some entry) :
    s.mergeAt i c j =
      let joined := entry.context.join c.context j
      let changed := !joined.1.identical entry.context
      ⟨changed, { s with
        configs := s.configs.set i
          (if changed then (entry.absorb c).withContext joined.1 else entry.absorb c)
        dips := s.dips || c.reachesOuter }, joined.2⟩ := by
  simp only [mergeAt, present]

/-- Merging changes no identity and neither table. -/
theorem identities_mergeAt (s : ConfigSet) (i : Nat) (c : Config) (j : Joiner) :
    (s.mergeAt i c j).set.identities = s.identities ∧
      (s.mergeAt i c j).set.representatives = s.representatives ∧
      (s.mergeAt i c j).set.overflow = s.overflow := by
  cases present : s.configs[i]? with
  | none => simp [mergeAt, present]
  | some entry =>
    rw [mergeAt_of_entry present]
    refine ⟨?_, rfl, rfl⟩
    have same (changed : Bool) (context : Context) :
        (if changed then (entry.absorb c).withContext context else entry.absorb c).identity =
          entry.identity := by
      cases changed <;> rfl
    obtain ⟨within, rfl⟩ := List.getElem?_eq_some_iff.mp present
    apply List.ext_getElem?
    intro k
    simp only [identities, List.getElem?_map, List.getElem?_set]
    split
    · rename_i here
      subst here
      simp only [within, Option.map_some, same, List.getElem?_eq_getElem]
    · rfl

/-- Adding a configuration of an entry's identity merges it into that entry. At most the tables
are changed besides. -/
theorem insert_of_present (indexed : s.Indexed) (present : s.identities[i]? = some c.identity) :
    ∃ representatives overflow, Indexes s.identities representatives overflow ∧
      s.insert c j = { s.mergeAt i c j with
        set := { (s.mergeAt i c j).set with representatives, overflow } } := by
  have only {k : Nat} (merges : s.mergesAt c k = true) : k = i :=
    same_position indexed.distinct (mergesAt_iff.mp merges) present
  obtain ⟨-, sameRepresentatives, sameOverflow⟩ := identities_mergeAt s i c j
  have kept : s.mergeAt i c j = { s.mergeAt i c j with set := { (s.mergeAt i c j).set with
      representatives := s.representatives, overflow := s.overflow } } := by
    rw [← sameRepresentatives, ← sameOverflow]
  unfold insert
  split
  · rename_i k found
    obtain ⟨-, merges⟩ := Option.filter_eq_some_iff.mp found
    obtain rfl := only merges
    exact ⟨s.representatives, s.overflow, indexed, kept⟩
  · rename_i notRepresented
    have overflows : i ∈ s.overflow := by
      rcases indexed.listed present with represents | overflows
      · have found : s.representative? c.key = some i := indexed.lookup_iff.mpr represents
        rw [found, Option.filter_some, if_pos (mergesAt_iff.mpr present)] at notRepresented
        contradiction
      · exact overflows
    split
    · rename_i k found
      obtain rfl := only (List.find?_some found)
      dsimp only
      split
      · rename_i first
        refine ⟨s.representatives ++ [(c.key, k)], s.overflow.erase k,
          indexed.promote overflows present (Option.isNone_iff_eq_none.mp first), ?_⟩
        rw [promote, sameRepresentatives, sameOverflow]
      · exact ⟨s.representatives, s.overflow, indexed, kept⟩
    · rename_i missing
      exact absurd (mergesAt_iff.mpr present) (List.find?_eq_none.mp missing i overflows)

/-- Adding a configuration of a new identity appends it. -/
theorem insert_of_new (new : c.identity ∉ s.identities) : s.insert c j = ⟨true, s.append c, j⟩ := by
  have nowhere (k : Nat) : s.mergesAt c k = false := by
    rw [Bool.eq_false_iff]
    intro merges
    exact new (List.mem_of_getElem? (mergesAt_iff.mp merges))
  have notRepresented : (s.representative? c.key).filter (s.mergesAt c) = none :=
    Option.filter_eq_none_iff.mpr fun k _ => by simp [nowhere]
  have notInOverflow : s.overflow.find? (s.mergesAt c) = none :=
    List.find?_eq_none.mpr fun k _ => by simp [nowhere]
  simp only [insert, notRepresented, notInOverflow]

/-- An insertion merges into the one entry of the configuration's identity, or appends an entry if
there is none. -/
theorem insert_cases (indexed : s.Indexed) (c : Config) (j : Joiner) :
    (∃ i entry, s.configs[i]? = some entry ∧ entry.mergesWith c = true ∧
        (s.insert c j).changed = (s.mergeAt i c j).changed ∧
        (s.insert c j).set.toConfigContents = (s.mergeAt i c j).set.toConfigContents) ∨
      (∀ entry ∈ s.configs, entry.mergesWith c = false) ∧ s.insert c j = ⟨true, s.append c, j⟩ := by
  by_cases listed : c.identity ∈ s.identities
  · obtain ⟨i, identity⟩ := List.mem_iff_getElem?.mp listed
    obtain ⟨representatives, overflow, -, inserted⟩ := insert_of_present (j := j) indexed identity
    rw [identities_getElem?, Option.map_eq_some_iff] at identity
    obtain ⟨entry, present, same⟩ := identity
    rw [inserted]
    exact .inl ⟨i, entry, present, Config.mergesWith_iff_identity.mpr same, rfl, rfl⟩
  · refine .inr ⟨?_, insert_of_new listed⟩
    intro entry present
    rw [Bool.eq_false_iff]
    intro merges
    exact listed (List.mem_map.mpr ⟨entry, present, Config.mergesWith_iff_identity.mp merges⟩)

/-- The entries that one configuration may be merged into are one at most. -/
theorem eq_of_mergesWith {entry other : Config} (indexed : s.Indexed) (listed : entry ∈ s.configs)
    (merges : entry.mergesWith c = true) (listed' : other ∈ s.configs)
    (merges' : other.mergesWith c = true) : other = entry := by
  apply List.inj_on_of_nodup_map indexed.distinct listed' listed
  exact (Config.mergesWith_iff_identity.mp merges').trans
    (Config.mergesWith_iff_identity.mp merges).symm

theorem identities_append (s : ConfigSet) (c : Config) :
    (s.append c).identities = s.identities ++ [c.identity] := by
  simp [append, identities]

theorem indexed_append (indexed : s.Indexed) (new : c.identity ∉ s.identities) :
    (s.append c).Indexed := by
  have position : s.identities.length = s.size := List.length_map _
  rw [Indexed, identities_append]
  unfold append
  cases found : s.representative? c.key with
  | none => exact position ▸ indexed.represent new found
  | some _ => exact position ▸ indexed.overflows new

/-- Adding keeps the index in order, whatever it is joined with. -/
theorem indexed_insert (indexed : s.Indexed) (c : Config) (j : Joiner) :
    (s.insert c j).set.Indexed := by
  by_cases new : c.identity ∈ s.identities
  · obtain ⟨i, present⟩ := List.mem_iff_getElem?.mp new
    obtain ⟨representatives, overflow, index, inserted⟩ :=
      insert_of_present (j := j) indexed present
    obtain ⟨sameIdentities, -, -⟩ := identities_mergeAt s i c j
    rw [inserted]
    rw [← sameIdentities] at index
    exact index
  · rw [insert_of_new new]
    exact indexed_append indexed new

theorem indexed_add {step : Insertion} (indexed : s.Indexed) (added : s.add c j = .ok step) :
    step.set.Indexed := by
  unfold add at added
  split at added
  · contradiction
  · obtain rfl := Except.ok.inj added
    exact indexed_insert indexed c j

theorem indexed_addAll (indexed : s.Indexed) (cs : List Config) (j : Joiner) :
    (s.addAll cs j).2.1.Indexed := by
  induction cs generalizing s j with
  | nil => exact indexed
  | cons c cs ih =>
    unfold addAll
    split
    · exact indexed
    · rename_i step added
      exact ih (indexed_add indexed added) step.joiner

theorem indexed_clear (s : ConfigSet) : s.clear.Indexed := indexed_starting _ _ _

theorem eq_of_setOutermost {later : ConfigSet} {outermost : Bool}
    (set : s.setOutermost outermost = .ok later) : later = { s with outermost } := by
  unfold setOutermost at set
  split at set
  · contradiction
  · split at set
    · contradiction
    · exact (Except.ok.inj set).symm

theorem indexed_setOutermost {later : ConfigSet} {outermost : Bool} (indexed : s.Indexed)
    (set : s.setOutermost outermost = .ok later) : later.Indexed := by
  rw [eq_of_setOutermost set]
  exact indexed

theorem indexed_internContexts (indexed : s.Indexed) (n : Network) (supply : Supply) :
    (s.internContexts n supply).1.Indexed := by
  have same : (s.internContexts n supply).1.identities = s.identities := by
    simp only [internContexts, identities]
    generalize s.configs = configs
    clear indexed
    induction configs generalizing n supply with
    | nil => rfl
    | cons c cs ih => simp only [internAll, List.map_cons, Config.identity_withContext, ih]
  rw [Indexed, same]
  exact indexed

/-- Where an entry is once the one at `index` is gone. -/
def remaining (index slot : Nat) : Option Nat :=
  if slot = index then none else some (remove.shift index slot)

theorem renumbers_eraseIdx (ids : List Identity) (index : Nat) :
    Renumbers (remaining index) ids (ids.eraseIdx index) := by
  induction ids using List.reverseRecOn with
  | nil => exact .nil
  | append_singleton ids id ih =>
    rcases Nat.lt_trichotomy index ids.length with before | rfl | beyond
    · rw [List.eraseIdx_append_of_lt_length before]
      refine .kept ih ?_
      have other : ids.length ≠ index := by omega
      rw [remaining, if_neg other, remove.shift, if_pos before, List.length_eraseIdx_of_lt before]
    · have whole : (ids ++ [id]).eraseIdx ids.length = ids := by
        simp [List.eraseIdx_append_of_length_le]
      rw [whole]
      rw [List.eraseIdx_of_length_le (Nat.le_refl _)] at ih
      exact .dropped ih (if_pos rfl)
    · rw [List.eraseIdx_of_length_le (Nat.le_of_lt beyond)] at ih
      rw [List.eraseIdx_of_length_le (by simp; omega)]
      refine .kept ih ?_
      have other : ids.length ≠ index := by omega
      have notAfter : ¬ index < ids.length := by omega
      rw [remaining, if_neg other, remove.shift, if_neg notAfter]

theorem filterMap_remaining {α β : Type} (index : Nat) (position : α → Nat) (place : α → Nat → β)
    (slots : List α) :
    (slots.filterMap fun slot => (remaining index (position slot)).map (place slot)) =
      (slots.filter (position · != index)).map fun slot =>
        place slot (remove.shift index (position slot)) := by
  induction slots with
  | nil => rfl
  | cons slot slots ih =>
    rw [List.filterMap_cons, ih]
    by_cases gone : position slot = index <;> simp [remaining, gone]

/-- The set with other entries. The tables are renumbered, and slots of entries that are gone are
left out. -/
def renumbered (s : ConfigSet) (configs : List Config) (move : Nat → Option Nat) : ConfigSet :=
  { s with
    configs
    representatives := s.representatives.filterMap fun slot => (move slot.2).map (slot.1, ·)
    overflow := s.overflow.filterMap move }

theorem indexed_renumbered {configs : List Config} {move : Nat → Option Nat} (indexed : s.Indexed)
    (renumbers : Renumbers move s.identities (configs.map Config.identity)) :
    (s.renumbered configs move).Indexed :=
  indexed.renumber renumbers

/-- Only one position has to be taken out of the tables. If it was that of a representative, it is
in the slot of its key. -/
theorem eq_of_remove {later : ConfigSet} {index : Nat} (indexed : s.Indexed)
    (removed : s.remove index = .ok (c, later)) :
    later = s.renumbered (s.configs.eraseIdx index) (remaining index) := by
  obtain ⟨present, -⟩ := configs_of_remove removed
  have identity : s.identities[index]? = some c.identity := by
    rw [identities_getElem?, present, Option.map_some]
  have representatives := filterMap_remaining index Prod.snd
    (fun slot : Config.Key × Nat => Prod.mk slot.1) s.representatives
  have overflow := filterMap_remaining index id (fun _ slot => slot) s.overflow
  simp only [id_eq, Option.map_id'] at overflow
  rw [renumbered, representatives, overflow]
  simp only [remove, present] at removed
  obtain ⟨-, rfl⟩ := Prod.mk.inj (Except.ok.inj removed)
  rcases indexed.listed identity with (represents : (c.key, index) ∈ _) | overflows
  · have found : s.representative? c.key = some index := indexed.lookup_iff.mpr represents
    obtain ⟨inTable, inOverflow⟩ := indexed.filter_represented represents
    rw [← inTable, ← inOverflow]
    simp [found]
  · have found : s.representative? c.key ≠ some index := fun represents =>
      indexed.not_overflow (indexed.lookup_iff.mp represents) overflows
    obtain ⟨inTable, inOverflow⟩ := indexed.filter_overflowing overflows
    rw [← inTable, ← inOverflow]
    simp [found]

theorem indexed_remove {later : ConfigSet} {index : Nat} (indexed : s.Indexed)
    (removed : s.remove index = .ok (c, later)) : later.Indexed := by
  have renumbers := renumbers_eraseIdx s.identities index
  rw [identities, List.eraseIdx_map] at renumbers
  exact eq_of_remove indexed removed ▸ indexed_renumbered indexed renumbers

/-- The visible entries of a front part are numbered as they are in the whole. -/
theorem renumbers_front (s : ConfigSet) (front back : List Config)
    (whole : s.configs = front ++ back) :
    Renumbers s.visiblePosition? (front.map Config.identity)
      ((front.filter fun c => !c.hidden).map Config.identity) := by
  induction front using List.reverseRecOn generalizing back with
  | nil => exact .nil
  | append_singleton front c ih =>
    have earlier := ih (c :: back) (by simp [whole])
    have here : s.visiblePosition? front.length =
        if c.hidden then none else some (front.filter fun c => !c.hidden).length := by
      simp [visiblePosition?, whole, List.countP_eq_length_filter]
    rw [List.map_append, List.filter_append]
    cases hidden : c.hidden with
    | true =>
      simp only [hidden, if_true] at here
      simpa [hidden] using earlier.dropped (by simpa using here)
    | false =>
      simp only [hidden] at here
      simpa [hidden] using earlier.kept (by simpa using here)

theorem indexed_dropHidden (indexed : s.Indexed) : s.dropHidden.Indexed := by
  unfold dropHidden
  split
  · exact indexed_renumbered indexed (renumbers_front s s.configs [] (by simp))
  · exact indexed

/-- A cursor removes an entry of the set that it walks over. -/
theorem remove_of_cursor {k later : Cursor} (removed : k.remove = .ok (c, later)) :
    ∃ index, k.set.remove index = .ok (c, later.set) := by
  simp only [Cursor.remove] at removed
  cases place : k.state with
  | fresh => simp [place] at removed
  | removed index => simp [place] at removed
  | produced index =>
    cases outcome : k.set.remove index with
    | error refusal => simp [place, outcome] at removed
    | ok taken =>
      simp only [place, outcome] at removed
      obtain ⟨rfl, rfl⟩ := Prod.mk.inj (Except.ok.inj removed)
      exact ⟨index, outcome⟩

theorem indexed_cursor_remove {k later : Cursor} (indexed : k.set.Indexed)
    (removed : k.remove = .ok (c, later)) : later.set.Indexed := by
  obtain ⟨index, taken⟩ := remove_of_cursor removed
  exact indexed_remove indexed taken

theorem inOverflow_iff : contains.inOverflow s c = true ↔
    ∃ i ∈ s.overflow, ∃ entry, s.configs[i]? = some entry ∧ entry.covers c = true := by
  simp only [contains.inOverflow, List.any_eq_true, Option.any_eq_true]

/-- An entry at a position is the one that stands for the configuration if the two may be merged. -/
theorem identity_at {entry : Config} (present : s.configs[i]? = some entry)
    (merges : entry.mergesWith c = true) : s.identities[i]? = some c.identity := by
  rw [identities_getElem?, present, Option.map_some, Config.mergesWith_iff_identity.mp merges]

/-- Whether an entry covers a configuration is found out without searching all entries. -/
theorem contains_iff (indexed : s.Indexed) :
    s.contains c = true ↔ ∃ entry ∈ s.configs, entry.covers c = true := by
  constructor
  · intro answer
    unfold contains at answer
    have searched : contains.inOverflow s c = true →
        ∃ entry ∈ s.configs, entry.covers c = true := by
      intro found
      obtain ⟨i, -, entry, present, covers⟩ := inOverflow_iff.mp found
      exact ⟨entry, List.mem_of_getElem? present, covers⟩
    split at answer
    · rename_i entry found
      obtain ⟨i, -, present⟩ := Option.bind_eq_some_iff.mp found
      split at answer
      · exact ⟨entry, List.mem_of_getElem? present, answer⟩
      · exact searched answer
    · exact searched answer
  · rintro ⟨entry, listed, covers⟩
    obtain ⟨i, present⟩ := List.mem_iff_getElem?.mp listed
    have merges : entry.mergesWith c = true := (Bool.and_eq_true_iff.mp covers).1
    have identity := identity_at present merges
    unfold contains
    rcases indexed.listed identity with represents | overflows
    · have found : s.representative? c.key = some i := indexed.lookup_iff.mpr represents
      simp [found, present, merges, covers]
    · have searched : contains.inOverflow s c = true :=
        inOverflow_iff.mpr ⟨i, overflows, entry, present, covers⟩
      split
      · rename_i other found
        obtain ⟨k, represents, present'⟩ := Option.bind_eq_some_iff.mp found
        split
        · rename_i merges'
          obtain rfl := same_position indexed.distinct (identity_at present' merges') identity
          exact absurd overflows (indexed.not_overflow (indexed.lookup_iff.mp represents))
        · exact searched
      · exact searched

theorem contains_eq_any (indexed : s.Indexed) : s.contains c = s.configs.any (·.covers c) := by
  rw [Bool.eq_iff_iff, contains_iff indexed, List.any_eq_true]

end ConfigSet

namespace FrozenSet

/-- A thawed set is what adding all entries to a new set led to. -/
theorem eq_of_thaw {f : FrozenSet} {j : Joiner} {s : ConfigSet} (thawed : (f.thaw j).1 = .ok s) :
    s = ((ConfigSet.starting f.outermost f.guarded f.dips).addAll f.configs j).2.1 := by
  simp only [thaw] at thawed
  cases outcome : ((ConfigSet.starting f.outermost f.guarded f.dips).addAll f.configs j).1 with
  | error refusal => simp [outcome, Except.map] at thawed
  | ok changed =>
    rw [outcome] at thawed
    exact (Except.ok.inj thawed).symm

theorem indexed_thaw {f : FrozenSet} {j : Joiner} {s : ConfigSet}
    (thawed : (f.thaw j).1 = .ok s) : s.Indexed := by
  rw [eq_of_thaw thawed]
  exact ConfigSet.indexed_addAll (ConfigSet.indexed_starting _ _ _) f.configs j

end FrozenSet

end Prediction
