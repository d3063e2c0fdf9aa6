import Prediction.ConfigSet.Basic

/-!
The index of a set of configurations. Its representatives and its overflow divide the positions of
the entries among them, each representative has the key it stands for, and no two entries could be
merged. What merges configurations is their identity, so the index depends on identities alone.
-/

namespace Prediction

/-- What configurations that may be merged have in common. -/
def Config.identity (c : Config) : Config.Key × Guard := (c.key, c.guard)

theorem Config.mergesWith_iff_identity {c other : Config} :
    c.mergesWith other = true ↔ c.identity = other.identity := by
  rw [mergesWith_iff, identity, identity, Prod.mk.injEq]

abbrev Identity := Config.Key × Guard

/-- Where identities are distinct, each has one position. -/
theorem same_position {ids : List Identity} {id : Identity} {i k : Nat} (distinct : ids.Nodup)
    (here : ids[i]? = some id) (there : ids[k]? = some id) : i = k := by
  obtain ⟨within, -⟩ := List.getElem?_eq_some_iff.mp here
  exact (List.getElem?_inj within distinct).mp (here.trans there.symm)

/-- Representatives and overflow hold every position once, and a representative is an entry of its
key. A key has one representative at most, and an identity one entry. -/
structure Indexes (ids : List Identity) (representatives : List (Config.Key × Nat))
    (overflow : List Nat) : Prop where
  partition : (representatives.map (·.2) ++ overflow).Perm (List.range ids.length)
  keyed : ∀ slot ∈ representatives, (ids[slot.2]?).map (·.1) = some slot.1
  keys : (representatives.map (·.1)).Nodup
  distinct : ids.Nodup

/-- How positions move when entries are taken out: `move` gives the new position of an entry that
remains. -/
inductive Renumbers (move : Nat → Option Nat) : List Identity → List Identity → Prop
  | nil : Renumbers move [] []
  | kept {ids remaining : List Identity} {id : Identity} : Renumbers move ids remaining →
      move ids.length = some remaining.length → Renumbers move (ids ++ [id]) (remaining ++ [id])
  | dropped {ids remaining : List Identity} {id : Identity} : Renumbers move ids remaining →
      move ids.length = none → Renumbers move (ids ++ [id]) remaining

namespace Renumbers

variable {move : Nat → Option Nat} {ids remaining : List Identity}

theorem sublist (renumbers : Renumbers move ids remaining) : remaining.Sublist ids := by
  induction renumbers with
  | nil => exact .refl []
  | kept _ _ ih => exact ih.append (.refl _)
  | dropped _ _ ih => exact ih.trans (List.sublist_append_left _ _)

theorem positions (renumbers : Renumbers move ids remaining) :
    (List.range ids.length).filterMap move = List.range remaining.length := by
  induction renumbers with
  | nil => rfl
  | kept _ last ih => simp [List.range_succ, ih, last]
  | dropped _ last ih => simp [List.range_succ, ih, last]

theorem entry (renumbers : Renumbers move ids remaining) {i i' : Nat} (within : i < ids.length)
    (moved : move i = some i') : remaining[i']? = ids[i]? := by
  induction renumbers with
  | nil => contradiction
  | kept _ last ih =>
    rename_i ids remaining id _
    by_cases isLast : i = ids.length
    · subst isLast
      obtain rfl := Option.some.inj (moved.symm.trans last)
      simp
    · have earlier : i < ids.length := by simp at within; omega
      have same := ih earlier
      rw [List.getElem?_eq_getElem earlier, List.getElem?_eq_some_iff] at same
      obtain ⟨within', same⟩ := same
      rw [List.getElem?_append_left within', List.getElem?_append_left earlier, ih earlier]
  | dropped _ last ih =>
    rename_i ids remaining id _
    by_cases isLast : i = ids.length
    · subst isLast
      exact absurd (moved.symm.trans last) (by simp)
    · have earlier : i < ids.length := by simp at within; omega
      rw [List.getElem?_append_left earlier, ih earlier]

end Renumbers

namespace Indexes

variable {ids remaining : List Identity} {representatives : List (Config.Key × Nat)}
  {overflow : List Nat} {id : Identity} {i : Nat} {key : Config.Key} {move : Nat → Option Nat}

theorem empty : Indexes [] [] [] :=
  ⟨.refl _, fun _ impossible => absurd impossible List.not_mem_nil, .nil, .nil⟩

/-- Every entry is found: it represents its key, or it is in the overflow. -/
theorem listed (index : Indexes ids representatives overflow) (present : ids[i]? = some id) :
    (id.1, i) ∈ representatives ∨ i ∈ overflow := by
  obtain ⟨within, -⟩ := List.getElem?_eq_some_iff.mp present
  rcases List.mem_append.mp (index.partition.mem_iff.mpr (List.mem_range.mpr within)) with
    represents | overflows
  · obtain ⟨slot, listed, rfl⟩ := List.mem_map.mp represents
    have keyed := index.keyed slot listed
    rw [present, Option.map_some, Option.some.injEq] at keyed
    rw [keyed]
    exact .inl listed
  · exact .inr overflows

/-- The positions of representatives are not in the overflow. -/
theorem not_overflow (index : Indexes ids representatives overflow)
    (listed : (key, i) ∈ representatives) : i ∉ overflow := by
  have nodup := index.partition.nodup_iff.mpr List.nodup_range
  intro overflows
  exact (List.nodup_append.mp nodup).2.2 i (List.mem_map_of_mem listed) i overflows rfl

theorem lookup_iff (index : Indexes ids representatives overflow) :
    representatives.lookup key = some i ↔ (key, i) ∈ representatives := by
  have keys := index.keys
  clear index
  induction representatives with
  | nil => simp
  | cons slot slots ih =>
    obtain ⟨key', i'⟩ := slot
    simp only [List.map_cons, List.nodup_cons] at keys
    rw [List.lookup_cons]
    by_cases same : key = key'
    · subst same
      have absent : (key, i) ∉ slots := fun other => keys.1 (List.mem_map_of_mem other)
      simp [absent, eq_comm]
    · simp [beq_false_of_ne same, same, ih keys.2]

theorem keys_represent (keys : (representatives.map (·.1)).Nodup)
    (first : representatives.lookup key = none) :
    ((representatives ++ [(key, i)]).map (·.1)).Nodup := by
  rw [List.map_append, List.nodup_append]
  refine ⟨keys, by simp, ?_⟩
  rintro key' listed _ new rfl
  obtain ⟨slot, inTable, rfl⟩ := List.mem_map.mp listed
  have different := List.lookup_eq_none_iff.mp first slot inTable
  rw [List.mem_singleton.mp new] at different
  simp at different

/-- An entry of a key that has no representative goes on record as the representative. -/
theorem represent (index : Indexes ids representatives overflow) (new : id ∉ ids)
    (first : representatives.lookup id.1 = none) :
    Indexes (ids ++ [id]) (representatives ++ [(id.1, ids.length)]) overflow := by
  refine ⟨?_, ?_, ?_, List.nodup_append.mpr ⟨index.distinct, by simp, ?_⟩⟩
  · rw [List.length_append, List.length_singleton, List.range_succ, List.map_append,
      List.append_assoc, List.map_cons, List.map_nil]
    exact (List.perm_append_comm.append_left _).trans
      (by simpa only [List.append_assoc] using index.partition.append_right [ids.length])
  · intro slot listed
    rcases List.mem_append.mp listed with old | new
    · have keyed := index.keyed slot old
      obtain ⟨found, present, -⟩ := Option.map_eq_some_iff.mp keyed
      rw [List.getElem?_append_left (List.getElem?_eq_some_iff.mp present).1]
      exact keyed
    · rw [List.mem_singleton.mp new]
      simp
  · exact keys_represent index.keys first
  · rintro other old _ added rfl
    exact new (List.mem_singleton.mp added ▸ old)

/-- A further entry of a key that has a representative goes to the overflow. -/
theorem overflows (index : Indexes ids representatives overflow) (new : id ∉ ids) :
    Indexes (ids ++ [id]) representatives (overflow ++ [ids.length]) := by
  refine ⟨?_, ?_, index.keys, List.nodup_append.mpr ⟨index.distinct, by simp, ?_⟩⟩
  · rw [List.length_append, List.length_singleton, List.range_succ, ← List.append_assoc]
    exact index.partition.append_right _
  · intro slot listed
    have keyed := index.keyed slot listed
    obtain ⟨found, present, -⟩ := Option.map_eq_some_iff.mp keyed
    rw [List.getElem?_append_left (List.getElem?_eq_some_iff.mp present).1]
    exact keyed
  · rintro other old _ added rfl
    exact new (List.mem_singleton.mp added ▸ old)

/-- An entry of the overflow may represent its key if no other entry does. -/
theorem promote (index : Indexes ids representatives overflow) (overflows : i ∈ overflow)
    (present : ids[i]? = some id) (first : representatives.lookup id.1 = none) :
    Indexes ids (representatives ++ [(id.1, i)]) (overflow.erase i) := by
  refine ⟨?_, ?_, ?_, index.distinct⟩
  · rw [List.map_append, List.append_assoc]
    exact ((List.perm_cons_erase overflows).symm.append_left _).trans index.partition
  · intro slot listed
    rcases List.mem_append.mp listed with old | new
    · exact index.keyed slot old
    · rw [List.mem_singleton.mp new, present]
      rfl
  · exact keys_represent index.keys first

theorem renumber (index : Indexes ids representatives overflow)
    (renumbers : Renumbers move ids remaining) :
    Indexes remaining
      (representatives.filterMap fun slot => (move slot.2).map (slot.1, ·))
      (overflow.filterMap move) := by
  refine ⟨?_, ?_, ?_, index.distinct.sublist renumbers.sublist⟩
  · have moved : (representatives.filterMap fun slot => (move slot.2).map (slot.1, ·)).map (·.2) =
        (representatives.map (·.2)).filterMap move := by
      rw [List.map_filterMap, List.filterMap_map]
      congr 1
      funext slot
      simp [Option.map_map, Function.comp_def]
    rw [moved, ← List.filterMap_append, ← renumbers.positions]
    exact index.partition.filterMap move
  · intro slot listed
    obtain ⟨old, inTable, moved⟩ := List.mem_filterMap.mp listed
    obtain ⟨i', movedTo, rfl⟩ := Option.map_eq_some_iff.mp moved
    have keyed := index.keyed old inTable
    obtain ⟨found, present, -⟩ := Option.map_eq_some_iff.mp keyed
    rw [renumbers.entry (List.getElem?_eq_some_iff.mp present).1 movedTo]
    exact keyed
  · refine index.keys.sublist ?_
    clear index
    induction representatives with
    | nil => exact .refl []
    | cons slot slots ih =>
      rw [List.filterMap_cons]
      cases move slot.2 with
      | none => exact ih.cons _
      | some _ => exact ih.cons_cons _

/-- The slot of a representative is told by its key as well as by its position. -/
theorem slot_iff (index : Indexes ids representatives overflow)
    (represents : (key, i) ∈ representatives) {slot : Config.Key × Nat}
    (listed : slot ∈ representatives) : slot.1 = key ↔ slot.2 = i := by
  constructor
  · rintro rfl
    have first := index.lookup_iff.mpr represents
    have second : representatives.lookup slot.1 = some slot.2 := index.lookup_iff.mpr listed
    exact Option.some.inj (second.symm.trans first)
  · rintro rfl
    have first := index.keyed _ represents
    have second := index.keyed slot listed
    exact Option.some.inj (second.symm.trans first)

/-- Taking out the slot of a representative takes out its position. -/
theorem filter_represented (index : Indexes ids representatives overflow)
    (represents : (key, i) ∈ representatives) :
    representatives.filter (·.1 != key) = representatives.filter (·.2 != i) ∧
      overflow = overflow.filter (· != i) := by
  constructor
  · apply List.filter_congr
    intro slot listed
    rw [Bool.eq_iff_iff, bne_iff_ne, bne_iff_ne]
    exact not_congr (index.slot_iff represents listed)
  · symm
    apply List.filter_eq_self.mpr
    intro other overflows
    have different : other ≠ i := fun same => index.not_overflow represents (same ▸ overflows)
    simpa using different

/-- Taking a position out of the overflow leaves no slot with it. -/
theorem filter_overflowing (index : Indexes ids representatives overflow)
    (overflows : i ∈ overflow) :
    representatives = representatives.filter (·.2 != i) ∧
      overflow.erase i = overflow.filter (· != i) := by
  have nodup := index.partition.nodup_iff.mpr List.nodup_range
  constructor
  · symm
    apply List.filter_eq_self.mpr
    intro slot listed
    have different : slot.2 ≠ i := by
      rintro rfl
      exact index.not_overflow listed overflows
    simpa using different
  · exact (List.nodup_append.mp nodup).2.1.erase_eq_filter i

end Indexes

end Prediction
