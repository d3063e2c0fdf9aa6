import Prediction.Proofs.ConfigSet.Indexed
import Prediction.Proofs.ConfigSet.Linear
import Prediction.Proofs.Context.Stacks
import Prediction.Proofs.Network.Intern

/-!
Operations on sets of configurations commute with their meaning as linear sets. For each operation
there is one equation, and where contexts are built or joined on the way, what is known grows.
-/

namespace Prediction

open Context

/-- The contexts of all entries are known. -/
def ConfigContents.Known (known : Set Context) (s : ConfigContents) : Prop :=
  ∀ c ∈ s.configs, c.context ∈ known

theorem ConfigContents.Known.mono {known wider : Set Context} {s : ConfigContents}
    (within : s.Known known) (included : known ⊆ wider) : s.Known wider :=
  fun c present => included (within c present)

/-- Searching all entries gives the answer of the linear set. -/
theorem any_covers_linear {known : Set Context} {supply : Supply} {s : ConfigContents} {c : Config}
    (coherent : Coherent supply known) (within : s.Known known) (context : c.context ∈ known) :
    s.configs.any (·.covers c) = s.linear.contains c.value := by
  rw [LinearSet.contains, ConfigContents.linear, List.any_map, Bool.eq_iff_iff, List.any_eq_true,
    List.any_eq_true]
  refine exists_congr fun entry => and_congr_right fun present => ?_
  have same : entry.covers c = entry.value.covers c.value :=
    congrArg _ (covers_eq coherent (within entry present) context)
  exact Bool.eq_iff_iff.mp same

namespace ConfigSet

/-- An insertion gave what a linear set gives, and what is known grew by it. -/
structure Insertion.Realizes (known : Set Context) (result : Bool × LinearSet)
    (step : Insertion) : Prop where
  changed : step.changed = result.1
  set : step.set.linear = result.2
  sound : ∃ wider, known ⊆ wider ∧ Joiner.Sound wider step.joiner ∧ step.set.Known wider

variable {known : Set Context} {s : ConfigSet} {c entry : Config} {j : Joiner} {i : Nat}

/-- Joins of entries are other instances exactly if they have other values. -/
theorem changed_iff (sound : j.Sound known) {a b : Context} (left : a ∈ known) (right : b ∈ known) :
    (a.join b j).1.identical a = true ↔ a.tree.join b.tree = a.tree := by
  obtain ⟨⟨wider, included, sound', present, value⟩, kept, -⟩ := joinable a sound left right
  constructor
  · intro same
    rw [← value, sound'.coherent.eq_of_identical present (included left) same]
  · intro same
    rw [kept (value.trans same)]
    exact identical_self a

theorem mergeAt_realizes (sound : j.Sound known) (within : s.Known known)
    (present : s.configs[i]? = some entry) (context : c.context ∈ known) :
    (s.mergeAt i c j).Realizes known (s.linear.mergeInto i entry.value c.value) := by
  have left := within entry (List.mem_of_getElem? present)
  obtain ⟨⟨wider, included, sound', joined, value⟩, -⟩ := joinable entry.context sound left context
  have unchanged := changed_iff sound left context
  rw [mergeAt_of_entry present]
  generalize entry.context.join c.context j = step at *
  dsimp only
  generalize identical_eq : step.1.identical entry.context = same at *
  have merged : (if !same then (entry.absorb c).withContext step.1 else entry.absorb c).value =
      entry.value.absorb c.value := by
    cases same with
    | false => simp [Config.value, Config.Value.absorb, Config.absorb, Config.withContext, value]
    | true => simp [Config.value, Config.Value.absorb, Config.absorb, unchanged.mp rfl]
  refine ⟨?_, ?_, wider, included, sound', ?_⟩
  · rw [Bool.eq_iff_iff, LinearSet.mergeInto, bne_iff_ne, ne_eq, Bool.not_eq_true']
    rw [← Bool.not_eq_true]
    exact not_congr unchanged
  · simp only [LinearSet.mergeInto, ConfigContents.linear, List.map_set, merged]
    rfl
  · intro c' present'
    rcases List.mem_or_eq_of_mem_set present' with old | rfl
    · exact included (within c' old)
    · split
      · exact joined
      · exact included left

theorem find?_linear (indexed : s.Indexed) (present : s.configs[i]? = some entry)
    (same : entry.identity = c.identity) : s.linear.find? c.value = some (entry.value, i) := by
  have listed : (entry.value, i) ∈ s.linear.entries.zipIdx := by
    rw [List.mem_zipIdx_iff_getElem?, ConfigContents.linear, List.getElem?_map, present]
    rfl
  have merges : entry.value.mergesWith c.value = true := Config.mergesWith_iff_identity.mpr same
  unfold LinearSet.find?
  cases found : s.linear.entries.zipIdx.find? fun entry => entry.1.mergesWith c.value with
  | none => exact absurd merges (List.find?_eq_none.mp found _ listed)
  | some other =>
    obtain ⟨value, k⟩ := other
    have place := List.mem_of_find?_eq_some found
    rw [List.mem_zipIdx_iff_getElem?, ConfigContents.linear, List.getElem?_map,
      Option.map_eq_some_iff] at place
    obtain ⟨rival, present', rfl⟩ := place
    have merges' := List.find?_some found
    have same' : rival.identity = c.identity := Config.mergesWith_iff_identity.mp merges'
    have first : s.identities[i]? = some c.identity := by
      rw [identities_getElem?, present, Option.map_some, same]
    have second : s.identities[k]? = some c.identity := by
      rw [identities_getElem?, present', Option.map_some, same']
    obtain rfl := same_position indexed.distinct first second
    obtain rfl := Option.some.inj (present.symm.trans present')
    rfl

theorem find?_linear_eq_none (new : c.identity ∉ s.identities) : s.linear.find? c.value = none := by
  apply List.find?_eq_none.mpr
  intro entry listed merges
  have place := List.mem_of_getElem? (List.mem_zipIdx_iff_getElem?.mp listed)
  obtain ⟨rival, present, value⟩ := List.mem_map.mp place
  rw [← value] at merges
  exact new (List.mem_map.mpr ⟨rival, present, Config.mergesWith_iff_identity.mp merges⟩)

theorem append_linear (s : ConfigSet) (c : Config) :
    (s.append c).linear = s.linear.append c.value := by
  simp only [append, LinearSet.append, ConfigContents.linear, List.map_append, List.map_cons,
    List.map_nil, uniqueAltAfter, LinearSet.uniqueAltAfter, List.isEmpty_map]
  rfl

theorem insert_realizes (indexed : s.Indexed) (sound : j.Sound known) (within : s.Known known)
    (context : c.context ∈ known) :
    (s.insert c j).Realizes known (s.linear.insert c.value) := by
  by_cases listed : c.identity ∈ s.identities
  · obtain ⟨i, identity⟩ := List.mem_iff_getElem?.mp listed
    obtain ⟨representatives, overflow, -, inserted⟩ :=
      insert_of_present (j := j) indexed identity
    rw [identities_getElem?, Option.map_eq_some_iff] at identity
    obtain ⟨entry, present, same⟩ := identity
    obtain ⟨changed, set, sound'⟩ := mergeAt_realizes sound within present context
    rw [inserted, LinearSet.insert, find?_linear indexed present same]
    exact ⟨changed, set, sound'⟩
  · rw [insert_of_new listed, LinearSet.insert, find?_linear_eq_none listed]
    refine ⟨rfl, append_linear s c, known, subset_rfl, sound, ?_⟩
    intro c' present
    rcases List.mem_append.mp present with old | new
    · exact within c' old
    · rw [List.mem_singleton.mp new]
      exact context

theorem add_realizes (indexed : s.Indexed) (sound : j.Sound known) (within : s.Known known)
    (context : c.context ∈ known) :
    (∃ refusal, s.add c j = .error refusal ∧ s.linear.add c.value = .error refusal) ∨
      ∃ step result, s.add c j = .ok step ∧ s.linear.add c.value = .ok result ∧
        step.set.Indexed ∧ step.Realizes known result := by
  have same : s.linear.refusal? c.value = s.refusal? c := rfl
  unfold add LinearSet.add
  rw [same]
  cases s.refusal? c with
  | some refusal => exact .inl ⟨refusal, rfl, rfl⟩
  | none => exact .inr ⟨_, _, rfl, rfl, indexed_insert indexed c j,
      insert_realizes indexed sound within context⟩

/-- Adding many configurations, all of them or up to the first refused one. -/
theorem addAll_realizes {cs : List Config} (indexed : s.Indexed) (sound : j.Sound known)
    (within : s.Known known) (contexts : ∀ c ∈ cs, c.context ∈ known) :
    (s.addAll cs j).1 = (s.linear.addAll (cs.map Config.value)).1 ∧
      (s.addAll cs j).2.1.linear = (s.linear.addAll (cs.map Config.value)).2 ∧
      ∃ wider, known ⊆ wider ∧ Joiner.Sound wider (s.addAll cs j).2.2 ∧
        (s.addAll cs j).2.1.Known wider := by
  induction cs generalizing s j known with
  | nil => exact ⟨rfl, rfl, known, subset_rfl, sound, within⟩
  | cons c cs ih =>
    obtain ⟨first, others⟩ := List.forall_mem_cons.mp contexts
    simp only [addAll, List.map_cons, LinearSet.addAll]
    rcases add_realizes indexed sound within first with
      ⟨refusal, refused, refused'⟩ | ⟨step, result, added, added', indexed', realizes⟩
    · rw [refused, refused']
      exact ⟨rfl, rfl, known, subset_rfl, sound, within⟩
    · obtain ⟨changed, set, middle, upward, sound', within'⟩ := realizes
      obtain ⟨answer, final, wider, included, sound'', within''⟩ :=
        ih indexed' sound' within' fun c' present => upward (others c' present)
      rw [added, added']
      rw [set] at answer final
      dsimp only
      rw [answer, final, changed]
      exact ⟨rfl, rfl, wider, upward.trans included, sound'', within''⟩

theorem contains_linear (indexed : s.Indexed) {supply : Supply} (coherent : Coherent supply known)
    (within : s.Known known) (context : c.context ∈ known) :
    s.contains c = s.linear.contains c.value := by
  rw [contains_eq_any indexed, any_covers_linear coherent within context]

theorem remove_linear (s : ConfigSet) (index : Nat) :
    (s.remove index).map (fun taken => (taken.1.value, taken.2.linear)) =
      s.linear.remove index := by
  have entry : s.linear.entries[index]? = s.configs[index]?.map Config.value :=
    List.getElem?_map
  unfold LinearSet.remove
  rw [entry]
  cases present : s.configs[index]? with
  | none => simp [remove, present, Except.map, ConfigContents.linear]
  | some c =>
    simp [remove, present, Except.map, ConfigContents.linear, ← List.eraseIdx_map]

theorem Known.remove {later : ConfigSet} {index : Nat} (within : s.Known known)
    (removed : s.remove index = .ok (c, later)) : c.context ∈ known ∧ later.Known known := by
  obtain ⟨present, entries⟩ := configs_of_remove removed
  refine ⟨within c (List.mem_of_getElem? present), fun c' listed => within c' ?_⟩
  rw [entries] at listed
  exact List.mem_of_mem_eraseIdx listed

theorem Known.dropHidden (within : s.Known known) : s.dropHidden.Known known := by
  intro c present
  rw [configs_dropHidden] at present
  exact within c ((List.mem_filter.mp present).1)

theorem Known.setOutermost {later : ConfigSet} {outermost : Bool} (within : s.Known known)
    (set : s.setOutermost outermost = .ok later) : later.Known known := by
  rw [eq_of_setOutermost set]
  exact within

theorem known_cursor_remove {k later : Cursor} (within : k.set.Known known)
    (removed : k.remove = .ok (c, later)) : later.set.Known known := by
  obtain ⟨index, taken⟩ := remove_of_cursor removed
  exact (Known.remove within taken).2

theorem dropHidden_linear (s : ConfigSet) : s.dropHidden.linear = s.linear.dropHidden := by
  have entries : s.dropHidden.configs.map Config.value =
      (s.configs.map Config.value).filter fun c => !c.hidden := by
    rw [configs_dropHidden, List.filter_map]
    rfl
  unfold LinearSet.dropHidden ConfigContents.linear
  rw [entries]
  unfold dropHidden
  split <;> rfl

theorem setOutermost_linear (s : ConfigSet) (outermost : Bool) :
    (s.setOutermost outermost).map (·.linear) = s.linear.setOutermost outermost := by
  unfold setOutermost LinearSet.setOutermost ConfigContents.linear
  split
  · rfl
  · split <;> rfl

theorem internAll_spec {cs : List Config} {n : Network} {supply : Supply}
    (coherent : Coherent supply known) (recorded : n.Sound known)
    (contexts : ∀ c ∈ cs, c.context ∈ known) :
    (internAll cs n supply).1.map Config.value = cs.map Config.value ∧
      ∃ wider, known ⊆ wider ∧ Coherent (internAll cs n supply).2.2 wider ∧
        (internAll cs n supply).2.1.Sound wider ∧
        ∀ c ∈ (internAll cs n supply).1, c.context ∈ wider := by
  induction cs generalizing n supply known with
  | nil => exact ⟨rfl, known, subset_rfl, coherent, recorded, contexts⟩
  | cons c cs ih =>
    obtain ⟨first, others⟩ := List.forall_mem_cons.mp contexts
    obtain ⟨middle, upward, coherent', recorded', interned, value⟩ :=
      Network.intern_spec coherent recorded first
    obtain ⟨values, wider, included, coherent'', recorded'', within⟩ :=
      ih coherent' recorded' fun c' present => upward (others c' present)
    refine ⟨?_, wider, upward.trans included, coherent'', recorded'',
      List.forall_mem_cons.mpr ⟨included interned, within⟩⟩
    rw [internAll, List.map_cons, List.map_cons, values]
    simp only [Config.value, Config.withContext, value]

/-- Interning can be seen in the network only. -/
theorem internContexts_linear {n : Network} {supply : Supply} (coherent : Coherent supply known)
    (recorded : n.Sound known) (within : s.Known known) :
    (s.internContexts n supply).1.linear = s.linear ∧
      ∃ wider, known ⊆ wider ∧ Coherent (s.internContexts n supply).2.2 wider ∧
        (s.internContexts n supply).2.1.Sound wider ∧
        (s.internContexts n supply).1.Known wider := by
  obtain ⟨values, rest⟩ := internAll_spec coherent recorded within
  refine ⟨?_, rest⟩
  unfold ConfigContents.linear
  rw [← values]
  rfl

theorem advance_linear (k : Cursor) :
    k.advance.1.map Config.value = k.linear.advance.1 ∧
      k.advance.2.linear = k.linear.advance.2 := by
  have entry : k.linear.set.entries[k.linear.next]? = k.set.configs[k.next]?.map Config.value :=
    List.getElem?_map
  unfold Cursor.advance LinearSet.Cursor.advance
  rw [entry]
  cases k.set.configs[k.next]? <;> exact ⟨rfl, rfl⟩

theorem cursor_remove_linear (k : Cursor) :
    k.remove.map (fun taken => (taken.1.value, taken.2.linear)) = k.linear.remove := by
  obtain ⟨set, next, state⟩ := k
  cases state with
  | fresh => rfl
  | removed index => rfl
  | produced index =>
    have removed := remove_linear set index
    simp only [Cursor.remove, LinearSet.Cursor.remove, Cursor.linear]
    rw [← removed]
    cases set.remove index <;> rfl

end ConfigSet

/-- Thawing gives the linear set that thawing by value gives. -/
theorem FrozenSet.thaw_linear {known : Set Context} {f : FrozenSet} {j : Joiner}
    (sound : j.Sound known) (within : f.Known known) :
    (f.thaw j).1.map (·.linear) = f.linear.thaw ∧
      ∃ wider, known ⊆ wider ∧ Joiner.Sound wider (f.thaw j).2 ∧
        ∀ s, (f.thaw j).1 = .ok s → s.Known wider := by
  have start : (ConfigSet.starting f.outermost f.guarded f.dips).linear =
      LinearSet.starting f.linear.outermost f.linear.guarded f.linear.dips := rfl
  obtain ⟨answer, final, wider, included, sound', within'⟩ := ConfigSet.addAll_realizes
    (ConfigSet.indexed_starting f.outermost f.guarded f.dips) sound
    (fun c present => absurd present List.not_mem_nil) within
  rw [start] at answer final
  refine ⟨?_, wider, included, sound', ?_⟩
  · rw [LinearSet.thaw]
    have entries : f.linear.entries = f.configs.map Config.value := rfl
    rw [entries, ← answer, ← final, thaw]
    cases ((ConfigSet.starting f.outermost f.guarded f.dips).addAll f.configs j).1 <;> rfl
  · intro s thawed
    rw [eq_of_thaw thawed]
    exact within'

end Prediction
