import Prediction.Proofs.ConfigSet.Refinement
import Prediction.Proofs.Session.Linear

/-!
What a session lets a client see is what the linear session lets it see. Each command keeps the
session sound: its contexts come from one supply, its caches and networks hold nothing else, and its
sets are indexed. By induction this carries over to programs.
-/

namespace Prediction.Session

open Context

/-- Everything in the session is known, and its sets are indexed. -/
structure Sound (known : Set Context) (s : Session) : Prop where
  coherent : Coherent s.supply known
  contexts : ∀ i, s.contexts i ∈ known
  caches : ∀ i, (s.caches i).Sound known
  networks : ∀ i, (s.networks i).Sound known
  sets : ∀ i, (s.sets i).Known known
  indexed : ∀ i, (s.sets i).Indexed
  frozen : ∀ i, (s.frozen i).Known known

/-- A step gave the answer of a linear session and led where that leads, and the session is sound
afterwards. -/
structure Realizes (known : Set Context) (result : Answer × LinearSession)
    (step : Answer × Session) : Prop where
  answer : step.1 = result.1
  linear : step.2.linear = result.2
  sound : ∃ wider, known ⊆ wider ∧ Sound wider step.2

/-- A context with the given tree was obtained, or none was and there is no tree. -/
structure Obtains (known : Set Context) (s : Session) (t : Option Tree)
    (obtained : Option (Context × Session)) : Prop where
  tree : obtained.map (·.1.tree) = t
  sound : ∀ c later, obtained = some (c, later) → later.linear = s.linear ∧
    ∃ wider, known ⊆ wider ∧ Sound wider later ∧ c ∈ wider

variable {known wider : Set Context} {s : Session} {c : Context} {j : Joiner} {supply : Supply}
  {n : Network} {set : ConfigSet}

theorem sound_starting (rule : DigestRule) :
    Sound {c | c.isEmpty = true} (starting rule) where
  coherent := .starting rule
  contexts _ := rfl
  caches _ := Cache.sound_new _ _ _
  networks _ := fun c present => absurd present (by simp [starting, Network.empty, Table.empty])
  sets _ := fun c present => absurd present List.not_mem_nil
  indexed _ := .empty
  frozen _ := fun c present => absurd present List.not_mem_nil

namespace Sound

theorem joiner (sound : s.Sound known) (cache : Nat) : (s.joiner cache).Sound known :=
  ⟨sound.coherent, sound.caches cache⟩

theorem draft (sound : s.Sound known) (d : Draft) : (d.config s).context ∈ known :=
  sound.contexts d.context

theorem drafts (sound : s.Sound known) (ds : List Draft) :
    ∀ c ∈ ds.map (·.config s), c.context ∈ known := by
  intro c present
  obtain ⟨d, -, rfl⟩ := List.mem_map.mp present
  exact sound.draft d

theorem withSupply (sound : s.Sound known) (included : known ⊆ wider)
    (coherent : Coherent supply wider) : Sound wider { s with supply } where
  coherent := coherent
  contexts i := included (sound.contexts i)
  caches i := (sound.caches i).mono included
  networks i := fun c present => included (sound.networks i c present)
  sets i := (sound.sets i).mono included
  indexed := sound.indexed
  frozen i := (sound.frozen i).mono included

theorem rejoin (sound : s.Sound known) (included : known ⊆ wider) (joined : j.Sound wider)
    (cache : Nat) : (s.rejoin cache j).Sound wider :=
  { sound.withSupply included joined.coherent with
    caches := (Function.forall_update_iff s.caches fun _ => Cache.Sound wider).mpr
      ⟨joined.cache, fun i _ => (sound.caches i).mono included⟩ }

theorem renet (sound : s.Sound known) (included : known ⊆ wider)
    (coherent : Coherent supply wider) (recorded : n.Sound wider) (network : Nat) :
    (s.renet network n supply).Sound wider :=
  { sound.withSupply included coherent with
    networks := (Function.forall_update_iff s.networks fun _ => Network.Sound wider).mpr
      ⟨recorded, fun i _ c present => included (sound.networks i c present)⟩ }

theorem putContext (sound : s.Sound known) (present : c ∈ known) (target : Nat) :
    (s.putContext target c).Sound known :=
  { sound with
    contexts := (Function.forall_update_iff s.contexts fun _ c => c ∈ known).mpr
      ⟨present, fun i _ => sound.contexts i⟩ }

theorem putSet (sound : s.Sound known) (within : set.Known known) (indexed : set.Indexed)
    (target : Nat) : (s.putSet target set).Sound known :=
  { sound with
    sets := (Function.forall_update_iff s.sets fun _ set => set.Known known).mpr
      ⟨within, fun i _ => sound.sets i⟩
    indexed := (Function.forall_update_iff s.sets fun _ => ConfigSet.Indexed).mpr
      ⟨indexed, fun i _ => sound.indexed i⟩ }

theorem freeze (sound : s.Sound known) (i target : Nat) :
    Sound known { s with
      supply := ((s.sets i).freeze s.supply).2
      frozen := Function.update s.frozen target ((s.sets i).freeze s.supply).1 } :=
  { sound.withSupply subset_rfl sound.coherent.fresh with
    frozen := (Function.forall_update_iff s.frozen fun _ set => set.Known known).mpr
      ⟨sound.sets i, fun i _ => sound.frozen i⟩ }

end Sound

theorem obtains_joined {t : Tree} {joined : Context × Joiner} (sound : s.Sound known)
    (joins : Joins known t joined) (cache : Nat) :
    Obtains known s (some t) (some (joined.1, s.rejoin cache joined.2)) := by
  obtain ⟨wider, included, sound', present, value⟩ := joins
  refine ⟨congrArg some value, ?_⟩
  rintro _ _ ⟨⟩
  exact ⟨rfl, wider, included, sound.rejoin included sound' cache, present⟩

theorem obtains_built {t : Tree} {built : Context × Supply} (sound : s.Sound known)
    (builds : Builds known t built) :
    Obtains known s (some t) (some (built.1, { s with supply := built.2 })) := by
  obtain ⟨wider, included, coherent, present, value⟩ := builds
  refine ⟨congrArg some value, ?_⟩
  rintro _ _ ⟨⟩
  exact ⟨rfl, wider, included, sound.withSupply included coherent, present⟩

theorem obtains_known (sound : s.Sound known) (present : c ∈ known) :
    Obtains known s (some c.tree) (some (c, s)) :=
  obtains_built sound (.same sound.coherent present)

theorem obtains_entry (sound : s.Sound known) {set : ConfigContents} (within : set.Known known)
    (index : Nat) :
    Obtains known s (set.linear.entries[index]?.map (·.context))
      (set.configs[index]?.map fun c => (c.context, s)) := by
  rw [ConfigContents.linear, List.getElem?_map, Option.map_map]
  cases present : set.configs[index]? with
  | none => exact ⟨rfl, by simp⟩
  | some c => exact obtains_known sound (within c (List.mem_of_getElem? present))

theorem branches_tree (c : Context) : c.tree.branches = treePaths c.paths := by
  cases c <;> rfl

theorem obtain?_realizes (sound : s.Sound known) (recipe : Recipe) :
    Obtains known s (s.linear.obtain? recipe) (s.obtain? recipe) := by
  cases recipe with
  | outermost => exact obtains_known sound sound.coherent.outermost
  | wildcard => exact obtains_known sound sound.coherent.wildcard
  | copy c => exact obtains_built sound (.copy sound.coherent (sound.contexts c))
  | push below k => exact obtains_built sound (.push sound.coherent (sound.contexts below) k)
  | ofParts parents ks =>
    have acceptable : (∃ built, Context.ofParts (parents.map s.contexts) ks s.supply = .ok built) ↔
        parents.length = ks.length ∧ ks.Pairwise (· < ·) := by
      rw [ofParts_isOk_iff, List.length_map]
    simp only [LinearSession.obtain?, obtain?]
    cases outcome : Context.ofParts (parents.map s.contexts) ks s.supply with
    | error refusal =>
      have unacceptable : ¬ (parents.length = ks.length ∧ ks.Pairwise (· < ·)) := by
        rw [← acceptable, outcome]
        simp
      rw [if_neg unacceptable]
      exact ⟨rfl, by simp⟩
    | ok built =>
      rw [if_pos (acceptable.mp ⟨built, outcome⟩)]
      have builds := ofParts_spec sound.coherent (by simp [sound.contexts]) outcome
      rw [List.map_map] at builds
      exact obtains_built sound builds
  | addOutermost c =>
    exact obtains_built sound (addOutermost_spec sound.coherent (sound.contexts c)).1
  | parent c path =>
    simp only [LinearSession.obtain?, obtain?, linear_contexts, branches_tree, treePaths_eq_map,
      List.getElem?_map, Option.map_map]
    unfold Context.path
    cases found : (s.contexts c).paths[path]? with
    | none => exact ⟨rfl, by simp⟩
    | some branch =>
      have inRow := List.mem_of_getElem? found
      exact obtains_known sound (sound.coherent.parent_of_paths (sound.contexts c) inRow)
  | join left right cache =>
    exact obtains_joined sound
      (joinable _ (sound.joiner cache) (sound.contexts left) (sound.contexts right)).1 cache
  | cachedJoin left right cache =>
    have joins := Joinable.remember (joinable _) (sound.joiner cache) (sound.contexts left)
      (sound.contexts right)
    exact obtains_joined sound joins cache
  | share c cache =>
    obtain ⟨kept, value, cache'⟩ :=
      Cache.share_spec sound.coherent (sound.caches cache) (sound.contexts c)
    have joins : Joins known (s.contexts c).tree
        (((s.caches cache).share (s.contexts c)).1, ⟨s.supply, _⟩) :=
      ⟨known, subset_rfl, ⟨sound.coherent, cache'⟩, kept, value⟩
    exact obtains_joined sound joins cache
  | intern c network =>
    obtain ⟨wider, included, coherent, recorded, present, value⟩ :=
      Network.intern_spec sound.coherent (sound.networks network) (sound.contexts c)
    refine ⟨congrArg some value, ?_⟩
    rintro _ _ ⟨⟩
    exact ⟨rfl, wider, included, sound.renet included coherent recorded network, present⟩
  | entry set index => exact obtains_entry sound (sound.sets set) index
  | frozenEntry set index => exact obtains_entry sound (sound.frozen set) index

theorem move_linear (k : ConfigSet.Cursor) (m : ConfigSet.Cursor.Move) :
    (k.move m).1.map (Option.map Config.value) = (k.linear.move m).1 ∧
      (k.move m).2.linear = (k.linear.move m).2 := by
  cases m with
  | advance =>
    obtain ⟨produced, later⟩ := ConfigSet.advance_linear k
    exact ⟨congrArg Except.ok produced, later⟩
  | remove =>
    have removed := ConfigSet.cursor_remove_linear k
    simp only [ConfigSet.Cursor.move, LinearSet.Cursor.move]
    rw [← removed]
    cases k.remove <;> exact ⟨rfl, rfl⟩

theorem walk_linear (k : ConfigSet.Cursor) (moves : List ConfigSet.Cursor.Move) :
    (k.walk moves).1.map (Except.map (Option.map Config.value)) = (k.linear.walk moves).1 ∧
      (k.walk moves).2.linear = (k.linear.walk moves).2 := by
  induction moves generalizing k with
  | nil => exact ⟨rfl, rfl⟩
  | cons m ms ih =>
    obtain ⟨answer, later⟩ := move_linear k m
    obtain ⟨answers, final⟩ := ih (k.move m).2
    rw [later] at answers final
    simp only [ConfigSet.Cursor.walk, LinearSet.Cursor.walk, List.map_cons, answer, answers, final,
      and_self]

theorem walk_keeps {k : ConfigSet.Cursor} (within : k.set.Known known) (indexed : k.set.Indexed)
    (moves : List ConfigSet.Cursor.Move) :
    (k.walk moves).2.set.Known known ∧ (k.walk moves).2.set.Indexed := by
  induction moves generalizing k with
  | nil => exact ⟨within, indexed⟩
  | cons m ms ih =>
    have step : (k.move m).2.set.Known known ∧ (k.move m).2.set.Indexed := by
      cases m with
      | advance =>
        have same : k.advance.2.set = k.set := by
          unfold ConfigSet.Cursor.advance
          split <;> rfl
        rw [ConfigSet.Cursor.move, same]
        exact ⟨within, indexed⟩
      | remove =>
        rw [ConfigSet.Cursor.move]
        cases outcome : k.remove with
        | error refusal => exact ⟨within, indexed⟩
        | ok taken => exact ⟨ConfigSet.known_cursor_remove within outcome,
            ConfigSet.indexed_cursor_remove indexed outcome⟩
    exact ih step.1 step.2

theorem realizes_same (sound : s.Sound known) (answer : Answer) :
    Realizes known (answer, s.linear) (answer, s) :=
  ⟨rfl, rfl, known, subset_rfl, sound⟩

/-- Storing a set in a session that is sound and looks as before. -/
theorem realizes_putSet {later : Session} (set : ConfigSet) {linear : LinearSet}
    (included : known ⊆ wider) (sound : later.Sound wider) (same : later.linear = s.linear)
    (within : set.Known wider) (indexed : set.Indexed) (value : set.linear = linear)
    (answer : Answer) (target : Nat) :
    Realizes known (answer, s.linear.putSet target linear) (answer, later.putSet target set) := by
  refine ⟨rfl, ?_, wider, included, sound.putSet within indexed target⟩
  rw [← same, ← value]
  exact linear_putSet later target set

theorem performEdit_realizes (sound : s.Sound known) (i : Nat) (edit : Edit) :
    Realizes known (s.linear.performEdit i edit) (s.performEdit i edit) := by
  have within := sound.sets i
  have indexed := sound.indexed i
  have stored (set : ConfigSet) (linear : LinearSet) (within : set.Known known)
      (indexed : set.Indexed) (value : set.linear = linear) (answer : Answer) :
      Realizes known (answer, s.linear.putSet i linear) (answer, s.putSet i set) :=
    realizes_putSet set subset_rfl sound rfl within indexed value answer i
  cases edit with
  | add draft cache =>
    simp only [performEdit, LinearSession.performEdit, linear_sets, linear_draft]
    rcases ConfigSet.add_realizes indexed (sound.joiner cache) within (sound.draft draft) with
      ⟨refusal, refused, refused'⟩ | ⟨step, result, added, added', indexed', realizes⟩
    · rw [refused, refused']
      exact realizes_same sound _
    · obtain ⟨changed, set, wider, included, sound', within'⟩ := realizes
      rw [added, added']
      dsimp only
      rw [← changed]
      exact realizes_putSet step.set included (sound.rejoin included sound' cache) rfl within'
        indexed' set _ i
  | addAll drafts cache =>
    have values : drafts.map s.linear.draft = (drafts.map (·.config s)).map Config.value := by
      rw [List.map_map]
      rfl
    obtain ⟨answer, final, wider, included, sound', within'⟩ :=
      ConfigSet.addAll_realizes indexed (sound.joiner cache) within (sound.drafts drafts)
    simp only [performEdit, LinearSession.performEdit, linear_sets, values, ← answer, ← final]
    exact realizes_putSet _ included (sound.rejoin included sound' cache) rfl within'
      (ConfigSet.indexed_addAll indexed _ _) rfl _ i
  | remove index =>
    simp only [performEdit, LinearSession.performEdit, linear_sets]
    rw [← ConfigSet.remove_linear]
    cases outcome : (s.sets i).remove index with
    | error refusal => exact realizes_same sound _
    | ok taken =>
      exact stored _ _ (ConfigSet.Known.remove within outcome).2
        (ConfigSet.indexed_remove indexed outcome) rfl _
  | walk moves =>
    simp only [performEdit, LinearSession.performEdit]
    obtain ⟨answers, final⟩ := walk_linear (s.sets i).cursor moves
    obtain ⟨within', indexed'⟩ := walk_keeps (k := (s.sets i).cursor) within indexed moves
    have start : (s.linear.sets i).cursor = (s.sets i).cursor.linear := rfl
    rw [start, ← answers, ← final]
    exact stored _ _ within' indexed' rfl _
  | dropHidden =>
    exact stored _ _ (ConfigSet.Known.dropHidden within) (ConfigSet.indexed_dropHidden indexed)
      (ConfigSet.dropHidden_linear (s.sets i)) .done
  | internContexts network =>
    obtain ⟨value, wider, included, coherent, recorded, within'⟩ :=
      ConfigSet.internContexts_linear sound.coherent (sound.networks network) within
    have realizes : Realizes known (.done, s.linear.putSet i (s.sets i).linear)
        (s.performEdit i (.internContexts network)) :=
      realizes_putSet _ included (sound.renet included coherent recorded network) rfl within'
        (ConfigSet.indexed_internContexts indexed _ _) value .done i
    have same : s.linear.putSet i (s.sets i).linear = s.linear := by
      rw [← linear_putSet, putSet, Function.update_eq_self]
    rw [same] at realizes
    exact realizes
  | clear =>
    exact stored (s.sets i).clear (s.linear.sets i).clear
      (fun c present => absurd present List.not_mem_nil) (ConfigSet.indexed_clear (s.sets i)) rfl
      .done
  | setOutermost outermost =>
    simp only [performEdit, LinearSession.performEdit, linear_sets]
    rw [← ConfigSet.setOutermost_linear]
    cases outcome : (s.sets i).setOutermost outermost with
    | error refusal => exact realizes_same sound _
    | ok later =>
      exact stored _ _ (ConfigSet.Known.setOutermost within outcome)
        (ConfigSet.indexed_setOutermost indexed outcome) rfl _
  | setConflict conflict =>
    exact stored ((s.sets i).setConflict conflict) ((s.linear.sets i).setConflict conflict) within
      indexed rfl .done

theorem perform_realizes (sound : s.Sound known) (command : Command) :
    Realizes known (s.linear.perform command) (s.perform command) := by
  cases command with
  | context target recipe =>
    obtain ⟨tree, sound'⟩ := obtain?_realizes sound recipe
    simp only [perform, LinearSession.perform]
    rw [← tree]
    cases outcome : s.obtain? recipe with
    | none => exact realizes_same sound _
    | some obtained =>
      obtain ⟨same, wider, included, sound'', present⟩ := sound' _ _ outcome
      refine ⟨rfl, ?_, wider, included, sound''.putContext present target⟩
      rw [← same]
      exact linear_putContext obtained.2 target obtained.1
  | newCache cache enabled capacity =>
    exact ⟨rfl, rfl, known, subset_rfl, sound.rejoin subset_rfl
      ⟨sound.coherent, Cache.sound_new known enabled capacity⟩ cache⟩
  | clearCache cache =>
    exact ⟨rfl, rfl, known, subset_rfl, sound.rejoin subset_rfl
      ⟨sound.coherent, Cache.sound_new known _ _⟩ cache⟩
  | newNetwork network =>
    exact ⟨rfl, rfl, known, subset_rfl, sound.renet subset_rfl sound.coherent
      (fun c present => absurd present List.not_mem_nil) network⟩
  | newSet set =>
    exact realizes_putSet .empty subset_rfl sound rfl
      (fun c present => absurd present List.not_mem_nil) ConfigSet.indexed_empty rfl .done set
  | edit set edit => exact performEdit_realizes sound set edit
  | contains set draft =>
    have answer := ConfigSet.contains_linear (sound.indexed set) sound.coherent (sound.sets set)
      (sound.draft draft)
    exact ⟨congrArg Answer.covered answer, rfl, known, subset_rfl, sound⟩
  | copy set target =>
    exact realizes_putSet (s.sets set) subset_rfl sound rfl (sound.sets set) (sound.indexed set)
      rfl .done target
  | freeze set target =>
    refine ⟨rfl, ?_, known, subset_rfl, sound.freeze set target⟩
    have frozen := Function.comp_update (fun set : FrozenSet => set.linear) s.frozen target
      ((s.sets set).freeze s.supply).1
    rw [linear, LinearSession.mk.injEq]
    exact ⟨rfl, rfl, frozen⟩
  | thaw set target cache =>
    simp only [perform, LinearSession.perform, linear_frozen]
    obtain ⟨value, wider, included, sound', within⟩ :=
      FrozenSet.thaw_linear (sound.joiner cache) (sound.frozen set)
    rw [← value]
    cases outcome : ((s.frozen set).thaw (s.joiner cache)).1 with
    | error refusal =>
      exact ⟨rfl, rfl, wider, included, sound.rejoin included sound' cache⟩
    | ok later =>
      exact realizes_putSet later included (sound.rejoin included sound' cache) rfl
        (within later outcome) (FrozenSet.indexed_thaw outcome) rfl .done target

/-- By induction on the program: each command finds the session as the linear session sees it, and
leaves it so. -/
theorem run_realizes (sound : s.Sound known) (program : List Command) :
    (s.run program).1 = (s.linear.run program).1 ∧
      (s.run program).2.linear = (s.linear.run program).2 ∧
      ∃ wider, known ⊆ wider ∧ Sound wider (s.run program).2 := by
  induction program generalizing s known with
  | nil => exact ⟨rfl, rfl, known, subset_rfl, sound⟩
  | cons command program ih =>
    obtain ⟨answer, later, middle, upward, sound'⟩ := perform_realizes sound command
    obtain ⟨answers, final, wider, included, sound''⟩ := ih sound'
    rw [later] at answers final
    refine ⟨?_, final, wider, upward.trans included, sound''⟩
    rw [run, LinearSession.run, answer, answers]

/-- The index, the caches, the networks and the sharing of instances cannot be seen: every program
gets the answers of the linear session, and leads where that leads. -/
theorem run_eq_linear (rule : DigestRule) (program : List Command) :
    ((starting rule).run program).1 = (LinearSession.starting.run program).1 ∧
      ((starting rule).run program).2.linear = (LinearSession.starting.run program).2 := by
  obtain ⟨answers, final, -⟩ := run_realizes (sound_starting rule) program
  exact ⟨answers, final⟩

theorem sound_reached (rule : DigestRule) (program : List Command) :
    ∃ known, Sound known (reached rule program) := by
  obtain ⟨-, -, known, -, sound⟩ := run_realizes (sound_starting rule) program
  exact ⟨known, sound⟩

end Prediction.Session
