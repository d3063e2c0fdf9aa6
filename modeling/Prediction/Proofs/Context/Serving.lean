import Prediction.Proofs.Context.Accounting
import Prediction.Proofs.Context.Table

/-!
A cache in order answers every call with its canonical instance. The memory forgets joins, but it
only ever held canonical instances, and those are not forgotten; so an answer is the same whether it
is read from the memory or the join is made again.
-/

namespace Prediction

open Context

namespace Context

/-- No value has two canonical instances, and what is remembered are canonical instances. -/
structure Cache.Orderly (cache : Cache) : Prop where
  distinct : cache.canonical.values.Nodup
  remembered : ∀ e ∈ cache.joins.entries, e.result ∈ cache.canonical.entries

/-- The answer to a call has the value that it ought to have. That of an enabled cache is one of its
canonical instances. -/
structure Cache.Call.Answered (call : Call) (cache : Cache) : Prop where
  value : call.result.tree = call.value
  canonical : cache.enabled = true → call.result ∈ cache.canonical.entries

/-- A cache went on from one state to another by answering calls. -/
structure Cache.Serves (cache : Cache) (calls : List Call) (later : Cache) : Prop where
  enabled : later.enabled = cache.enabled
  entries : cache.canonical.entries ⊆ later.canonical.entries
  orderly : later.Orderly
  counted : cache.enabled = true →
    later.hits + later.misses = cache.hits + cache.misses + calls.countP Call.isJoin
  answered : ∀ call ∈ calls, call.Answered later
  accounts : cache.Accounts calls later

variable {known : Set Context} {s : Supply} {cache middle later : Cache} {j : Joiner}
  {calls others : List Cache.Call} {a b c p q : Context} {ps qs : List Path}

namespace Cache

theorem orderly_new (enabled : Bool) (capacity : Nat) : (new enabled capacity).Orderly :=
  ⟨.nil, List.forall_mem_nil _⟩

theorem Call.Answered.mono {call : Call} (answered : call.Answered middle)
    (enabled : later.enabled = middle.enabled)
    (entries : middle.canonical.entries ⊆ later.canonical.entries) : call.Answered later :=
  ⟨answered.value, fun on => entries (answered.canonical (enabled ▸ on))⟩

theorem Serves.refl (orderly : cache.Orderly) : cache.Serves [] cache :=
  ⟨rfl, List.Subset.refl _, orderly, fun _ => rfl, List.forall_mem_nil _, .refl cache⟩

theorem Serves.append (first : cache.Serves calls middle) (second : middle.Serves others later) :
    cache.Serves (calls ++ others) later := by
  refine ⟨second.enabled.trans first.enabled, List.Subset.trans first.entries second.entries,
    second.orderly, ?_, List.forall_mem_append.mpr ⟨?_, second.answered⟩,
    first.accounts.append second.accounts first.enabled⟩
  · intro on
    rw [second.counted (first.enabled.trans on), first.counted on, List.countP_append]
    omega
  · intro call listed
    exact (first.answered call listed).mono second.enabled second.entries

/-- A value becomes canonical with the instance that was asked for, if it is not yet. -/
theorem orderly_share (coherent : Coherent s known) (sound : cache.Sound known)
    (orderly : cache.Orderly) (present : c ∈ known) : (cache.share c).2.Orderly := by
  unfold share
  split
  · refine ⟨?_, ?_⟩
    · dsimp only
      rw [Table.values_canonical coherent sound.canonical present]
      exact orderly.distinct.insert
    · exact fun e listed => Table.entries_subset_canonical _ _ (orderly.remembered e listed)
  · exact orderly

theorem share_mem (on : cache.enabled = true) (c : Context) :
    (cache.share c).1 ∈ (cache.share c).2.canonical.entries := by
  rw [share, if_pos on]
  exact Table.canonical_mem _ _

theorem entries_subset_share (cache : Cache) (c : Context) :
    cache.canonical.entries ⊆ (cache.share c).2.canonical.entries := by
  unfold share
  split
  · exact Table.entries_subset_canonical _ _
  · exact List.Subset.refl _

theorem hits_share (cache : Cache) (c : Context) : (cache.share c).2.hits = cache.hits := by
  unfold share
  split <;> rfl

theorem misses_share (cache : Cache) (c : Context) : (cache.share c).2.misses = cache.misses := by
  unfold share
  split <;> rfl

theorem share_serves (coherent : Coherent s known) (sound : cache.Sound known)
    (orderly : cache.Orderly) (present : c ∈ known) :
    cache.Serves [.share c (cache.share c).1] (cache.share c).2 := by
  refine ⟨enabled_share cache c, entries_subset_share cache c,
    orderly_share coherent sound orderly present, fun _ => ?_, List.forall_mem_singleton.mpr ?_,
    .share cache c (List.forall_mem_singleton.mpr rfl)⟩
  · rw [hits_share, misses_share]
    rfl
  · obtain ⟨-, value, -⟩ := share_spec coherent sound present
    exact ⟨value, fun on => share_mem (by rwa [enabled_share] at on) c⟩

/-- A canonical instance may be remembered, whatever is forgotten for it. -/
theorem Orderly.store (orderly : cache.Orderly) (canonical : c ∈ cache.canonical.entries) :
    Orderly { cache with joins := cache.joins.store a b c } :=
  ⟨orderly.distinct, JoinMemo.forall_store canonical orderly.remembered⟩

/-- What is on record is canonical, and so is what stays on record when it is read. -/
theorem Orderly.lookup? {found : JoinMemo} (orderly : cache.Orderly)
    (answer : cache.joins.lookup? a b = some (c, found)) :
    c ∈ cache.canonical.entries ∧
      Orderly { cache with joins := found, hits := cache.hits + 1 } := by
  obtain ⟨e, present, -, rfl, kept⟩ := JoinMemo.exists_of_lookup? answer
  exact ⟨orderly.remembered e present, orderly.distinct,
    fun e' old => orderly.remembered e' (kept old)⟩

end Cache

/-- An answer from the memory is served, if the join that it may take is. -/
theorem remember_serves {compute : Joiner → Context × Joiner}
    {nested : Joiner → List Cache.Call} (sound : j.Sound known) (orderly : j.cache.Orderly)
    (left : a ∈ known) (right : b ∈ known)
    (computes : ∀ j', Joiner.Sound known j' → Joins known (a.tree.join b.tree) (compute j'))
    (serves : ∀ j', Joiner.Sound known j' → j'.cache.Orderly →
      j'.cache.Serves (nested j') (compute j').2.cache)
    (below : ∀ j', ∀ call ∈ nested j', call.Below a.paths b.paths) :
    j.cache.Serves (rememberCalls compute nested a b j) (remember compute a b j).2.cache := by
  obtain ⟨-, -, -, -, value⟩ := remember_spec sound left right computes
  cases on : j.cache.enabled with
  | true =>
    cases recorded : j.cache.joins.lookup? a b with
    | some found =>
      obtain ⟨c, found⟩ := found
      obtain ⟨canonical, orderly'⟩ := orderly.lookup? recorded
      obtain ⟨answer, calls⟩ := remember_recorded compute nested on recorded
      rw [answer] at value ⊢
      rw [calls]
      refine ⟨rfl, List.Subset.refl _, orderly', fun _ => ?_, List.forall_mem_singleton.mpr
        ⟨value, fun _ => canonical⟩, .hit on recorded⟩
      simp [Cache.Call.isJoin, Nat.add_right_comm]
    | none =>
      obtain ⟨answer, calls⟩ := remember_missing compute nested on recorded
      have before : Joiner.Sound known j.missed :=
        ⟨sound.coherent, sound.cache.recorded, sound.cache.canonical⟩
      obtain ⟨wider, included, sound', present, -⟩ := computes j.missed before
      have joined := serves j.missed before ⟨orderly.distinct, orderly.remembered⟩
      have shared := Cache.share_serves sound'.coherent sound'.cache joined.orderly present
      have canonical := Cache.share_mem (joined.enabled.trans on) (compute j.missed).1
      rw [answer] at value ⊢
      rw [calls]
      refine ⟨shared.enabled.trans joined.enabled, List.Subset.trans joined.entries shared.entries,
        shared.orderly.store canonical, ?_, List.forall_mem_append.mpr ⟨?_, ?_⟩, ?_⟩
      · intro _
        have nestedCount := joined.counted on
        have sharedCount := shared.counted (joined.enabled.trans on)
        simp only [List.countP_append, List.countP_singleton, Cache.Call.isJoin, Joiner.missed]
          at nestedCount sharedCount ⊢
        simp only [if_true, Bool.false_eq_true, if_false] at nestedCount sharedCount ⊢
        omega
      · intro call listed
        exact (joined.answered call listed).mono shared.enabled shared.entries
      · exact List.forall_mem_singleton.mpr ⟨value, fun _ => canonical⟩
      · have accounts := joined.accounts.append
          (.share _ (compute j.missed).1 (List.forall_mem_nil _)) joined.enabled
        rw [List.append_nil] at accounts
        exact .miss on sound.coherent left right recorded (below j.missed) accounts _
  | false =>
    obtain ⟨answer, calls⟩ := remember_disabled compute nested a b on
    have joined := serves j sound orderly
    rw [answer] at value ⊢
    rw [calls]
    have off := joined.enabled.trans on
    refine joined.append ⟨rfl, List.Subset.refl _, joined.orderly, ?_,
      List.forall_mem_singleton.mpr ⟨value, ?_⟩, .switchedOff off _⟩
    · simp [off]
    · simp [off]

/-- Whatever is joined with this context, the calls that it takes are served. -/
def Servable (a : Context) : Prop :=
  ∀ {known : Set Context} {j : Joiner} {b : Context}, j.Sound known → j.cache.Orderly →
    a ∈ known → b ∈ known → j.cache.Serves (a.joinCalls b j) (a.join b j).2.cache

theorem Servable.cachedJoin (servable : Servable p) (sound : j.Sound known)
    (orderly : j.cache.Orderly) (left : p ∈ known) (right : q ∈ known) :
    j.cache.Serves (p.cachedJoinCalls q j) (p.cachedJoin q j).2.cache :=
  remember_serves sound orderly left right
    (fun _ sound' => (joinable p sound' left right).1)
    (fun _ sound' orderly' => servable sound' orderly' left right) (p.below_of_mem_joinCalls q)

theorem mergeCalls_served (servable : ∀ path ∈ ps, Servable path.2) (sound : j.Sound known)
    (orderly : j.cache.Orderly) (left : ∀ path ∈ ps, path.2 ∈ known)
    (right : ∀ path ∈ qs, path.2 ∈ known) :
    j.cache.Serves (mergeCalls ps qs j) (mergeAll ps qs j).2.cache := by
  induction ps, qs using Tree.merge_induction generalizing known j with
  | left qs => exact .refl orderly
  | right ps =>
    rw [mergeCalls_nil_right, mergeAll_nil_right]
    exact .refl orderly
  | below k p ps k' q qs smaller ih =>
    rw [mergeCalls_below smaller, mergeAll_below smaller]
    exact ih (List.forall_mem_cons.mp servable).2 sound orderly (List.forall_mem_cons.mp left).2
      right
  | equal k p ps q qs ih =>
    obtain ⟨first, others⟩ := List.forall_mem_cons.mp servable
    obtain ⟨firstLeft, restLeft⟩ := List.forall_mem_cons.mp left
    obtain ⟨firstRight, restRight⟩ := List.forall_mem_cons.mp right
    obtain ⟨middle, upward, sound', -, -⟩ :=
      Joinable.remember (joinable p) sound firstLeft firstRight
    have served := first.cachedJoin sound orderly firstLeft firstRight
    rw [mergeCalls_equal, mergeAll_equal]
    exact served.append (ih others sound' served.orderly
      (fun path inRow => upward (restLeft path inRow))
      fun path inRow => upward (restRight path inRow))
  | above k p ps k' q qs larger ih =>
    rw [mergeCalls_above larger, mergeAll_above larger]
    exact ih servable sound orderly left (List.forall_mem_cons.mp right).2

/-- By induction on the left context: the joins of its parents are served. -/
theorem servable (a : Context) : Servable a := by
  have parents : ∀ path ∈ a.paths, Servable path.2 := fun path inRow => servable path.2
  intro known j b sound orderly left right
  rcases joinCalls_cases a b j with ⟨none, same⟩ | ⟨merged, same⟩
  · rw [none, same]
    exact .refl orderly
  · rw [merged, same]
    exact mergeCalls_served parents sound orderly
      (fun _ inRow => sound.coherent.parent_of_paths left inRow)
      fun _ inRow => sound.coherent.parent_of_paths right inRow
termination_by a
decreasing_by exact Reaches.sizeOf_parent inRow

end Context

end Prediction
