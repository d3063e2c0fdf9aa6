import Prediction.Proofs.ConfigSet.Serving
import Prediction.Proofs.Session.Refinement

/-!
What a cache hands out in the course of a program. Whoever makes a call, be it a client, a set that
takes in a configuration or a join of the contexts above, gets the canonical instance of the answer,
however much the memory forgets in between.
-/

namespace Prediction.Session

open Context

def Recipe.calls (s : Session) (n : Nat) : Recipe → List Cache.Call
  | .join left right cache =>
    if cache = n then (s.contexts left).joinCalls (s.contexts right) (s.joiner cache) else []
  | .cachedJoin left right cache =>
    if cache = n then (s.contexts left).cachedJoinCalls (s.contexts right) (s.joiner cache) else []
  | .share c cache =>
    if cache = n then [.share (s.contexts c) ((s.caches cache).share (s.contexts c)).1] else []
  | _ => []

def Edit.calls (s : Session) (set n : Nat) : Edit → List Cache.Call
  | .add draft cache =>
    if cache = n then (s.sets set).addCalls (draft.config s) (s.joiner cache) else []
  | .addAll drafts cache =>
    if cache = n then (s.sets set).addAllCalls (drafts.map (·.config s)) (s.joiner cache) else []
  | _ => []

/-- The calls that a command makes on a cache, those for nested joins included. -/
def Command.calls (s : Session) (n : Nat) : Command → List Cache.Call
  | .context _ recipe => recipe.calls s n
  | .edit set step => step.calls s set n
  | .thaw set _ cache => if cache = n then (s.frozen set).thawCalls (s.joiner cache) else []
  | _ => []

/-- The calls of a program on a cache, in order. -/
def calls (s : Session) (n : Nat) : List Command → List Cache.Call
  | [] => []
  | command :: program => command.calls s n ++ (s.perform command).2.calls n program

/-- The command empties the cache, or puts a new one in its place. -/
def Command.forgets (n : Nat) : Command → Bool
  | .newCache cache _ _ => cache == n
  | .clearCache cache => cache == n
  | _ => false

/-- A session went on to another, and on the way the cache answered calls for known contexts. -/
structure Serves (known : Set Context) (s : Session) (n : Nat) (calls : List Cache.Call)
    (later : Session) : Prop where
  cache : (s.caches n).Serves calls (later.caches n)
  sound : ∃ wider, known ⊆ wider ∧ Sound wider later ∧ ∀ call ∈ calls, call.Within wider

variable {known wider : Set Context} {s later : Session} {n : Nat} {calls : List Cache.Call}
  {command : Command}

theorem serves_none (orderly : ∀ i, (s.caches i).Orderly) (same : later.caches n = s.caches n)
    (sound : ∃ wider, known ⊆ wider ∧ Sound wider later) : Serves known s n [] later := by
  obtain ⟨wider, included, sound⟩ := sound
  exact ⟨same.symm ▸ .refl (orderly n), wider, included, sound, List.forall_mem_nil _⟩

/-- One cache was used. -/
theorem serves_used {cache : Nat} {used : Cache} (orderly : ∀ i, (s.caches i).Orderly)
    (caches : later.caches = Function.update s.caches cache used)
    (served : (s.caches cache).Serves calls used)
    (sound : ∃ wider, known ⊆ wider ∧ Sound wider later ∧ ∀ call ∈ calls, call.Within wider) :
    Serves known s n (if cache = n then calls else []) later := by
  by_cases here : cache = n
  · subst here
    have same : later.caches cache = used := caches ▸ Function.update_self _ _ _
    rw [if_pos rfl]
    exact ⟨same.symm ▸ served, sound⟩
  · have same : later.caches n = s.caches n :=
      caches ▸ Function.update_of_ne (Ne.symm here) _ _
    obtain ⟨wider, included, sound, -⟩ := sound
    rw [if_neg here]
    exact serves_none orderly same ⟨wider, included, sound⟩

theorem caches_context (target : Nat) {recipe : Recipe}
    (same : ∀ obtained ∈ s.obtain? recipe, obtained.2.caches = s.caches) :
    (s.perform (.context target recipe)).2.caches n = s.caches n := by
  simp only [perform]
  split
  · rfl
  · rename_i obtained outcome
    exact congrFun (same obtained outcome) n

theorem serves_context (sound : s.Sound known) (orderly : ∀ i, (s.caches i).Orderly) (target : Nat)
    (recipe : Recipe) :
    Serves known s n (recipe.calls s n) (s.perform (.context target recipe)).2 := by
  obtain ⟨-, -, wider, included, sound'⟩ := perform_realizes sound (.context target recipe)
  cases recipe with
  | join left right cache =>
    have served := servable _ (sound.joiner cache) (orderly cache) (sound.contexts left)
      (sound.contexts right)
    refine serves_used orderly rfl served ⟨wider, included, sound', fun call listed => ?_⟩
    exact ((below_of_mem_joinCalls _ _ _ call listed).within sound.coherent
      (sound.contexts left) (sound.contexts right)).mono included
  | cachedJoin left right cache =>
    have served := Servable.cachedJoin (servable _) (sound.joiner cache) (orderly cache)
      (sound.contexts left) (sound.contexts right)
    refine serves_used orderly rfl served ⟨wider, included, sound', fun call listed => ?_⟩
    exact (within_of_mem_cachedJoinCalls sound.coherent (sound.contexts left)
      (sound.contexts right) listed).mono included
  | share c cache =>
    have served := Cache.share_serves sound.coherent (sound.caches cache) (orderly cache)
      (sound.contexts c)
    exact serves_used orderly rfl served ⟨wider, included, sound',
      List.forall_mem_singleton.mpr (included (sound.contexts c))⟩
  | ofParts parents ks =>
    refine serves_none orderly (caches_context target ?_) ⟨wider, included, sound'⟩
    simp only [obtain?]
    split <;> simp
  | parent c path =>
    refine serves_none orderly (caches_context target ?_) ⟨wider, included, sound'⟩
    simp only [obtain?]
    split <;> simp
  | entry set index =>
    refine serves_none orderly (caches_context target ?_) ⟨wider, included, sound'⟩
    simp [obtain?]
  | frozenEntry set index =>
    refine serves_none orderly (caches_context target ?_) ⟨wider, included, sound'⟩
    simp [obtain?]
  | _ => exact serves_none orderly rfl ⟨wider, included, sound'⟩

theorem serves_edit (sound : s.Sound known) (orderly : ∀ i, (s.caches i).Orderly) (i : Nat)
    (edit : Edit) : Serves known s n (edit.calls s i n) (s.performEdit i edit).2 := by
  obtain ⟨-, -, wider, included, sound'⟩ := perform_realizes sound (.edit i edit)
  simp only [perform] at sound'
  cases edit with
  | add draft cache =>
    simp only [Edit.calls]
    rcases ConfigSet.add_serves (sound.joiner cache) (orderly cache) (sound.sets i)
        (sound.draft draft) with ⟨refusal, refused, none⟩ | ⟨step, added, served, within⟩
    · simp only [performEdit, refused] at sound' ⊢
      rw [none, ite_self]
      exact serves_none orderly rfl ⟨known, subset_rfl, sound⟩
    · simp only [performEdit, added] at sound' ⊢
      exact serves_used orderly rfl served
        ⟨wider, included, sound', fun call listed => (within call listed).mono included⟩
  | addAll drafts cache =>
    obtain ⟨wider, included, joined, entries, served, within⟩ := ConfigSet.addAll_serves
      (sound.indexed i) (sound.joiner cache) (orderly cache) (sound.sets i) (sound.drafts drafts)
    have rejoined := sound.rejoin included joined cache
    have indexed := ConfigSet.indexed_addAll (sound.indexed i) (drafts.map (·.config s))
      (s.joiner cache)
    exact serves_used orderly rfl served
      ⟨wider, included, rejoined.putSet entries indexed i, within⟩
  | remove index =>
    refine serves_none orderly ?_ ⟨wider, included, sound'⟩
    simp only [performEdit]
    split <;> rfl
  | setOutermost outermost =>
    refine serves_none orderly ?_ ⟨wider, included, sound'⟩
    simp only [performEdit]
    split <;> rfl
  | _ => exact serves_none orderly rfl ⟨wider, included, sound'⟩

theorem serves_perform (sound : s.Sound known) (orderly : ∀ i, (s.caches i).Orderly)
    (kept : command.forgets n = false) :
    Serves known s n (command.calls s n) (s.perform command).2 := by
  have sound' := (perform_realizes sound command).sound
  cases command with
  | context target recipe => exact serves_context sound orderly target recipe
  | edit set edit => exact serves_edit sound orderly set edit
  | thaw set target cache =>
    obtain ⟨wider, included, joined, entries, served, within⟩ :=
      FrozenSet.thaw_serves (sound.joiner cache) (orderly cache) (sound.frozen set)
    have rejoined := sound.rejoin included joined cache
    simp only [Command.calls, perform]
    cases outcome : ((s.frozen set).thaw (s.joiner cache)).1 with
    | error refusal => exact serves_used orderly rfl served ⟨wider, included, rejoined, within⟩
    | ok later =>
      exact serves_used orderly rfl served ⟨wider, included,
        rejoined.putSet (entries later outcome) (FrozenSet.indexed_thaw outcome) target, within⟩
  | newCache cache enabled capacity =>
    have other : cache ≠ n := by simpa [Command.forgets] using kept
    exact serves_none orderly (Function.update_of_ne other.symm _ _) sound'
  | clearCache cache =>
    have other : cache ≠ n := by simpa [Command.forgets] using kept
    exact serves_none orderly (Function.update_of_ne other.symm _ _) sound'
  | _ => exact serves_none orderly rfl sound'

/-- A command that forgets a cache leaves a new one, and every other command goes on with it. -/
theorem orderly_perform (sound : s.Sound known) (orderly : ∀ i, (s.caches i).Orderly)
    (command : Command) (n : Nat) : ((s.perform command).2.caches n).Orderly := by
  cases kept : command.forgets n with
  | false => exact (serves_perform sound orderly kept).cache.orderly
  | true =>
    cases command with
    | newCache cache enabled capacity =>
      obtain rfl : cache = n := by simpa [Command.forgets] using kept
      have new : (s.perform (.newCache cache enabled capacity)).2.caches cache =
          .new enabled capacity := Function.update_self _ _ _
      rw [new]
      exact Cache.orderly_new _ _
    | clearCache cache =>
      obtain rfl : cache = n := by simpa [Command.forgets] using kept
      have cleared : (s.perform (.clearCache cache)).2.caches cache = (s.caches cache).clear :=
        Function.update_self _ _ _
      rw [cleared]
      exact Cache.orderly_new _ _
    | _ => contradiction

theorem orderly_run (sound : s.Sound known) (orderly : ∀ i, (s.caches i).Orderly)
    (program : List Command) : ∀ i, ((s.run program).2.caches i).Orderly := by
  induction program generalizing s known with
  | nil => exact orderly
  | cons command program ih =>
    obtain ⟨-, -, wider, -, sound'⟩ := perform_realizes sound command
    exact ih sound' (orderly_perform sound orderly command)

/-- By induction on the program: what the cache answered stays canonical. -/
theorem serves_run (sound : s.Sound known) (orderly : ∀ i, (s.caches i).Orderly)
    (program : List Command) (kept : ∀ command ∈ program, command.forgets n = false) :
    Serves known s n (s.calls n program) (s.run program).2 := by
  induction program generalizing s known with
  | nil => exact serves_none orderly rfl ⟨known, subset_rfl, sound⟩
  | cons command program ih =>
    obtain ⟨first, others⟩ := List.forall_mem_cons.mp kept
    obtain ⟨served, middle, upward, sound', within⟩ := serves_perform sound orderly first
    obtain ⟨rest, wider, included, sound'', within'⟩ :=
      ih sound' (orderly_perform sound orderly command) others
    refine ⟨served.append rest, wider, upward.trans included, sound'',
      List.forall_mem_append.mpr ⟨?_, within'⟩⟩
    exact fun call listed => (within call listed).mono included

/-- What calls on a cache come to: equal answers are one instance, and so are the answers to joins
of equal contexts, in either order. Each join among the calls was counted, so that none is left
out. -/
structure Canonizes (cache : Cache) (calls : List Cache.Call) (later : Cache) : Prop where
  value : ∀ call ∈ calls, call.result.tree = call.value
  identical_iff : ∀ a ∈ calls, ∀ b ∈ calls,
    a.result.identical b.result = true ↔ a.result.equal b.result = true
  joins : ∀ a b c, .join a b c ∈ calls → ∀ a' b' c', .join a' b' c' ∈ calls →
    (a.equal a' = true ∧ b.equal b' = true ∨ a.equal b' = true ∧ b.equal a' = true) →
    c.identical c' = true
  counted : later.hits + later.misses =
    cache.hits + cache.misses + calls.countP Cache.Call.isJoin

/-- Whatever programs do with an enabled cache, nested joins included, its answers are canonical
until it is cleared. -/
theorem calls_canonized (rule : DigestRule) (history program : List Command) (n : Nat)
    (enabled : ((reached rule history).caches n).enabled = true)
    (kept : ∀ command ∈ program, command.forgets n = false) :
    let s := reached rule history
    Canonizes (s.caches n) (s.calls n program) ((s.run program).2.caches n) := by
  obtain ⟨known, sound⟩ := sound_reached rule history
  have orderly := orderly_run (sound_starting rule) (fun _ => Cache.orderly_new _ _) history
  obtain ⟨served, wider, -, sound', within⟩ := serves_run sound orderly program kept
  intro s
  have coherent := sound'.coherent
  have canonical (call : Cache.Call) (listed : call ∈ s.calls n program) :=
    (served.answered call listed).canonical (served.enabled.trans enabled)
  have results (call : Cache.Call) (listed : call ∈ s.calls n program) : call.result ∈ wider :=
    (sound'.caches n).canonical call.result (canonical call listed)
  have unique (a b : Cache.Call) (left : a ∈ s.calls n program) (right : b ∈ s.calls n program)
      (same : a.result.tree = b.result.tree) : a.result.identical b.result = true := by
    rw [Table.eq_of_value served.orderly.distinct (canonical a left) (canonical b right) same]
    exact identical_self b.result
  refine ⟨fun call listed => (served.answered call listed).value, ?_, ?_, served.counted enabled⟩
  · intro a left b right
    refine ⟨equal_of_identical, fun equal => unique a b left right ?_⟩
    exact (coherent.equal_iff (results a left) (results b right)).mp equal
  · intro a b c listed a' b' c' listed' operands
    obtain ⟨left, right⟩ := within _ listed
    obtain ⟨left', right'⟩ := within _ listed'
    refine unique _ _ listed listed' ?_
    rw [(served.answered _ listed).value, (served.answered _ listed').value]
    rcases operands with ⟨first, second⟩ | ⟨first, second⟩
    · exact congrArg₂ Tree.join ((coherent.equal_iff left left').mp first)
        ((coherent.equal_iff right right').mp second)
    · calc a.tree.join b.tree
        _ = b.tree.join a.tree :=
          Tree.join_comm (coherent.canonical left) (coherent.canonical right)
        _ = a'.tree.join b'.tree := congrArg₂ Tree.join
          ((coherent.equal_iff right left').mp second) ((coherent.equal_iff left right').mp first)

/-- A cache that remembers one join at a time. -/
def shortMemory : List Command := [.newCache 0 true 1]

/-- Two stacks are joined, and with them their callers. Only the former is remembered when copies of
the callers are joined in the other order. Then a copy of the first answer is shared. -/
def copiedCallers : List Command :=
  [.context 0 (.push 9 7), .context 1 (.push 9 8), .context 2 (.push 0 4), .context 3 (.push 1 4),
    .context 4 (.cachedJoin 2 3 0), .context 5 (.push 9 7), .context 6 (.push 9 8),
    .context 7 (.cachedJoin 6 5 0), .context 8 (.push 7 4), .context 9 (.share 8 0)]

/-- No join is answered from the memory. -/
theorem calls_canonized_copiedCallers :
    ((reached .sha256 shortMemory).caches 0).enabled = true ∧
      (∀ command ∈ copiedCallers, command.forgets 0 = false) ∧
      (((reached .sha256 shortMemory).calls 0 copiedCallers).length = 4 ∧
        (((reached .sha256 shortMemory).run copiedCallers).2.caches 0).hits = 0) ∧
      Canonizes ((reached .sha256 shortMemory).caches 0)
        ((reached .sha256 shortMemory).calls 0 copiedCallers)
        (((reached .sha256 shortMemory).run copiedCallers).2.caches 0) := by
  have kept : ∀ command ∈ copiedCallers, command.forgets 0 = false := by decide
  exact ⟨rfl, kept, by decide +kernel,
    calls_canonized .sha256 shortMemory copiedCallers 0 rfl kept⟩

end Prediction.Session
