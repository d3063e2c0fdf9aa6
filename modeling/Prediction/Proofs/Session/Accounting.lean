import Prediction.Proofs.Session.Canonizing

/-!
The figures of a cache. Since it was emptied, a cache has counted every join that it was asked for,
nested ones included, as a hit or as a miss, and each miss has put one join on record. Where nothing
is lost for want of room, asking again is a hit that changes nothing else.
-/

namespace Prediction.Session

open Context

/-- The join of two contexts is on record in a cache, and asking for it is one more hit. -/
structure RepeatsJoin (s : Session) (n : Nat) (left right result : Context) : Prop where
  result : (left.cachedJoin right (s.joiner n)).1 = result
  supply : (left.cachedJoin right (s.joiner n)).2.supply = s.supply
  cache : ∃ joins, joins.capacity = (s.caches n).joins.capacity ∧
    joins.entries.Perm (s.caches n).joins.entries ∧
    (left.cachedJoin right (s.joiner n)).2.cache =
      { s.caches n with joins, hits := (s.caches n).hits + 1 }

/-- What the figures of a cache say about the calls that it answered since it was empty. -/
structure Figures (s : Session) (n : Nat) (calls : List Cache.Call) : Prop where
  joinCount : (s.caches n).enabled = true → (s.caches n).joinCount =
    if (s.caches n).joins.capacity = 0 then (s.caches n).misses
    else min (s.caches n).joins.capacity (s.caches n).misses
  counted : (s.caches n).enabled = true →
    (s.caches n).hits + (s.caches n).misses = calls.countP Cache.Call.isJoin
  repeated : (s.caches n).enabled = true → (s.caches n).joins.capacity = 0 →
    ∀ a b c, .join a b c ∈ calls → s.RepeatsJoin n a b c ∧ s.RepeatsJoin n b a c
  disabled : (s.caches n).enabled = false →
    (s.caches n).joinCount = 0 ∧ (s.caches n).hits = 0 ∧ (s.caches n).misses = 0

variable {known : Set Context} {s : Session} {n : Nat} {a b c : Context} {command : Command}

/-- A command that forgets a cache leaves an empty one of the same kind or of the kind asked for. -/
theorem new_perform (forgotten : command.forgets n = true) :
    ∃ enabled capacity, (s.perform command).2.caches n = .new enabled capacity := by
  cases command with
  | newCache cache enabled capacity =>
    obtain rfl : cache = n := by simpa [Command.forgets] using forgotten
    exact ⟨enabled, capacity, Function.update_self _ _ _⟩
  | clearCache cache =>
    obtain rfl : cache = n := by simpa [Command.forgets] using forgotten
    exact ⟨_, _, Function.update_self _ _ _⟩
  | _ => contradiction

/-- A join on record is answered with the one canonical instance of its value. -/
theorem repeatsJoin_of_recorded (sound : s.Sound known) (orderly : (s.caches n).Orderly)
    (on : (s.caches n).enabled = true) (left : a ∈ known) (right : b ∈ known)
    (canonical : c ∈ (s.caches n).canonical.entries) (value : c.tree = a.tree.join b.tree)
    (recorded : ∃ e ∈ (s.caches n).joins.entries, e.matches a b = true) :
    s.RepeatsJoin n a b c := by
  obtain ⟨e, present, answers⟩ := recorded
  have caches := (sound.caches n).recorded
  cases answer : (s.caches n).joins.lookup? a b with
  | none => exact absurd answers (JoinMemo.lookup?_eq_none_iff.mp answer e present)
  | some answered =>
    obtain ⟨c', found⟩ := answered
    obtain ⟨-, value', -⟩ := JoinMemo.lookup?_spec sound.coherent caches left right answer
    obtain rfl := Table.eq_of_value orderly.distinct (orderly.lookup? answer).1 canonical
      (value'.trans value.symm)
    obtain ⟨capacity, perm⟩ := JoinMemo.perm_of_lookup? answer
    obtain ⟨outcome, -⟩ := remember_recorded (j := s.joiner n) (a.join b) (a.joinCalls b) on answer
    have joined : a.cachedJoin b (s.joiner n) = _ := outcome
    exact ⟨by rw [joined], by rw [joined]; rfl, found, capacity, perm, by rw [joined]; rfl⟩

theorem matches_comm (e : JoinMemo.Entry) (a b : Context) : e.matches a b = e.matches b a :=
  Bool.or_comm _ _

/-- Whatever was done with a cache before it was emptied, and whatever is done with it until it is
emptied again. -/
theorem figures_run (rule : DigestRule) (history program : List Command) (reset : Command) (n : Nat)
    (emptied : reset.forgets n = true) (kept : ∀ command ∈ program, command.forgets n = false) :
    let s := ((reached rule history).perform reset).2
    (s.run program).2.Figures n (s.calls n program) := by
  obtain ⟨before, earlier⟩ := sound_reached rule history
  have orderlyBefore := orderly_run (sound_starting rule) (fun _ => Cache.orderly_new _ _) history
  obtain ⟨-, -, known, -, sound⟩ := perform_realizes earlier reset
  have orderly := orderly_perform earlier orderlyBefore reset
  obtain ⟨enabled, capacity, new⟩ := new_perform (s := reached rule history) emptied
  intro s
  change s.caches n = _ at new
  obtain ⟨served, wider, -, sound', within⟩ := serves_run sound orderly program kept
  have accounts := served.accounts
  have nothing : (s.caches n).joins.size = 0 ∧ (s.caches n).hits = 0 ∧ (s.caches n).misses = 0 :=
    new ▸ ⟨rfl, rfl, rfl⟩
  refine ⟨?joinCount, ?counted, ?repeated, ?disabled⟩
  case joinCount =>
    intro _
    have fits : (s.caches n).joins.Fits := by
      rw [JoinMemo.Fits, JoinMemo.bounded, nothing.1]
      split <;> simp
    have size := accounts.size fits
    rw [nothing.1, nothing.2.2, Nat.zero_add, Nat.sub_zero,
      ← JoinMemo.bounded_congr accounts.capacity] at size
    exact size
  case counted =>
    intro on
    have counted := served.counted (served.enabled.symm.trans on)
    rwa [nothing.2.1, nothing.2.2, Nat.zero_add] at counted
  case repeated =>
    intro on unbounded a b c listed
    obtain ⟨left, right⟩ := within _ listed
    obtain ⟨value, canonical⟩ := served.answered _ listed
    obtain ⟨e, present, answers, -⟩ := accounts.recorded (served.enabled.symm.trans on)
      (accounts.capacity.symm.trans unbounded) a b c listed
    have commuted : c.tree = b.tree.join a.tree := value.trans
      (Tree.join_comm (sound'.coherent.canonical left) (sound'.coherent.canonical right))
    exact ⟨repeatsJoin_of_recorded sound' served.orderly on left right (canonical on) value
        ⟨e, present, answers⟩,
      repeatsJoin_of_recorded sound' served.orderly on right left (canonical on) commuted
        ⟨e, present, (matches_comm e b a).trans answers⟩⟩
  case disabled =>
    intro off
    rw [accounts.disabled (served.enabled.symm.trans off)]
    exact nothing

/-- A cache that remembers every join. -/
def unboundedCache : Command := .newCache 0 true 0

/-- Two stacks are joined, and with them their callers. Then the callers are joined by themselves,
in the other order. -/
def callersAgain : List Command :=
  [.context 0 (.push 9 7), .context 1 (.push 9 8), .context 2 (.push 0 4), .context 3 (.push 1 4),
    .context 4 (.cachedJoin 2 3 0), .context 5 (.cachedJoin 1 0 0)]

/-- The last join is a hit. -/
theorem figures_callersAgain :
    let s := ((reached .sha256 []).perform unboundedCache).2
    let later := (s.run callersAgain).2
    unboundedCache.forgets 0 = true ∧ (∀ command ∈ callersAgain, command.forgets 0 = false) ∧
      ((later.caches 0).misses = 2 ∧ (later.caches 0).hits = 1) ∧
      later.Figures 0 (s.calls 0 callersAgain) := by
  have kept : ∀ command ∈ callersAgain, command.forgets 0 = false := by decide
  exact ⟨rfl, kept, by decide +kernel,
    figures_run .sha256 [] callersAgain unboundedCache 0 rfl kept⟩

end Prediction.Session
