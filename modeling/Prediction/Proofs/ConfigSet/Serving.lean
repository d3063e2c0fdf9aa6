import Prediction.Proofs.ConfigSet.Refinement
import Prediction.Proofs.Context.Serving

/-!
The calls on a cache that additions to sets take. A merge joins the context of an entry with that of
what is added, and no other addition joins anything.
-/

namespace Prediction

open Context

namespace ConfigSet

def mergeAtCalls (s : ConfigSet) (index : Nat) (c : Config) (j : Joiner) : List Cache.Call :=
  match s.configs[index]? with
  | none => []
  | some entry => entry.context.joinCalls c.context j

def insertCalls (s : ConfigSet) (c : Config) (j : Joiner) : List Cache.Call :=
  match (s.representative? c.key).filter (s.mergesAt c) with
  | some index => s.mergeAtCalls index c j
  | none =>
    match s.overflow.find? (s.mergesAt c) with
    | some index => s.mergeAtCalls index c j
    | none => []

def addCalls (s : ConfigSet) (c : Config) (j : Joiner) : List Cache.Call :=
  match s.refusal? c with
  | some _ => []
  | none => s.insertCalls c j

def addAllCalls (s : ConfigSet) : List Config → Joiner → List Cache.Call
  | [], _ => []
  | c :: cs, j =>
    s.addCalls c j ++
      match s.add c j with
      | .error _ => []
      | .ok step => step.set.addAllCalls cs step.joiner

variable {known : Set Context} {s : ConfigSet} {c : Config} {cs : List Config} {j : Joiner}

theorem mergeAt_serves (sound : j.Sound known) (orderly : j.cache.Orderly)
    (within : s.Known known) (context : c.context ∈ known) (index : Nat) :
    j.cache.Serves (s.mergeAtCalls index c j) (s.mergeAt index c j).joiner.cache ∧
      ∀ call ∈ s.mergeAtCalls index c j, call.Within known := by
  unfold mergeAtCalls mergeAt
  cases present : s.configs[index]? with
  | none => exact ⟨.refl orderly, List.forall_mem_nil _⟩
  | some entry =>
    have left := within entry (List.mem_of_getElem? present)
    exact ⟨servable entry.context sound orderly left context, fun call listed =>
      (below_of_mem_joinCalls _ _ _ call listed).within sound.coherent left context⟩

theorem insert_serves (sound : j.Sound known) (orderly : j.cache.Orderly)
    (within : s.Known known) (context : c.context ∈ known) :
    j.cache.Serves (s.insertCalls c j) (s.insert c j).joiner.cache ∧
      ∀ call ∈ s.insertCalls c j, call.Within known := by
  unfold insertCalls insert
  cases (s.representative? c.key).filter (s.mergesAt c) with
  | some index => exact mergeAt_serves sound orderly within context index
  | none =>
    cases s.overflow.find? (s.mergesAt c) with
    | some index =>
      dsimp only
      split <;> exact mergeAt_serves sound orderly within context index
    | none => exact ⟨.refl orderly, List.forall_mem_nil _⟩

/-- The calls for one addition, whether it is refused or not. -/
theorem add_serves (sound : j.Sound known) (orderly : j.cache.Orderly) (within : s.Known known)
    (context : c.context ∈ known) :
    (∃ refusal, s.add c j = .error refusal ∧ s.addCalls c j = []) ∨
      ∃ step, s.add c j = .ok step ∧ j.cache.Serves (s.addCalls c j) step.joiner.cache ∧
        ∀ call ∈ s.addCalls c j, call.Within known := by
  unfold add addCalls
  cases s.refusal? c with
  | some refusal => exact .inl ⟨refusal, rfl, rfl⟩
  | none => exact .inr ⟨s.insert c j, rfl, insert_serves sound orderly within context⟩

theorem addAll_serves (indexed : s.Indexed) (sound : j.Sound known) (orderly : j.cache.Orderly)
    (within : s.Known known) (contexts : ∀ c ∈ cs, c.context ∈ known) :
    ∃ wider, known ⊆ wider ∧ Joiner.Sound wider (s.addAll cs j).2.2 ∧
      (s.addAll cs j).2.1.Known wider ∧
      j.cache.Serves (s.addAllCalls cs j) (s.addAll cs j).2.2.cache ∧
      ∀ call ∈ s.addAllCalls cs j, call.Within wider := by
  induction cs generalizing s j known with
  | nil =>
    exact ⟨known, subset_rfl, sound, within, .refl orderly, List.forall_mem_nil _⟩
  | cons c cs ih =>
    obtain ⟨first, others⟩ := List.forall_mem_cons.mp contexts
    unfold addAll addAllCalls
    rcases add_serves sound orderly within first with
      ⟨refusal, refused, none⟩ | ⟨step, added, served, operands⟩
    · rw [refused, none]
      exact ⟨known, subset_rfl, sound, within, .refl orderly, List.forall_mem_nil _⟩
    · rcases add_realizes indexed sound within first with
        ⟨refusal, refused, -⟩ | ⟨step', result, added', -, indexed', realizes⟩
      · rw [added] at refused
        contradiction
      · obtain rfl := Except.ok.inj (added.symm.trans added')
        obtain ⟨middle, upward, sound', within'⟩ := realizes.sound
        obtain ⟨wider, included, sound'', within'', rest, operands'⟩ :=
          ih indexed' sound' served.orderly within' fun c' present => upward (others c' present)
        rw [added]
        refine ⟨wider, upward.trans included, sound'', within'', served.append rest,
          List.forall_mem_append.mpr ⟨?_, operands'⟩⟩
        exact fun call listed => (operands call listed).mono (upward.trans included)

end ConfigSet

namespace FrozenSet

def thawCalls (f : FrozenSet) (j : Joiner) : List Cache.Call :=
  (ConfigSet.starting f.outermost f.guarded f.dips).addAllCalls f.configs j

theorem thaw_serves {known : Set Context} {f : FrozenSet} {j : Joiner} (sound : j.Sound known)
    (orderly : j.cache.Orderly) (within : f.Known known) :
    ∃ wider, known ⊆ wider ∧ Joiner.Sound wider (f.thaw j).2 ∧
      (∀ s, (f.thaw j).1 = .ok s → s.Known wider) ∧
      j.cache.Serves (f.thawCalls j) (f.thaw j).2.cache ∧
      ∀ call ∈ f.thawCalls j, call.Within wider := by
  obtain ⟨wider, included, sound', within', served⟩ := ConfigSet.addAll_serves
    (ConfigSet.indexed_starting f.outermost f.guarded f.dips) sound orderly
    (List.forall_mem_nil _) within
  refine ⟨wider, included, sound', ?_, served⟩
  intro s thawed
  rw [eq_of_thaw thawed]
  exact within'

end FrozenSet

end Prediction
