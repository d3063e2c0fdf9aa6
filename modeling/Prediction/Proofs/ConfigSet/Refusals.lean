import Prediction.Proofs.ConfigSet.Thawing

/-!
What a set refuses. A configuration is refused for what it is and for the latch, and no insertion
touches the latch. So what is added before the first refused configuration is the same whether the
others are offered or not, and thawing does nothing but that either.
-/

namespace Prediction

namespace ConfigSet

variable {s : ConfigSet} {c : Config} {cs : List Config} {j : Joiner} {refusal : ConfigSet.Error}

/-- An outermost set refuses hidden configurations, and of the others those that reach further
out. -/
theorem refusal?_eq_some_iff : s.refusal? c = some refusal ↔ s.outermost = true ∧
    (c.hidden = true ∧ refusal = .hiddenInOutermost c.key ∨
      c.hidden = false ∧ c.reachesOuter = true ∧ refusal = .outerContextInOutermost c.key) := by
  unfold refusal?
  cases s.outermost <;> cases c.hidden <;> cases c.reachesOuter <;> simp [eq_comm]

theorem add_eq_error_iff : s.add c j = .error refusal ↔ s.refusal? c = some refusal := by
  unfold add
  cases s.refusal? c <;> simp

theorem outermost_mergeAt (s : ConfigSet) (index : Nat) (c : Config) (j : Joiner) :
    (s.mergeAt index c j).set.outermost = s.outermost := by
  unfold mergeAt
  split <;> rfl

theorem outermost_insert (s : ConfigSet) (c : Config) (j : Joiner) :
    (s.insert c j).set.outermost = s.outermost := by
  unfold insert
  split
  · exact outermost_mergeAt s _ c j
  · split
    · dsimp only
      split <;> exact outermost_mergeAt s _ c j
    · rfl

/-- What is inserted does not make the set refuse more or less. -/
theorem refusal?_insert (s : ConfigSet) (c : Config) (j : Joiner) :
    (s.insert c j).set.refusal? = s.refusal? := by
  funext other
  unfold refusal?
  rw [outermost_insert]

theorem addAll_cons_of_accepted (accepted : s.refusal? c = none) (cs : List Config) (j : Joiner) :
    s.addAll (c :: cs) j =
      let step := s.insert c j
      let rest := step.set.addAll cs step.joiner
      (rest.1.map (step.changed || ·), rest.2) := by
  simp only [addAll, add, accepted]

theorem addAll_cons_of_refused (refused : s.refusal? c = some refusal) (cs : List Config)
    (j : Joiner) : s.addAll (c :: cs) j = (.error refusal, s, j) := by
  simp only [addAll, add, refused]

/-- Additions fail with the refusal of the first configuration that is refused. -/
theorem addAll_eq_error_iff :
    (s.addAll cs j).1 = .error refusal ↔ cs.findSome? s.refusal? = some refusal := by
  induction cs generalizing s j with
  | nil => simp [addAll]
  | cons c cs ih =>
    cases outcome : s.refusal? c with
    | some refusal' => simp [addAll_cons_of_refused outcome, outcome]
    | none =>
      have rest := ih (s := (s.insert c j).set) (j := (s.insert c j).joiner)
      rw [refusal?_insert] at rest
      rw [List.findSome?_cons, outcome, ← rest, addAll_cons_of_accepted outcome]
      dsimp only
      cases ((s.insert c j).set.addAll cs (s.insert c j).joiner).1 <;> simp [Except.map]

/-- Whatever comes after a refused configuration, additions end before it. -/
theorem addAll_of_refused (accepted : ∀ d ∈ cs, s.refusal? d = none)
    (refused : s.refusal? c = some refusal) (others : List Config) (j : Joiner) :
    (s.addAll (cs ++ c :: others) j).2 = (s.addAll cs j).2 := by
  induction cs generalizing s j with
  | nil => rw [List.nil_append, addAll_cons_of_refused refused, addAll]
  | cons d cs ih =>
    obtain ⟨first, later⟩ := List.forall_mem_cons.mp accepted
    rw [List.cons_append, addAll_cons_of_accepted first, addAll_cons_of_accepted first]
    rw [← refusal?_insert s d j] at later refused
    exact ih later refused (s.insert d j).joiner

theorem refusal?_addAll (s : ConfigSet) (cs : List Config) (j : Joiner) :
    (s.addAll cs j).2.1.refusal? = s.refusal? := by
  induction cs generalizing s j with
  | nil => rfl
  | cons c cs ih =>
    cases outcome : s.refusal? c with
    | some refusal => rw [addAll_cons_of_refused outcome]
    | none =>
      rw [addAll_cons_of_accepted outcome]
      exact (ih _ _).trans (refusal?_insert s c j)

end ConfigSet

/-- Thawing joins nothing, whether it fails or not. -/
theorem FrozenSet.joiner_of_thaw {f : FrozenSet} (distinct : f.linear.Distinct) (j : Joiner) :
    (f.thaw j).2 = j := by
  have identities : (f.configs.map Config.identity).Nodup := by
    have values : f.linear.entries.map Config.Value.identity = f.configs.map Config.identity :=
      List.map_map
    exact values ▸ distinct
  have replay := ConfigSet.addAll_of_distinct
    (s := ConfigSet.starting f.outermost f.guarded f.dips) (j := j) identities
  rw [FrozenSet.thaw, replay]

end Prediction
