import Prediction.Proofs.Context.Worklist
import Prediction.Proofs.Network.Checked
import Prediction.Proofs.Session.Proper

/-!
The form of contexts. However a client obtains a context, each of its nodes has its paths in order,
and the mark of the outermost context last; that is why no operation on contexts ever reads a path
that is not there or builds a context from parts that do not fit.
-/

namespace Prediction

open Context

/-- How a context, and every one below it, ought to be. -/
structure Context.Formed (c : Context) : Prop where
  inhabited : c.isEmpty = false → 0 < c.size
  /-- One path to the outermost context alone would be that context itself. -/
  single : ∀ path, c.paths = [path] → path.1 ≠ outermostKey
  ascending : (c.paths.map (·.1)).Pairwise (· < ·)
  markLast : ∀ i path, c.paths[i]? = some path → path.1 = outermostKey → i + 1 = c.size

theorem Context.formed_of_row {c : Context}
    (row : c.isEmpty = false → Tree.Row (c.paths.map (·.1))) : c.Formed := by
  cases node : c.isEmpty with
  | true =>
    have none : c.paths = [] := by cases c <;> first | rfl | contradiction
    exact ⟨fun off => by simp [node] at off, fun path some => by simp [none] at some,
      by simp [none], fun i path some => by simp [none] at some⟩
  | false =>
    obtain ⟨ascending, k, present, regular⟩ := row node
    refine ⟨fun _ => ?_, ?_, ascending, ?_⟩
    · obtain ⟨path, inRow, -⟩ := List.mem_map.mp present
      exact List.length_pos_of_mem inRow
    · intro path only
      rw [only, List.map_singleton, List.mem_singleton] at present
      exact present ▸ regular
    · intro i path found mark
      by_contra more
      obtain ⟨within, here⟩ := List.getElem?_eq_some_iff.mp found
      have next : i + 1 < c.paths.length := Nat.lt_of_le_of_ne within more
      have below := List.pairwise_iff_getElem.mp ascending i (i + 1) (by simpa using within)
        (by simpa using next) (Nat.lt_succ_self i)
      rw [List.getElem_map, here, mark] at below
      exact Tree.not_above_outermostKey _ below

theorem Coherent.formed {known : Set Context} {s : Supply} {c : Context}
    (coherent : Coherent s known) (present : c ∈ known) : c.Formed := by
  refine formed_of_row fun node => ?_
  cases c with
  | node l d ps => exact coherent.row present
  | _ => contradiction

namespace Session

/-- What can be done with contexts, done with all checks. -/
structure NeverFails (s : Session) : Prop where
  join : ∀ a b, s.Obtainable a → s.Obtainable b → ∀ j, Checked.join a b j = .ok (a.join b j)
  cachedJoin : ∀ a b, s.Obtainable a → s.Obtainable b →
    ∀ j, Checked.cachedJoin a b j = .ok (a.cachedJoin b j)
  addOutermost : ∀ a, s.Obtainable a →
    ∀ supply, Checked.addOutermost a supply = .ok (a.addOutermost supply)
  covers : ∀ a b, s.Obtainable a → s.Obtainable b →
    Checked.covers a b s.supply = .ok (a.covers b)
  intern : ∀ a, s.Obtainable a → ∀ n,
    (s.networks n).internChecked a s.supply = .ok ((s.networks n).intern a s.supply)
  nodeCount : ∀ a, s.Obtainable a → Checked.nodeCount a = .ok a.nodeCount

theorem Sound.neverFails {known : Set Context} {s : Session} (sound : s.Sound known) :
    s.NeverFails := by
  have coherent := sound.coherent
  have canonical {c : Context} (obtained : s.Obtainable c) : c.tree.Canonical :=
    coherent.canonical (sound.obtainable obtained)
  exact {
    join := fun a b left right => Checked.join_eq (canonical left) (canonical right)
    cachedJoin := fun a b left right => Checked.cachedJoin_eq (canonical left) (canonical right)
    addOutermost := fun a obtained => Checked.addOutermost_eq (canonical obtained)
    covers := fun a b left right =>
      Checked.covers_eq coherent (sound.obtainable left) (sound.obtainable right)
    intern := fun a obtained n =>
      Network.internChecked_eq coherent (sound.networks n) (sound.obtainable obtained)
    nodeCount := fun a obtained => Checked.nodeCount_eq coherent (sound.obtainable obtained) }

/-- In every session that a program leads to. What is over the mark is up to the client. -/
theorem reached_wellFormed (rule : DigestRule) (program : List Command) :
    let s := reached rule program
    (∀ c, s.Obtainable c → c.Formed) ∧ s.NeverFails ∧
      ((starting rule).MarksOutermost program → ∀ c, s.Obtainable c →
        ∀ path ∈ c.paths, path.1 = outermostKey → path.2.isOutermost = true) := by
  obtain ⟨known, sound⟩ := sound_reached rule program
  refine ⟨fun c obtained => sound.coherent.formed (sound.obtainable obtained), sound.neverFails, ?_⟩
  intro marks c obtained path inRow mark
  have proper : c.Proper := proper_of_obtainable
    (proper_run (sound_starting rule) LinearSession.proper_starting marks) obtained
  cases c with
  | node l d ps =>
    have branch := mem_treePaths.mpr ⟨path, inRow, rfl⟩
    exact isOutermost_iff_tree.mpr (Tree.Proper.marked proper branch mark)
  | _ => contradiction

/-- A caller or the outermost context, built in one go and joined with another caller. -/
def optionalEnd : List Command :=
  [.context 1 (.push 0 7), .context 2 (.ofParts [1, 0] [5, outermostKey]),
    .context 3 (.join 2 1 0)]

theorem marked_optionalEnd :
    (starting .sha256).MarksOutermost optionalEnd ∧
      ∀ c, (reached .sha256 optionalEnd).Obtainable c →
        ∀ path ∈ c.paths, path.1 = outermostKey → path.2.isOutermost = true := by
  have marks : (starting .sha256).MarksOutermost optionalEnd :=
    ⟨trivial, List.forall_mem_cons.mpr ⟨fun mark => absurd mark (by decide),
      List.forall_mem_singleton.mpr fun _ => rfl⟩, trivial, trivial⟩
  exact ⟨marks, (reached_wellFormed .sha256 optionalEnd).2.2 marks⟩

end Session

end Prediction
