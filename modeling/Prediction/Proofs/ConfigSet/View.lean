import Mathlib.Logic.Function.Basic
import Prediction.Proofs.ConfigSet.Linear
import Prediction.Proofs.Context.Coherent

/-!
What a set of configurations shows. Its texts are written from the values of its configurations, so
everything that a set shows is known from the linear set with the same entries.
-/

namespace Prediction

namespace Context

theorem pathTexts_of_trees {ps qs : List Path}
    (parents : ∀ path ∈ ps, ∀ c : Context, path.2.tree = c.tree → path.2.text = c.text)
    (same : treePaths ps = treePaths qs) : pathTexts ps = pathTexts qs := by
  induction ps generalizing qs with
  | nil =>
    cases qs with
    | nil => rfl
    | cons _ _ => simp [treePaths] at same
  | cons path ps ih =>
    obtain ⟨k, p⟩ := path
    cases qs with
    | nil => simp [treePaths] at same
    | cons other qs =>
      obtain ⟨k', q⟩ := other
      obtain ⟨first, others⟩ := List.forall_mem_cons.mp parents
      simp only [treePaths, List.cons.injEq, Prod.mk.injEq] at same
      obtain ⟨⟨rfl, parent⟩, rest⟩ := same
      have outermost : p.isOutermost = q.isOutermost := by
        rw [Bool.eq_iff_iff, isOutermost_iff_tree, isOutermost_iff_tree, parent]
      simp only [pathTexts, pathText, outermost, first q parent, ih others rest]

/-- Contexts of one tree have one text. -/
theorem text_of_tree : Function.FactorsThrough text tree := by
  intro a b same
  induction a generalizing b with
  | outermostAt => cases b <;> simp [tree, text] at same ⊢
  | wildcardAt => cases b <;> simp [tree, text] at same ⊢
  | node l d ps ih =>
    cases b with
    | outermostAt => simp [tree] at same
    | wildcardAt => simp [tree] at same
    | node l' d' qs =>
      have texts := pathTexts_of_trees (fun path inRow _ parent => ih path inRow parent)
        (Tree.node.inj same)
      simp only [text, texts]

end Context

/-- Configurations of one value have one text. -/
theorem Config.text_of_value (showContext : Bool) :
    Function.FactorsThrough (Config.textWith showContext) Config.value := by
  intro c c' same
  simp only [Config.value, Config.Value.mk.injEq] at same
  obtain ⟨state, alt, context, guard, depth, reachesOuter, hidden, -⟩ := same
  simp only [Config.textWith, state, alt, Context.text_of_tree context, guard, depth, reachesOuter,
    hidden]

namespace ConfigContents

/-- The order of printing, by value. -/
def valueOrder (a b : Config.Value × String) : Ordering :=
  ((compare a.1.alt b.1.alt).then (compare a.1.state b.1.state)).then (compare a.2 b.2)

theorem values_sorted (s : ConfigContents) :
    s.sorted.map Config.value =
      ((s.linear.entries.map fun c => (c, c.guard.text)).mergeSort
        fun a b => (valueOrder a b).isLE).map Prod.fst := by
  have listed : (s.linear.entries.map fun c => (c, c.guard.text)) =
      (s.configs.map fun c => (c, c.guard.text)).map fun c => (c.1.value, c.2) := by
    rw [linear, List.map_map, List.map_map]
    rfl
  rw [listed, ← List.map_mergeSort (r := fun a b => (printOrder a b).isLE) fun a _ b _ => rfl,
    sorted, List.map_map, List.map_map]
  rfl

/-- Sets of one meaning have one text. -/
theorem text_of_linear (showContext : Bool) :
    Function.FactorsThrough (ConfigContents.textWith showContext) ConfigContents.linear := by
  intro s t same
  obtain ⟨write, texts⟩ := (Function.factorsThrough_iff _).mp (Config.text_of_value showContext)
  have values : s.sorted.map Config.value = t.sorted.map Config.value := by
    rw [values_sorted, values_sorted, same]
  have lines : s.sorted.map (Config.textWith showContext) =
      t.sorted.map (Config.textWith showContext) := by
    rw [texts, ← List.map_map, ← List.map_map, values]
  simp only [linear, LinearSet.mk.injEq] at same
  obtain ⟨-, uniqueAlt, guarded, dips, -, conflict⟩ := same
  simp only [textWith, lines, uniqueAlt, guarded, dips, conflict]

/-- Everything that a set shows without being asked about a configuration. -/
structure View where
  entries : List Config.Value
  size : Nat
  uniqueAlt : Option Alternative
  guarded : Bool
  dips : Bool
  outermost : Bool
  conflict : Option Conflict
  text : String
  contextText : String

def view (s : ConfigContents) : View where
  entries := s.configs.map Config.value
  size := s.size
  uniqueAlt := s.uniqueAlt
  guarded := s.guarded
  dips := s.dips
  outermost := s.outermost
  conflict := s.conflict
  text := s.textWith false
  contextText := s.textWith true

theorem view_of_linear : Function.FactorsThrough view linear := by
  intro s t same
  have sizes : s.size = t.size := by
    have lengths := congrArg (fun set : LinearSet => set.entries.length) same
    simpa [linear] using lengths
  have plain := text_of_linear false same
  have full := text_of_linear true same
  simp only [linear, LinearSet.mk.injEq] at same
  obtain ⟨entries, uniqueAlt, guarded, dips, outermost, conflict⟩ := same
  simp only [view, entries, sizes, uniqueAlt, guarded, dips, outermost, conflict, plain, full]

end ConfigContents

end Prediction
