import Mathlib.Data.List.Sort
import Mathlib.Data.List.TakeWhile
import Prediction.Proofs.ConfigSet.Parentheses
import Prediction.Proofs.ConfigSet.Records
import Prediction.Proofs.ConfigSet.Thawing

/-!
Printing sets that were built in different orders. Configurations are printed by alternative, state
and the text of the guard, and those that all of this does not tell apart are printed as they were
added. So the text of a set does not depend on the order of insertion if and only if these have one
text. That need not be: operands of guards are written without parentheses, so that different guards
may have the same text.
-/

namespace Prediction

/-- Two members of a list may be taken to its front. -/
theorem exists_perm_cons_cons {α : Type} {a b : α} {l : List α} (present : a ∈ l)
    (present' : b ∈ l) (different : a ≠ b) : ∃ rest, l.Perm (a :: b :: rest) := by
  have pair : [a, b].Nodup := by simpa using different
  have within : [a, b] ⊆ l := by simpa using ⟨present, present'⟩
  obtain ⟨front, order, sublist⟩ := List.subperm_of_subset pair within
  obtain ⟨rest, split⟩ := sublist.exists_perm_append
  exact ⟨rest, split.trans (order.append_right rest)⟩

namespace Config

/-- What the order of printing looks at. -/
def rank (c : Config) : Alternative × StateId × String := (c.alt, c.state, c.guard.text)

def rankOrder : Alternative × StateId × String → Alternative × StateId × String → Ordering :=
  compareLex (compareLex (compareOn (·.1)) (compareOn (·.2.1))) (compareOn (·.2.2))

instance : Std.TransCmp rankOrder :=
  inferInstanceAs (Std.TransCmp (compareLex _ _))

instance : Std.LawfulEqCmp rankOrder where
  eq_of_compare {a b} same := by
    simp only [rankOrder, compareLex, compareOn, Ordering.then_eq_eq,
      Std.LawfulEqCmp.compare_eq_iff_eq] at same
    exact Prod.ext same.1.1 (Prod.ext same.1.2 same.2)

def printsBefore (c d : Config) : Bool := (rankOrder c.rank d.rank).isLE

/-- Configurations as they are printed. -/
def inOrder (cs : List Config) : List Config := cs.mergeSort printsBefore

variable {c d : Config} {cs ds : List Config}

theorem printsBefore_trans (a b c : Config) (first : a.printsBefore b = true)
    (second : b.printsBefore c = true) : a.printsBefore c = true :=
  Std.TransCmp.isLE_trans first second

theorem printsBefore_total (a b : Config) : (a.printsBefore b || b.printsBefore a) = true := by
  have swapped : rankOrder b.rank a.rank = (rankOrder a.rank b.rank).swap :=
    Std.OrientedCmp.eq_swap
  rw [printsBefore, printsBefore, swapped]
  cases rankOrder a.rank b.rank <;> rfl

theorem rank_eq_of_printsBefore (first : c.printsBefore d = true)
    (second : d.printsBefore c = true) : c.rank = d.rank :=
  Std.LawfulEqCmp.eq_of_compare (Std.OrientedCmp.isLE_antisymm first second)

/-- What is printed before what depends on ranks alone. -/
theorem printsBefore_congr (tied : c.rank = d.rank) : c.printsBefore = d.printsBefore := by
  funext e
  rw [printsBefore, printsBefore, tied]

/-- A configuration that was added before all others is printed behind those that have to come
before it, and in front of the rest. -/
theorem inOrder_cons (c : Config) (cs : List Config) :
    inOrder (c :: cs) = (inOrder cs).filter (fun d => !c.printsBefore d) ++
      c :: (inOrder cs).filter c.printsBefore := by
  obtain ⟨front, back, sorted, rest, below⟩ :=
    List.mergeSort_cons printsBefore_trans printsBefore_total c cs
  have above : ∀ d ∈ back, c.printsBefore d = true := by
    have ordered := List.pairwise_mergeSort printsBefore_trans printsBefore_total (c :: cs)
    rw [sorted] at ordered
    exact (List.pairwise_cons.mp (List.pairwise_append.mp ordered).2.1).1
  have noneAbove : back.filter (fun d => !c.printsBefore d) = [] :=
    List.filter_eq_nil_iff.mpr fun d present => by simp [above d present]
  have noneBelow : front.filter c.printsBefore = [] :=
    List.filter_eq_nil_iff.mpr fun d present => by simpa using below d present
  rw [inOrder, inOrder, sorted, rest, List.filter_append, List.filter_append, noneAbove, noneBelow,
    List.filter_eq_self.mpr below, List.filter_eq_self.mpr above, List.append_nil, List.nil_append]

/-- Two configurations of one rank are printed next to each other, the first one first. -/
theorem inOrder_cons_cons (tied : c.rank = d.rank) (cs : List Config) :
    inOrder (c :: d :: cs) = (inOrder cs).filter (fun e => !c.printsBefore e) ++
      c :: d :: (inOrder cs).filter c.printsBefore := by
  have next : c.printsBefore d = true := by
    have equal : rankOrder d.rank d.rank = .eq := Std.ReflCmp.compare_self
    rw [printsBefore, tied, equal]
    rfl
  rw [inOrder_cons c, inOrder_cons d, ← printsBefore_congr tied]
  simp [List.filter_append, next]

/-- What ranks determine is printed in one order, whatever order the configurations come in. -/
theorem map_inOrder_of_perm {β : Type} {f : Config → β} (perm : cs.Perm ds)
    (tied : ∀ c ∈ cs, ∀ d ∈ cs, c.rank = d.rank → f c = f d) :
    (inOrder cs).map f = (inOrder ds).map f := by
  have sorted (es : List Config) : ((inOrder es).map fun c => (c.rank, f c)).Pairwise
      fun x y => (rankOrder x.1 y.1).isLE = true :=
    List.pairwise_map.mpr (List.pairwise_mergeSort printsBefore_trans printsBefore_total es)
  have sameMembers : (inOrder cs).Perm (inOrder ds) :=
    ((List.mergeSort_perm cs _).trans perm).trans (List.mergeSort_perm ds _).symm
  have same : ((inOrder cs).map fun c => (c.rank, f c)) =
      (inOrder ds).map fun c => (c.rank, f c) := by
    refine List.Perm.eq_of_pairwise ?_ (sorted cs) (sorted ds) (sameMembers.map _)
    rintro x y inFirst inSecond first second
    obtain ⟨c, present, rfl⟩ := List.mem_map.mp inFirst
    obtain ⟨d, present', rfl⟩ := List.mem_map.mp inSecond
    have rank := rank_eq_of_printsBefore first second
    have inList := (List.mergeSort_perm cs _).mem_iff.mp present
    have inList' := perm.mem_iff.mpr ((List.mergeSort_perm ds _).mem_iff.mp present')
    rw [rank, tied c inList d inList' rank]
  have texts := congrArg (List.map Prod.snd) same
  simpa only [List.map_map, Function.comp_def] using texts

end Config

namespace ConfigContents

open Config (inOrder)

variable {s t : ConfigContents} {showContext : Bool}

theorem sorted_eq (s : ConfigContents) : s.sorted = inOrder s.configs := by
  have keyed := List.map_mergeSort (r := Config.printsBefore)
    (s := fun a b => (printOrder a b).isLE) (f := fun c => (c, c.guard.text)) (l := s.configs)
    fun _ _ _ _ => rfl
  rw [sorted, ← keyed, List.map_map]
  exact List.map_id _

/-- Sets that know the same of their configurations differ in their lines at most. -/
theorem textWith_eq_iff (uniqueAlt : s.uniqueAlt = t.uniqueAlt) (guarded : s.guarded = t.guarded)
    (dips : s.dips = t.dips) (conflict : s.conflict = t.conflict) :
    s.textWith showContext = t.textWith showContext ↔
      ", ".intercalate (s.sorted.map (Config.textWith showContext)) =
        ", ".intercalate (t.sorted.map (Config.textWith showContext)) := by
  simp only [textWith, uniqueAlt, guarded, dips, conflict, String.append_left_inj,
    String.append_right_inj]

end ConfigContents

namespace ConfigSet

open Config (inOrder)

variable {c d : Config} {cs ds : List Config} {showContext : Bool}

/-- Configurations that cannot be merged, added to a new set. -/
theorem addAll_empty (distinct : cs.Pairwise fun c d => c.mergesWith d = false) (j : Joiner) :
    (empty.addAll cs j).2.1 = empty.appendAll cs := by
  have identities : (empty.identities ++ cs.map Config.identity).Nodup := by
    refine List.pairwise_map.mpr (distinct.imp ?_)
    intro c d different
    exact mt Config.mergesWith_iff_identity.mpr (Bool.eq_false_iff.mp different)
  have all : (cs.takeWhile fun c => (empty.refusal? c).isNone) = cs :=
    List.takeWhile_eq_self_iff.mpr fun c _ => by rw [refusal?_of_not_outermost rfl]; rfl
  rw [addAll_of_distinct identities, all]

/-- What is known of the configurations does not depend on their order. -/
theorem textWith_appendAll_iff (perm : cs.Perm ds) :
    (empty.appendAll cs).textWith showContext = (empty.appendAll ds).textWith showContext ↔
      ", ".intercalate ((inOrder cs).map (Config.textWith showContext)) =
        ", ".intercalate ((inOrder ds).map (Config.textWith showContext)) := by
  have start : (empty : ConfigSet).linear.Summarizes false false [] :=
    LinearSet.summarizes_starting false false false
  obtain ⟨uniqueAlt, guarded, dips⟩ := (summarizes_appendAll start cs).congr
    (summarizes_appendAll start ds) (perm.map Config.value)
  obtain ⟨configs, -, conflict⟩ := configs_appendAll empty cs
  obtain ⟨configs', -, conflict'⟩ := configs_appendAll empty ds
  rw [ConfigContents.textWith_eq_iff uniqueAlt guarded dips (conflict.trans conflict'.symm),
    ConfigContents.sorted_eq, ConfigContents.sorted_eq, configs, configs']
  rfl

/-- It shows which of two configurations of one rank was added first, unless they have one text. -/
theorem textWith_swap_iff (tied : c.rank = d.rank) (cs : List Config) :
    (empty.appendAll (c :: d :: cs)).textWith showContext =
        (empty.appendAll (d :: c :: cs)).textWith showContext ↔
      c.textWith showContext = d.textWith showContext := by
  rw [textWith_appendAll_iff (.swap d c cs), Config.inOrder_cons_cons tied,
    Config.inOrder_cons_cons tied.symm, ← Config.printsBefore_congr tied]
  simp only [List.map_append, List.map_cons]
  constructor
  · exact (c.opens_textWith showContext).eq_of_intercalate_swap (d.opens_textWith showContext)
      (by decide)
  · intro same
    rw [same]

/-- A new set of configurations that cannot be merged shows the same text whatever the order in
which they were added, if and only if those with one alternative, one state and one text of the
guard have one text. -/
theorem textWith_perm_iff (distinct : cs.Pairwise fun c d => c.mergesWith d = false)
    (showContext : Bool) (j j' : Joiner) :
    (∀ ds, ds.Perm cs → (empty.addAll ds j').2.1.textWith showContext =
        (empty.addAll cs j).2.1.textWith showContext) ↔
      ∀ c ∈ cs, ∀ d ∈ cs, c.rank = d.rank →
        c.textWith showContext = d.textWith showContext := by
  have built {ds : List Config} (perm : ds.Perm cs) (j : Joiner) :
      (empty.addAll ds j).2.1 = empty.appendAll ds := by
    refine addAll_empty ((perm.pairwise_iff ?_).mpr distinct) j
    exact fun separate => (Config.mergesWith_comm _ _).trans separate
  rw [built (.refl cs)]
  constructor
  · intro same c present d present' tied
    by_cases different : c = d
    · rw [different]
    · obtain ⟨rest, perm⟩ := exists_perm_cons_cons present present' different
      have first := same _ perm.symm
      have second := same _ ((List.Perm.swap c d rest).trans perm.symm)
      rw [built perm.symm] at first
      rw [built ((List.Perm.swap c d rest).trans perm.symm)] at second
      exact (textWith_swap_iff tied rest).mp (first.trans second.symm)
  · intro tied ds perm
    rw [built perm, textWith_appendAll_iff perm]
    have lines := Config.map_inOrder_of_perm perm.symm tied
    rw [lines]

/-- What joins are made with where there is no cache. -/
def uncached : Joiner := ⟨.starting .sha256, .disabled⟩

/-- Two predicates guard the configurations of one key, one of which reaches further out. -/
def plainGuards : List Config :=
  [⟨1, 1, .outermost, .predicate 0 0 false, 0, false, false, false⟩,
    ⟨1, 1, .outermost, .predicate 0 1 false, 1, true, false, false⟩]

theorem textWith_perm_plainGuards : (plainGuards.Pairwise fun c d => c.mergesWith d = false) ∧
    ∀ ds, ds.Perm plainGuards → (empty.addAll ds uncached).2.1.textWith true =
      (empty.addAll plainGuards uncached).2.1.textWith true := by
  have distinct : plainGuards.Pairwise fun c d => c.mergesWith d = false := by decide
  have separate : ∀ c ∈ plainGuards, ∀ d ∈ plainGuards, c.rank = d.rank →
      c.textWith true = d.textWith true := by decide
  exact ⟨distinct, (textWith_perm_iff distinct true uncached uncached).mpr separate⟩

/-- A disjunction with a conjunction in it guards the one of them, and a conjunction with a
disjunction in it the other. Both are written alike. -/
def nestedGuards : List Config :=
  let p := Guard.predicate 0 0 false
  let q := Guard.predicate 0 1 false
  let r := Guard.predicate 0 2 false
  [⟨1, 1, .outermost, (p.and q).or r, 0, false, false, false⟩,
    ⟨1, 1, .outermost, p.and (q.or r), 1, true, false, false⟩]

/-- So the order in which they were added can be seen. -/
theorem textWith_reverse_nestedGuards :
    (nestedGuards.Pairwise fun c d => c.mergesWith d = false) ∧
      nestedGuards.reverse.Perm nestedGuards ∧
      (empty.addAll nestedGuards.reverse uncached).2.1.textWith false ≠
        (empty.addAll nestedGuards uncached).2.1.textWith false := by
  have distinct : nestedGuards.Pairwise fun c d => c.mergesWith d = false := by decide
  have distinct' : nestedGuards.reverse.Pairwise fun c d => c.mergesWith d = false := by decide
  refine ⟨distinct, nestedGuards.reverse_perm, ?_⟩
  rw [addAll_empty distinct, addAll_empty distinct']
  exact mt (textWith_swap_iff (by decide) []).mp (by decide)

end ConfigSet

end Prediction
