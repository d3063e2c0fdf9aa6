import Mathlib.Data.List.Induction
import Prediction.Guard.Basic
import Prediction.Proofs.Distinct

/-!
Guards in normal form. Guards that are built from predicates and precedence tests alone are exactly
those in which every connective has two different operands or more, none of them trivial or of the
same connective. Such a guard is known from its row of operands, and combining two of them is
appending their rows, repetitions left out; so it does not matter how guards are grouped.
-/

namespace Prediction.Guard

/-- The two ways of combining guards. -/
inductive Connective where
  | all
  | any

namespace Connective

def wrap : Connective → List Guard → Guard
  | .all => .all
  | .any => .any

/-- What a combined guard takes over from one of its sides. -/
def operands : Connective → Guard → List Guard
  | .all => conjuncts
  | .any => disjuncts

/-- A single operand stands for itself. -/
def gather (k : Connective) : List Guard → Guard
  | [g] => g
  | gs => k.wrap gs

/-- Combines two guards that are not trivial. -/
def combine (k : Connective) (l r : Guard) : Guard :=
  k.gather (k.operands l ++ k.operands r).eraseDups

/-- The guard can be an operand: it is neither trivial nor combined in the same way itself. -/
def Admits (k : Connective) (g : Guard) : Prop := g ≠ .always ∧ ∀ gs, g ≠ k.wrap gs

end Connective

inductive Normal : Guard → Prop where
  | always : Normal .always
  | predicate (rule index : UInt32) (contextDependent : Bool) :
      Normal (.predicate rule index contextDependent)
  | precedence (level : Int32) : Normal (.precedence level)
  | all {gs : List Guard} : 2 ≤ gs.length → gs.Nodup → (∀ g ∈ gs, Connective.all.Admits g) →
      (∀ g ∈ gs, Normal g) → Normal (.all gs)
  | any {gs : List Guard} : 2 ≤ gs.length → gs.Nodup → (∀ g ∈ gs, Connective.any.Admits g) →
      (∀ g ∈ gs, Normal g) → Normal (.any gs)

/-- Guards that were made without writing a connective's operands down. -/
inductive Built : Guard → Prop where
  | always : Built .always
  | predicate (rule index : UInt32) (contextDependent : Bool) :
      Built (.predicate rule index contextDependent)
  | precedence (level : Int32) : Built (.precedence level)
  | and {l r : Guard} : Built l → Built r → Built (l.and r)
  | or {l r : Guard} : Built l → Built r → Built (l.or r)

/-- The operands of a normal guard that is not trivial, itself if it is not combined. -/
structure Row (k : Connective) (gs : List Guard) : Prop where
  inhabited : gs ≠ []
  distinct : gs.Nodup
  admitted : ∀ g ∈ gs, k.Admits g
  normal : ∀ g ∈ gs, g.Normal

variable {k : Connective} {a b c g l r : Guard} {gs hs : List Guard}

namespace Connective

theorem operands_wrap (k : Connective) (gs : List Guard) : k.operands (k.wrap gs) = gs := by
  cases k <;> rfl

theorem operands_of_ne_wrap (single : ∀ gs, g ≠ k.wrap gs) : k.operands g = [g] := by
  cases k with
  | all =>
    cases g with
    | all gs => exact absurd rfl (single gs)
    | _ => rfl
  | any =>
    cases g with
    | any gs => exact absurd rfl (single gs)
    | _ => rfl

theorem gather_of_several (several : 2 ≤ gs.length) : k.gather gs = k.wrap gs := by
  match gs with
  | _ :: _ :: _ => rfl

end Connective

/-- A guard of the connective's own kind is normal exactly if its operands are a row of several. -/
theorem normal_wrap_iff : (k.wrap gs).Normal ↔ 2 ≤ gs.length ∧ Row k gs := by
  constructor
  · intro normal
    cases k <;> cases normal
    all_goals
      rename_i several distinct admitted normal
      exact ⟨several, List.ne_nil_of_length_pos (by omega), distinct, admitted, normal⟩
  · rintro ⟨several, row⟩
    cases k with
    | all => exact .all several row.distinct row.admitted row.normal
    | any => exact .any several row.distinct row.admitted row.normal

theorem row_singleton (admitted : k.Admits g) (normal : g.Normal) : Row k [g] :=
  ⟨List.cons_ne_nil g [], List.nodup_singleton g, by simpa using admitted, by simpa using normal⟩

/-- A normal guard that is not trivial. -/
structure Regular (g : Guard) : Prop where
  normal : g.Normal
  nontrivial : g ≠ .always

/-- Such a guard is known from its operands. -/
theorem Regular.row (regular : g.Regular) (k : Connective) :
    Row k (k.operands g) ∧ k.gather (k.operands g) = g := by
  by_cases wrapped : ∃ gs, g = k.wrap gs
  · obtain ⟨gs, rfl⟩ := wrapped
    obtain ⟨several, row⟩ := normal_wrap_iff.mp regular.normal
    rw [Connective.operands_wrap]
    exact ⟨row, Connective.gather_of_several several⟩
  · have single := not_exists.mp wrapped
    rw [Connective.operands_of_ne_wrap single]
    exact ⟨row_singleton ⟨regular.nontrivial, single⟩ regular.normal, rfl⟩

namespace Row

/-- Every row is that of a normal guard. -/
theorem gather (row : Row k gs) : (k.gather gs).Regular ∧ k.operands (k.gather gs) = gs := by
  match gs with
  | [] => exact absurd rfl row.inhabited
  | [g] =>
    obtain ⟨nontrivial, single⟩ := row.admitted g List.mem_cons_self
    exact ⟨⟨row.normal g List.mem_cons_self, nontrivial⟩, Connective.operands_of_ne_wrap single⟩
  | g :: g' :: others =>
    have several : 2 ≤ (g :: g' :: others).length := by simp
    refine ⟨⟨normal_wrap_iff.mpr ⟨several, row⟩, ?_⟩, Connective.operands_wrap k _⟩
    cases k <;> simp [Connective.gather, Connective.wrap]

theorem append (left : Row k gs) (right : Row k hs) : Row k (gs ++ hs).eraseDups where
  inhabited none := by
    obtain ⟨g, present⟩ := List.exists_mem_of_ne_nil gs left.inhabited
    have listed : g ∈ (gs ++ hs).eraseDups :=
      List.mem_eraseDups.mpr (List.mem_append_left hs present)
    exact List.not_mem_nil (none ▸ listed)
  distinct := nodup_eraseDups _
  admitted := by
    simp only [List.mem_eraseDups, List.forall_mem_append]
    exact ⟨left.admitted, right.admitted⟩
  normal := by
    simp only [List.mem_eraseDups, List.forall_mem_append]
    exact ⟨left.normal, right.normal⟩

theorem eq_singleton (row : Row k gs) (same : ∀ h ∈ gs, h = g) : gs = [g] := by
  have repeated : gs = List.replicate gs.length g := List.eq_replicate_of_mem same
  have short : gs.length ≤ 1 := List.nodup_replicate.mp (repeated ▸ row.distinct)
  have positive : 0 < gs.length := List.length_pos_of_ne_nil row.inhabited
  rw [repeated, show gs.length = 1 by omega, List.replicate_one]

/-- Different rows have several operands between them. -/
theorem several (left : Row k gs) (right : Row k hs) (different : gs ≠ hs) :
    2 ≤ (gs ++ hs).eraseDups.length := by
  have inhabited := (left.append right).inhabited
  match merged : (gs ++ hs).eraseDups with
  | [] => exact absurd merged inhabited
  | [g] =>
    have same : ∀ h ∈ gs ++ hs, h = g := by
      intro h present
      rw [← List.mem_eraseDups, merged] at present
      exact List.mem_singleton.mp present
    obtain ⟨sameLeft, sameRight⟩ := List.forall_mem_append.mp same
    exact absurd ((left.eq_singleton sameLeft).trans (right.eq_singleton sameRight).symm) different
  | _ :: _ :: _ => simp

end Row

namespace Regular

theorem combine (left : a.Regular) (right : b.Regular) (k : Connective) :
    (k.combine a b).Regular ∧
      k.operands (k.combine a b) = (k.operands a ++ k.operands b).eraseDups :=
  ((left.row k).1.append (right.row k).1).gather

theorem combine_self (regular : a.Regular) (k : Connective) : k.combine a a = a := by
  obtain ⟨row, gathered⟩ := regular.row k
  rw [Connective.combine, eraseDups_append_of_subset (List.Subset.refl _),
    eraseDups_of_nodup row.distinct, gathered]

theorem combine_of_ne (left : a.Regular) (right : b.Regular) (different : a ≠ b)
    (k : Connective) : k.combine a b = k.wrap (k.operands a ++ k.operands b).eraseDups := by
  obtain ⟨row, gathered⟩ := left.row k
  obtain ⟨row', gathered'⟩ := right.row k
  have rows : k.operands a ≠ k.operands b := fun same =>
    different (by rw [← gathered, same, gathered'])
  exact Connective.gather_of_several (row.several row' rows)

theorem combine_assoc (first : a.Regular) (second : b.Regular) (third : c.Regular)
    (k : Connective) : k.combine (k.combine a b) c = k.combine a (k.combine b c) := by
  obtain ⟨-, left⟩ := first.combine second k
  obtain ⟨-, right⟩ := second.combine third k
  rw [Connective.combine, left, eraseDups_eraseDups_append, List.append_assoc,
    ← eraseDups_append_eraseDups, ← right, ← Connective.combine]

theorem combine_absorb (left : a.Regular) (right : b.Regular) (k : Connective) :
    k.combine (k.combine a b) a = k.combine a b := by
  obtain ⟨-, operands⟩ := left.combine right k
  rw [Connective.combine, operands, eraseDups_eraseDups_append,
    eraseDups_append_of_subset (List.subset_append_left _ _), ← Connective.combine]

/-- The shortcut for equal sides gives what combining them would. -/
theorem and_eq (left : a.Regular) (right : b.Regular) : a.and b = Connective.all.combine a b := by
  unfold Guard.and
  rw [if_neg (mt isAlways_iff.mp left.nontrivial)]
  split
  · rename_i trivialOrSame
    rw [Bool.or_eq_true, isAlways_iff, decide_eq_true_eq] at trivialOrSame
    obtain rfl := trivialOrSame.resolve_left right.nontrivial
    exact (left.combine_self .all).symm
  · rename_i different
    rw [left.combine_of_ne right (by simp_all) .all]
    rfl

theorem or_eq (left : a.Regular) (right : b.Regular) : a.or b = Connective.any.combine a b := by
  unfold Guard.or
  rw [if_neg (by simp [left.nontrivial, right.nontrivial])]
  split
  · rename_i same
    exact same ▸ (left.combine_self .any).symm
  · rename_i different
    rw [left.combine_of_ne right different .any]
    rfl

end Regular

theorem always_and (a : Guard) : and .always a = a := rfl

theorem and_always (a : Guard) : and a .always = a := by
  cases a <;> rfl

theorem always_or (a : Guard) : or .always a = .always := rfl

theorem or_always (a : Guard) : or a .always = .always := by
  cases a <;> rfl

theorem Normal.trivial_or_regular (normal : g.Normal) : g = .always ∨ g.Regular := by
  by_cases trivial : g = .always
  · exact .inl trivial
  · exact .inr ⟨normal, trivial⟩

namespace Normal

theorem and (left : a.Normal) (right : b.Normal) : (a.and b).Normal := by
  rcases left.trivial_or_regular with rfl | regular
  · exact right
  · rcases right.trivial_or_regular with rfl | regular'
    · exact (and_always a).symm ▸ left
    · rw [regular.and_eq regular']
      exact (regular.combine regular' .all).1.normal

theorem or (left : a.Normal) (right : b.Normal) : (a.or b).Normal := by
  rcases left.trivial_or_regular with rfl | regular
  · exact .always
  · rcases right.trivial_or_regular with rfl | regular'
    · exact (or_always a).symm ▸ .always
    · rw [regular.or_eq regular']
      exact (regular.combine regular' .any).1.normal

theorem and_self (normal : a.Normal) : a.and a = a := by
  rcases normal.trivial_or_regular with rfl | regular
  · rfl
  · rw [regular.and_eq regular, regular.combine_self]

theorem or_self (normal : a.Normal) : a.or a = a := by
  rcases normal.trivial_or_regular with rfl | regular
  · rfl
  · rw [regular.or_eq regular, regular.combine_self]

theorem and_assoc (first : a.Normal) (second : b.Normal) (third : c.Normal) :
    (a.and b).and c = a.and (b.and c) := by
  rcases first.trivial_or_regular with rfl | first
  · rfl
  · rcases second.trivial_or_regular with rfl | second
    · rw [and_always, always_and]
    · rcases third.trivial_or_regular with rfl | third
      · rw [and_always, and_always]
      · rw [first.and_eq second, second.and_eq third, (first.combine second .all).1.and_eq third,
          first.and_eq (second.combine third .all).1, first.combine_assoc second third]

theorem or_assoc (first : a.Normal) (second : b.Normal) (third : c.Normal) :
    (a.or b).or c = a.or (b.or c) := by
  rcases first.trivial_or_regular with rfl | first
  · rfl
  · rcases second.trivial_or_regular with rfl | second
    · rw [or_always, always_or, or_always]
    · rcases third.trivial_or_regular with rfl | third
      · rw [or_always, or_always, or_always]
      · rw [first.or_eq second, second.or_eq third, (first.combine second .any).1.or_eq third,
          first.or_eq (second.combine third .any).1, first.combine_assoc second third]

theorem and_absorb (left : a.Normal) (right : b.Normal) : (a.and b).and a = a.and b := by
  rcases left.trivial_or_regular with rfl | regular
  · rw [and_always]
  · rcases right.trivial_or_regular with rfl | regular'
    · rw [and_always, left.and_self]
    · rw [regular.and_eq regular', (regular.combine regular' .all).1.and_eq regular,
        regular.combine_absorb regular']

theorem or_absorb (left : a.Normal) (right : b.Normal) : (a.or b).or a = a.or b := by
  rcases left.trivial_or_regular with rfl | regular
  · rw [or_always, always_or]
  · rcases right.trivial_or_regular with rfl | regular'
    · rw [or_always, always_or]
    · rw [regular.or_eq regular', (regular.combine regular' .any).1.or_eq regular,
        regular.combine_absorb regular']

end Normal

theorem Built.normal (built : Built g) : g.Normal := by
  induction built with
  | always => exact .always
  | predicate rule index contextDependent => exact .predicate rule index contextDependent
  | precedence level => exact .precedence level
  | and _ _ left right => exact left.and right
  | or _ _ left right => exact left.or right

theorem Built.combine (left : Built a) (right : Built b) (nontrivial : a ≠ .always)
    (nontrivial' : b ≠ .always) (k : Connective) : Built (k.combine a b) := by
  have regular : a.Regular := ⟨left.normal, nontrivial⟩
  have regular' : b.Regular := ⟨right.normal, nontrivial'⟩
  cases k with
  | all => exact regular.and_eq regular' ▸ left.and right
  | any => exact regular.or_eq regular' ▸ left.or right

/-- The last operand of a row can be combined with the others afterwards. -/
theorem Row.snoc (row : Row k (gs ++ [g])) (inhabited : gs ≠ []) :
    Row k gs ∧ k.gather (gs ++ [g]) = k.combine (k.gather gs) g := by
  obtain ⟨admitted, single⟩ := List.forall_mem_append.mp row.admitted
  obtain ⟨-, single⟩ := single g (List.mem_singleton_self g)
  have front : Row k gs :=
    ⟨inhabited, (List.nodup_append.mp row.distinct).1, admitted,
      (List.forall_mem_append.mp row.normal).1⟩
  refine ⟨front, ?_⟩
  rw [Connective.combine, front.gather.2, Connective.operands_of_ne_wrap single,
    eraseDups_of_nodup row.distinct]

/-- By induction on the row, from its end. -/
theorem Row.built (row : Row k gs) (built : ∀ g ∈ gs, Built g) : Built (k.gather gs) := by
  induction gs using List.reverseRecOn with
  | nil => exact absurd rfl row.inhabited
  | append_singleton gs g ih =>
    obtain ⟨front, last⟩ := List.forall_mem_append.mp built
    have last := last g (List.mem_singleton_self g)
    by_cases single : gs = []
    · subst single
      exact last
    · obtain ⟨row', split⟩ := row.snoc single
      have nontrivial := (row.admitted g (List.mem_append_right gs (List.mem_singleton_self g))).1
      exact split ▸ (ih row' front).combine last row'.gather.1.nontrivial nontrivial k

theorem built_wrap (normal : (k.wrap gs).Normal) (built : ∀ g ∈ gs, Built g) :
    Built (k.wrap gs) := by
  obtain ⟨several, row⟩ := normal_wrap_iff.mp normal
  exact Connective.gather_of_several several ▸ row.built built

theorem Normal.built (normal : g.Normal) : Built g := by
  induction normal with
  | always => exact .always
  | predicate rule index contextDependent => exact .predicate rule index contextDependent
  | precedence level => exact .precedence level
  | all several distinct admitted normal built =>
    exact built_wrap (k := .all) (.all several distinct admitted normal) built
  | any several distinct admitted normal built =>
    exact built_wrap (k := .any) (.any several distinct admitted normal) built

/-- What it means that grouping, repetition and trivial guards make no difference. -/
structure Laws (a b c : Guard) : Prop where
  and_assoc : (a.and b).and c = a.and (b.and c)
  or_assoc : (a.or b).or c = a.or (b.or c)
  and_self : a.and a = a
  or_self : a.or a = a
  and_absorb : (a.and b).and a = a.and b
  or_absorb : (a.or b).or a = a.or b
  always_and : and .always a = a
  and_always : and a .always = a
  always_or : or .always a = .always
  or_always : or a .always = .always

/-- Nothing but guards in normal form can be built, and all of them can; guards that were built obey
the laws of both connectives, as they are written. -/
theorem built_guards :
    (∀ g, Built g ↔ g.Normal) ∧ ∀ a b c, Built a → Built b → Built c → Laws a b c := by
  refine ⟨fun g => ⟨Built.normal, Normal.built⟩, ?_⟩
  intro a b c first second third
  exact
    { and_assoc := first.normal.and_assoc second.normal third.normal
      or_assoc := first.normal.or_assoc second.normal third.normal
      and_self := first.normal.and_self
      or_self := first.normal.or_self
      and_absorb := first.normal.and_absorb second.normal
      or_absorb := first.normal.or_absorb second.normal
      always_and := always_and a
      and_always := and_always a
      always_or := always_or a
      or_always := or_always a }

/-- The operands of the first two overlap, and the third one is of the other connective. -/
theorem built_guards_overlapping :
    let p := Guard.predicate 0 1 false
    let q := Guard.predicate 0 2 false
    let n := Guard.precedence 3
    Built (p.and q) ∧ Built (q.and n) ∧ Built (p.or n) ∧ Laws (p.and q) (q.and n) (p.or n) ∧
      ((p.and q).and (q.and n)).and (p.or n) = .all [p, q, n, .any [p, n]] := by
  intro p q n
  have first : Built (p.and q) := .and (.predicate ..) (.predicate ..)
  have second : Built (q.and n) := .and (.predicate ..) (.precedence _)
  have third : Built (p.or n) := .or (.predicate ..) (.precedence _)
  exact ⟨first, second, third, built_guards.2 _ _ _ first second third, by decide⟩

end Prediction.Guard
