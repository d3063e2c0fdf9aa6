import Mathlib.Data.Nat.Basic
import Mathlib.Order.Basic
import Prediction.Alternatives.Basic

/-!
The words of a set of alternatives. A set is known from its alternatives and the number of its
words, as long as it has no words that alternatives do not reach; and a set has no more words than
its largest alternative needs, unless it was made that way.
-/

namespace Prediction.Alternatives

/-- How many words there are bits of alternatives in. -/
def capacity : Nat := 0x4000000

/-- Every bit of the words stands for an alternative. -/
def Addressable (s : Alternatives) : Prop := s.words.length ≤ capacity

/-- There are as many words as the largest alternative needs. -/
def Tight (s : Alternatives) : Prop :=
  ∀ n, s.words.length ≤ n ↔ ∀ alt, s.contains alt = true → alt.toNat / 64 < n

variable {a b s : Alternatives} {words : List UInt64} {alts : List Alternative}

theorem lt_capacity (alt : Alternative) : alt.toNat / 64 < capacity := by
  have bound : alt.toNat < 4294967296 := alt.toNat_lt
  unfold capacity
  omega

theorem lt_size_of_lt_capacity {word position : Nat} (within : word < capacity)
    (small : position < 64) : 64 * word + position < UInt32.size := by
  have size : UInt32.size = 4294967296 := rfl
  unfold capacity at within
  omega

/-- The alternative that a bit of a word stands for. -/
theorem contains_ofNat {word position : Nat} (within : word < capacity) (small : position < 64) :
    s.contains (UInt32.ofNat (64 * word + position)) = bitAt s.words word position := by
  have atWord : (64 * word + position) / 64 = word := by omega
  have atPosition : (64 * word + position) % 64 = position := by omega
  rw [contains, UInt32.toNat_ofNat_of_lt' (lt_size_of_lt_capacity within small), atWord, atPosition]

theorem lt_of_testBit {w : UInt64} {i : Nat} (isSet : w.toNat.testBit i = true) : i < 64 := by
  have large : 2 ^ i < 2 ^ 64 := Nat.lt_of_le_of_lt (Nat.ge_two_pow_of_testBit isSet) w.toNat_lt
  exact (Nat.pow_lt_pow_iff_right (by decide)).mp large

theorem eq_of_testBit {w w' : UInt64}
    (same : ∀ i < 64, w.toNat.testBit i = w'.toNat.testBit i) : w = w' := by
  rw [← UInt64.toNat_inj]
  apply Nat.eq_of_testBit_eq
  intro i
  rw [Bool.eq_iff_iff]
  constructor
  · intro isSet
    rwa [← same i (lt_of_testBit isSet)]
  · intro isSet
    rwa [same i (lt_of_testBit isSet)]

/-- The words are known from the alternatives, as far as these have bits in them. -/
theorem eq_of_contains (same : ∀ alt, a.contains alt = b.contains alt)
    (length : a.words.length = b.words.length)
    (beyond : a.words.drop capacity = b.words.drop capacity) : a = b := by
  obtain ⟨words⟩ := a
  obtain ⟨words'⟩ := b
  congr 1
  apply List.ext_getElem length
  intro word within within'
  rcases Nat.lt_or_ge word capacity with small | large
  · apply eq_of_testBit
    intro position inWord
    have bits := same (UInt32.ofNat (64 * word + position))
    rw [contains_ofNat small inWord, contains_ofNat small inWord] at bits
    simpa [bitAt, within, within'] using bits
  · have place : capacity + (word - capacity) = word := by omega
    have dropped := congrArg (fun words => words[word - capacity]?) beyond
    simpa [place, within, within'] using dropped

theorem lt_length_of_contains {alt : Alternative} (present : s.contains alt = true) :
    alt.toNat / 64 < s.words.length := by
  obtain ⟨w, atWord, -⟩ := (Option.any_eq_true _ _).mp present
  exact (List.getElem?_eq_some_iff.mp atWord).1

theorem length_setBits (bits : UInt64) (i : Nat) (words : List UInt64) :
    (setBits bits i words).length = max words.length (i + 1) := by
  fun_induction setBits bits i words with
  | case1 => rfl
  | case2 w ws => simp
  | case3 i ih => simpa using ih
  | case4 i w ws ih => simp [ih]

theorem length_insert_le_iff {alt : Alternative} {n : Nat} :
    (s.insert alt).words.length ≤ n ↔ s.words.length ≤ n ∧ alt.toNat / 64 < n := by
  rw [insert, length_setBits, Nat.max_le, Nat.succ_le_iff]

theorem length_insertAll_le_iff {n : Nat} :
    (s.insertAll alts).words.length ≤ n ↔
      s.words.length ≤ n ∧ ∀ alt ∈ alts, alt.toNat / 64 < n := by
  induction alts generalizing s with
  | nil => simp
  | cons alt alts ih =>
    rw [insertAll_cons, ih, length_insert_le_iff, List.forall_mem_cons, and_assoc]

theorem contains_insertAll (alt : Alternative) :
    (s.insertAll alts).contains alt = true ↔ alt ∈ alts ∨ s.contains alt = true := by
  induction alts generalizing s with
  | nil => simp
  | cons first alts ih =>
    rw [insertAll_cons, ih, contains_insert, List.mem_cons, Bool.or_eq_true, beq_iff_eq,
      @eq_comm _ alt, or_assoc, or_left_comm]

theorem contains_ofList (alt : Alternative) :
    (ofList alts).contains alt = true ↔ alt ∈ alts := by
  rw [ofList, contains_insertAll, or_iff_left (by simp [contains, bitAt, empty])]

namespace Tight

theorem empty : Tight .empty := by
  intro n
  simp [Alternatives.empty, contains, bitAt]

theorem insert (tight : s.Tight) (alt : Alternative) : (s.insert alt).Tight := by
  intro n
  rw [length_insert_le_iff, tight n]
  simp only [contains_insert, Bool.or_eq_true, beq_iff_eq, or_imp, forall_and, forall_eq',
    and_comm]

theorem insertAll (tight : s.Tight) (alts : List Alternative) : (s.insertAll alts).Tight := by
  induction alts generalizing s with
  | nil => exact tight
  | cons alt alts ih => exact ih (tight.insert alt)

theorem ofList (alts : List Alternative) : (ofList alts).Tight := empty.insertAll alts

/-- A set whose last word has a bit of an alternative. -/
theorem of_getLast (filled : s.words.getLast? ≠ some 0) (addressable : s.Addressable) :
    s.Tight := by
  intro n
  constructor
  · intro long alt present
    exact Nat.lt_of_lt_of_le (lt_length_of_contains present) long
  · intro needed
    apply Nat.le_of_not_lt
    intro short
    have last : s.words.length - 1 < s.words.length := by omega
    have word : s.words[s.words.length - 1] ≠ 0 := by
      intro blank
      rw [List.getLast?_eq_getElem?, List.getElem?_eq_getElem last, blank] at filled
      contradiction
    have bits : s.words[s.words.length - 1].toNat ≠ 0 := mt (UInt64.toNat.inj (b := 0)) word
    obtain ⟨position, isSet⟩ := Nat.exists_testBit_of_ne_zero bits
    have small := lt_of_testBit isSet
    have within : s.words.length - 1 < capacity := Nat.lt_of_lt_of_le last addressable
    have present : s.contains (UInt32.ofNat (64 * (s.words.length - 1) + position)) = true := by
      rw [contains_ofNat within small, bitAt, List.getElem?_eq_getElem last]
      exact isSet
    have bound := needed _ present
    rw [UInt32.toNat_ofNat_of_lt' (lt_size_of_lt_capacity within small)] at bound
    omega

theorem addressable (tight : s.Tight) : s.Addressable :=
  (tight capacity).mpr fun alt _ => lt_capacity alt

/-- Without spare words a set is known from its alternatives. -/
theorem eq_of_contains (left : a.Tight) (right : b.Tight)
    (same : ∀ alt, a.contains alt = b.contains alt) : a = b := by
  have length : a.words.length = b.words.length := by
    apply eq_of_forall_ge_iff
    intro n
    rw [left n, right n]
    simp only [same]
  apply Alternatives.eq_of_contains same length
  rw [List.drop_of_length_le left.addressable, List.drop_of_length_le right.addressable]

end Tight

end Prediction.Alternatives
