/-!
Sets of alternatives, kept as bits in words of 64 alternatives each. Only as many words are added
as the largest alternative needs. Sets are compared by their words.
-/

namespace Prediction

/-- Alternatives of a decision are numbered from one; zero stands for none. -/
abbrev Alternative := UInt32

/-- A set of alternatives. -/
structure Alternatives where
  words : List UInt64
deriving DecidableEq

namespace Alternatives

def empty : Alternatives := ⟨[]⟩

/-- The bit of an alternative within its word. -/
def bit (alt : Alternative) : UInt64 :=
  1 <<< UInt64.ofNat (alt.toNat % 64)

/-- Sets bits of one word, adding empty words if it is not there yet. -/
def setBits (bits : UInt64) : Nat → List UInt64 → List UInt64
  | 0, [] => [bits]
  | 0, w :: ws => (w ||| bits) :: ws
  | i + 1, [] => 0 :: setBits bits i []
  | i + 1, w :: ws => w :: setBits bits i ws

def insert (s : Alternatives) (alt : Alternative) : Alternatives :=
  ⟨setBits (bit alt) (alt.toNat / 64) s.words⟩

/-- Whether a bit is set in a row of words. -/
def bitAt (words : List UInt64) (word position : Nat) : Bool :=
  words[word]?.any (·.toNat.testBit position)

def contains (s : Alternatives) (alt : Alternative) : Bool :=
  bitAt s.words (alt.toNat / 64) (alt.toNat % 64)

/-- Insertion that also says whether the alternative is new. -/
def add (s : Alternatives) (alt : Alternative) : Bool × Alternatives :=
  (!s.contains alt, s.insert alt)

def insertAll (s : Alternatives) (alts : List Alternative) : Alternatives :=
  alts.foldl insert s

def ofList (alts : List Alternative) : Alternatives :=
  empty.insertAll alts

/-- The positions of the bits set in a word, ascending. -/
def positions (w : UInt64) : List Nat :=
  (List.range 64).filter w.toNat.testBit

/-- The alternatives in words of which the first starts at `base`. -/
def listFrom : Nat → List UInt64 → List Alternative
  | _, [] => []
  | base, w :: ws =>
    (positions w).map (fun i => UInt32.ofNat (base + i)) ++ listFrom (base + 64) ws

/-- The alternatives in ascending order. -/
def toList (s : Alternatives) : List Alternative :=
  listFrom 0 s.words

/-- How many bits are set in a row of words. -/
def count (words : List UInt64) : Nat :=
  words.foldr (fun w n => (positions w).length + n) 0

def size (s : Alternatives) : Nat :=
  count s.words

def isEmpty (s : Alternatives) : Bool :=
  s.words.all (· == 0)

def min? (s : Alternatives) : Option Alternative :=
  s.toList.head?

def text (s : Alternatives) : String :=
  "\x7b" ++ ", ".intercalate (s.toList.map toString) ++ "\x7d"

instance : ToString Alternatives := ⟨text⟩

theorem toNat_bit (alt : Alternative) : (bit alt).toNat = 1 <<< (alt.toNat % 64) := by
  have small : alt.toNat % 64 < 64 := Nat.mod_lt _ (by decide)
  have fits : 1 <<< (alt.toNat % 64) < UInt64.size := by
    rw [Nat.shiftLeft_eq, Nat.one_mul]
    exact Nat.pow_lt_pow_right (by decide) small
  have amount : (UInt64.ofNat (alt.toNat % 64)).toNat % 64 = alt.toNat % 64 := by
    rw [UInt64.toNat_ofNat_of_lt' (Nat.lt_trans small (by decide)), Nat.mod_eq_of_lt small]
  rw [bit, UInt64.toNat_shiftLeft, amount]
  exact Nat.mod_eq_of_lt fits

theorem bitAt_setBits (bits : UInt64) (i : Nat) (words : List UInt64) (word position : Nat) :
    bitAt (setBits bits i words) word position =
      ((i == word && bits.toNat.testBit position) || bitAt words word position) := by
  fun_induction setBits bits i words generalizing word with
  | case1 => cases word <;> simp [bitAt]
  | case2 w ws => cases word <;> simp [bitAt, Nat.testBit_or, Bool.or_comm]
  | case3 i ih =>
    cases word with
    | zero => simp [bitAt]
    | succ word => simpa [bitAt] using ih word
  | case4 i w ws ih =>
    cases word with
    | zero => simp [bitAt]
    | succ word => simpa [bitAt] using ih word

theorem contains_insert (s : Alternatives) (alt other : Alternative) :
    (s.insert alt).contains other = (alt == other || s.contains other) := by
  have place : alt = other ↔
      alt.toNat / 64 = other.toNat / 64 ∧ alt.toNat % 64 = other.toNat % 64 := by
    rw [← UInt32.toNat_inj]
    omega
  rw [contains, insert, bitAt_setBits, toNat_bit, Nat.shiftLeft_eq, Nat.one_mul,
    Nat.testBit_two_pow, Bool.eq_iff_iff]
  simp [place, contains]

theorem length_listFrom (base : Nat) (words : List UInt64) :
    (listFrom base words).length = count words := by
  induction words generalizing base with
  | nil => rfl
  | cons w ws ih =>
    rw [listFrom, List.length_append, List.length_map, ih]
    rfl

theorem size_eq_length_toList (s : Alternatives) : s.size = s.toList.length :=
  (length_listFrom 0 s.words).symm

@[simp] theorem insertAll_nil (s : Alternatives) : s.insertAll [] = s := rfl

@[simp] theorem insertAll_cons (s : Alternatives) (alt : Alternative) (alts : List Alternative) :
    s.insertAll (alt :: alts) = (s.insert alt).insertAll alts := rfl

end Alternatives

/-- The alternatives that a prediction cannot tell apart. An exact conflict involves all of them in
every continuation. -/
structure Conflict where
  alternatives : Alternatives
  exact : Bool
deriving DecidableEq

end Prediction
