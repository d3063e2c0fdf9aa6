import Prediction.Alternatives.Json
import Prediction.Proofs.Alternatives.Words
import Prediction.Proofs.ConfigSet.Thawing

/-!
Sets of alternatives that were read from a text. Words are kept as they were read, and sets are
compared by their words, so that sets of the same alternatives differ where one of them ends in more
empty words than the other. Conflicts and sets of configurations differ with them.
-/

namespace Prediction.Alternatives

/-- Where a set comes from: it is new or it was read from a text, and then alternatives were
inserted. -/
structure Origin where
  source : Option String
  inserted : List Alternative

namespace Origin

def start? (o : Origin) : Option Alternatives :=
  match o.source with
  | none => some .empty
  | some text => parse? text

/-- None if the text is not that of a set. -/
def set? (o : Origin) : Option Alternatives :=
  o.start?.map (·.insertAll o.inserted)

/-- What was read and what was inserted fits into so many words. -/
def Fits (o : Origin) (n : Nat) : Prop :=
  (∀ s, o.start? = some s → s.words.length ≤ n) ∧ ∀ alt ∈ o.inserted, alt.toNat / 64 < n

/-- If words were read, they are not more than alternatives reach, and the last one is not empty. -/
def Trimmed (o : Origin) : Prop :=
  ∀ s, o.start? = some s → s.words.getLast? ≠ some 0 ∧ s.Addressable

end Origin

/-- Two sets are equal if and only if `same` holds, and so are conflicts that name them, and sets of
configurations with these conflicts, also by what is hashed of them. -/
structure EqualIff (a b : Alternatives) (same : Prop) : Prop where
  sets : a = b ↔ same
  conflicts : ∀ exact, Conflict.mk a exact = Conflict.mk b exact ↔ same
  configs : ∀ (s : ConfigSet) exact,
    (s.setConflict (some ⟨a, exact⟩)).equal (s.setConflict (some ⟨b, exact⟩)).toConfigContents =
      true ↔ same
  hashes : ∀ (s : ConfigSet) exact rule,
    (s.setConflict (some ⟨a, exact⟩)).fingerprint rule =
      (s.setConflict (some ⟨b, exact⟩)).fingerprint rule ↔ same

variable {a b s : Alternatives} {o o' : Origin}

theorem equalIff_of_iff {same : Prop} (sets : a = b ↔ same) : EqualIff a b same := by
  have conflicts (exact : Bool) : Conflict.mk a exact = Conflict.mk b exact ↔ same := by
    rw [Conflict.mk.injEq, sets, and_iff_left rfl]
  refine ⟨sets, conflicts, ?_, ?_⟩
  · intro s exact
    have sameConfigs : (s.setConflict (some ⟨a, exact⟩)).configs =
        (s.setConflict (some ⟨b, exact⟩)).configs := rfl
    rw [ConfigContents.equal_iff_of_configs sameConfigs, ← conflicts exact]
    simp [ConfigSet.setConflict]
  · intro s exact rule
    simp [ConfigContents.fingerprint, ConfigSet.setConflict, conflicts]

/-- Empty words at the end hold no alternative. -/
theorem contains_append_replicate (words : List UInt64) (n : Nat) (alt : Alternative) :
    contains ⟨words ++ List.replicate n 0⟩ alt = contains ⟨words⟩ alt := by
  simp only [contains, bitAt]
  rcases Nat.lt_or_ge (alt.toNat / 64) words.length with within | beyond
  · rw [List.getElem?_append_left within]
  · rw [List.getElem?_append_right beyond, List.getElem?_eq_none beyond, List.getElem?_replicate]
    split <;> simp

namespace Origin

/-- Words that were read are kept. -/
theorem length_le_iff_fits (obtained : o.set? = some s) {n : Nat} :
    s.words.length ≤ n ↔ o.Fits n := by
  obtain ⟨start, found, rfl⟩ := Option.map_eq_some_iff.mp obtained
  rw [length_insertAll_le_iff, Fits, found]
  simp only [Option.some.injEq, forall_eq']

theorem Trimmed.tight (trimmed : o.Trimmed) (obtained : o.set? = some s) : s.Tight := by
  obtain ⟨start, found, rfl⟩ := Option.map_eq_some_iff.mp obtained
  obtain ⟨filled, addressable⟩ := trimmed start found
  exact (Tight.of_getLast filled addressable).insertAll o.inserted

end Origin

/-- Sets of the same alternatives are equal if and only if what was read and inserted fits into the
same numbers of words, and the same was read beyond the words of alternatives. So it is where no
text was read that ends in an empty word or goes beyond those words. -/
theorem equal_iff_fits (left : o.set? = some a) (right : o'.set? = some b)
    (same : ∀ alt, a.contains alt = b.contains alt) :
    EqualIff a b ((∀ n, o.Fits n ↔ o'.Fits n) ∧
        a.words.drop capacity = b.words.drop capacity) ∧
      (o.Trimmed → o'.Trimmed → a = b) := by
  constructor
  · apply equalIff_of_iff
    constructor
    · rintro rfl
      refine ⟨fun n => ?_, rfl⟩
      rw [← Origin.length_le_iff_fits left, ← Origin.length_le_iff_fits right]
    · rintro ⟨fits, beyond⟩
      apply eq_of_contains same _ beyond
      apply eq_of_forall_ge_iff
      intro n
      rw [Origin.length_le_iff_fits left, Origin.length_le_iff_fits right, fits]
  · intro trimmed trimmed'
    exact (trimmed.tight left).eq_of_contains (trimmed'.tight right) same

/-- The alternative 1 and an empty word after it were read, and 70 was inserted into that word. -/
def spareWordFilled : Origin := ⟨some "\x7b\"words\":[2,0]\x7d", [70]⟩

/-- Three empty words were read, and the same alternatives were inserted. -/
def spareWordsRead : Origin := ⟨some "\x7b\"words\":[0,0,0]\x7d", [70, 1]⟩

theorem equal_iff_fits_spareWords :
    spareWordFilled.set? = some ⟨[2, 64]⟩ ∧ spareWordsRead.set? = some ⟨[2, 64, 0]⟩ ∧
      (∀ alt, contains ⟨[2, 64]⟩ alt = contains ⟨[2, 64, 0]⟩ alt) ∧
      (EqualIff ⟨[2, 64]⟩ ⟨[2, 64, 0]⟩ ((∀ n, spareWordFilled.Fits n ↔ spareWordsRead.Fits n) ∧
          [2, 64].drop capacity = ([2, 64, 0] : List UInt64).drop capacity) ∧
        (spareWordFilled.Trimmed → spareWordsRead.Trimmed →
          Alternatives.mk [2, 64] = ⟨[2, 64, 0]⟩)) := by
  have filled : spareWordFilled.set? = some ⟨[2, 64]⟩ := by decide +kernel
  have read : spareWordsRead.set? = some ⟨[2, 64, 0]⟩ := by decide +kernel
  have same (alt : Alternative) : contains ⟨[2, 64]⟩ alt = contains ⟨[2, 64, 0]⟩ alt :=
    (contains_append_replicate [2, 64] 1 alt).symm
  exact ⟨filled, read, same, equal_iff_fits filled read same⟩

/-- The alternative 1 read with an empty word after it, and the alternative 1 inserted. -/
theorem not_equal_spareWord :
    ¬ ∀ (o o' : Origin) (a b : Alternatives), o.set? = some a → o'.set? = some b →
      (∀ alt, a.contains alt = b.contains alt) → a = b := by
  intro lawful
  have read : Origin.set? ⟨some "\x7b\"words\":[2,0]\x7d", []⟩ = some ⟨[2, 0]⟩ := by decide +kernel
  have inserted : Origin.set? ⟨none, [1]⟩ = some ⟨[2]⟩ := by decide +kernel
  have equal := lawful _ _ _ _ read inserted (contains_append_replicate [2] 1)
  exact absurd equal (by decide)

end Prediction.Alternatives
