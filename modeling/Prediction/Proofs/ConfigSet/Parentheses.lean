import Mathlib.Data.List.Basic
import Prediction.Config
import Prediction.Proofs.Context.Coherent

/-!
Where the text of a configuration begins. It is written in parentheses, and numbers, contexts and
guards are written without any. So where texts of configurations are joined, each opening
parenthesis is the beginning of one of them.
-/

namespace Prediction

/-- There is no opening parenthesis in the text. -/
def Unopened (text : String) : Prop := '(' ∉ text.toList

instance (text : String) : Decidable (Unopened text) := inferInstanceAs (Decidable (_ ∉ _))

/-- The text begins with its only opening parenthesis. -/
def Opens (text : String) : Prop := ∃ rest, text = "(" ++ rest ∧ Unopened rest

variable {a b separator : String} {parts : List String}

theorem unopened_append_iff : Unopened (a ++ b) ↔ Unopened a ∧ Unopened b := by
  rw [Unopened, String.toList_append, List.mem_append, not_or]
  rfl

theorem unopened_ite {condition : Prop} [Decidable condition] (yes : Unopened a)
    (no : Unopened b) : Unopened (if condition then a else b) := by
  split
  · exact yes
  · exact no

theorem unopened_intercalate (separated : Unopened separator)
    (all : ∀ part ∈ parts, Unopened part) : Unopened (separator.intercalate parts) := by
  induction parts with
  | nil =>
    rw [String.intercalate_nil]
    decide
  | cons first others ih =>
    obtain ⟨ofFirst, ofOthers⟩ := List.forall_mem_cons.mp all
    cases others with
    | nil => exact String.intercalate_singleton ▸ ofFirst
    | cons =>
      rw [String.intercalate_cons_of_ne_nil (List.cons_ne_nil _ _), unopened_append_iff,
        unopened_append_iff]
      exact ⟨⟨ofFirst, separated⟩, ih ofOthers⟩

theorem unopened_repr (n : Nat) : Unopened n.repr := by
  intro opens
  rw [Nat.toList_repr] at opens
  have digit := Nat.isDigit_of_mem_toDigits (by decide) (by decide) opens
  contradiction

theorem unopened_unsigned (n : UInt32) : Unopened (toString n) := unopened_repr n.toNat

theorem unopened_signed (n : Int32) : Unopened (toString n) := by
  have text : toString n = n.toInt.repr := rfl
  rw [text]
  cases n.toInt with
  | ofNat m => exact unopened_repr m
  | negSucc m => exact unopened_append_iff.mpr ⟨by decide, unopened_repr (m + 1)⟩

namespace Guard

mutual

theorem unopened_text : ∀ g : Guard, Unopened g.text
  | .always => by decide
  | .predicate r i d => by
    simp only [text, unopened_append_iff]
    exact ⟨⟨⟨⟨⟨by decide, unopened_unsigned r⟩, by decide⟩, unopened_unsigned i⟩, by decide⟩,
      unopened_ite (by decide) (by decide)⟩
  | .precedence n => by
    simp only [text, unopened_append_iff]
    exact ⟨⟨by decide, unopened_signed n⟩, by decide⟩
  | .all gs => by
    rw [text]
    exact unopened_intercalate (by decide) (unopened_texts gs)
  | .any gs => by
    rw [text]
    exact unopened_intercalate (by decide) (unopened_texts gs)

theorem unopened_texts : ∀ gs : List Guard, ∀ text ∈ texts gs, Unopened text
  | [] => by simp [texts]
  | g :: gs => by
    rw [texts]
    exact List.forall_mem_cons.mpr ⟨unopened_text g, unopened_texts gs⟩

end

end Guard

namespace Context

theorem unopened_pathText {k : ReturnState} {parent : Context} {parentText : String}
    (below : Unopened parentText) : Unopened (pathText k parent parentText) := by
  refine unopened_ite (by decide) (unopened_ite (unopened_unsigned k) ?_)
  simp only [unopened_append_iff]
  exact ⟨⟨unopened_unsigned k, by decide⟩, below⟩

theorem unopened_bracketed (all : ∀ part ∈ parts, Unopened part) : Unopened (bracketed parts) := by
  unfold bracketed
  split
  · exact all _ List.mem_cons_self
  · simp only [unopened_append_iff]
    exact ⟨⟨by decide, unopened_intercalate (by decide) all⟩, by decide⟩

theorem unopened_pathTexts {ps : List Path} (parents : ∀ path ∈ ps, Unopened path.2.text) :
    ∀ text ∈ pathTexts ps, Unopened text := by
  induction ps with
  | nil => simp [pathTexts]
  | cons path ps ih =>
    obtain ⟨first, others⟩ := List.forall_mem_cons.mp parents
    exact List.forall_mem_cons.mpr ⟨unopened_pathText first, ih others⟩

theorem unopened_text (c : Context) : Unopened c.text := by
  induction c with
  | outermostAt l =>
    rw [text]
    decide
  | wildcardAt l =>
    rw [text]
    decide
  | node l d ps ih =>
    rw [text]
    exact unopened_bracketed (unopened_pathTexts ih)

end Context

theorem Config.opens_textWith (showContext : Bool) (c : Config) :
    Opens (c.textWith showContext) := by
  refine ⟨_, by simp only [textWith, String.append_assoc]; rfl, ?_⟩
  simp only [unopened_append_iff]
  refine ⟨unopened_unsigned _, by decide, unopened_unsigned _, unopened_ite ?_ (by decide),
    unopened_ite (by decide) ?_, unopened_ite ?_ (by decide),
    unopened_ite (by decide) (by decide), by decide⟩
  · simp only [unopened_append_iff]
    exact ⟨by decide, c.context.unopened_text, by decide⟩
  · exact unopened_append_iff.mpr ⟨by decide, c.guard.unopened_text⟩
  · exact unopened_append_iff.mpr ⟨by decide, unopened_unsigned _⟩

/-- Two texts that may change places are the same: what lies between their openings is as long as
the first one. -/
theorem Opens.eq_of_swap (opensFirst : Opens a) (opensSecond : Opens b)
    (separated : Unopened separator)
    (same : a ++ separator ++ b = b ++ separator ++ a) : a = b := by
  obtain ⟨first, rfl, unopened⟩ := opensFirst
  obtain ⟨second, rfl, unopened'⟩ := opensSecond
  have between : Unopened (first ++ separator) := unopened_append_iff.mpr ⟨unopened, separated⟩
  have cut : (first ++ separator).toList ++ '(' :: second.toList =
      (second ++ separator).toList ++ '(' :: first.toList := by
    have chars := congrArg String.toList same
    simpa [String.toList_append] using chars
  obtain ⟨-, -, rest⟩ := (List.append_cons_inj_of_notMem between unopened').mp cut
  rw [String.toList_inj.mp rest]

/-- The same for two texts in a row of texts. -/
theorem Opens.eq_of_intercalate_swap (opensFirst : Opens a) (opensSecond : Opens b)
    (separated : Unopened separator) {front back : List String}
    (same : separator.intercalate (front ++ a :: b :: back) =
      separator.intercalate (front ++ b :: a :: back)) : a = b := by
  induction front with
  | nil =>
    apply opensFirst.eq_of_swap opensSecond separated
    cases back with
    | nil => simpa using same
    | cons =>
      simp only [List.nil_append, String.intercalate_cons_of_ne_nil (List.cons_ne_nil _ _),
        ← String.append_assoc, String.append_left_inj] at same
      exact same
  | cons part front ih =>
    rw [List.cons_append, List.cons_append, String.intercalate_cons_of_ne_nil (by simp),
      String.intercalate_cons_of_ne_nil (by simp), String.append_right_inj] at same
    exact ih same

end Prediction
