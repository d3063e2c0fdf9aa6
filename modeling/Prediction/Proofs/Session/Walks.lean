import Prediction.Proofs.Session.Basic

/-!
Walks over a set. A cursor holds positions in a list that shrinks under it, and yet it is a zipper
over the entries that were there at the start: a place in a list, which knows of no positions and
marks what was taken out.
-/

namespace Prediction

/-- A list with a place in it. Behind the place is what was produced, the latest first and each with
whether it was kept. -/
structure Zipper where
  behind : List (Config × Bool)
  ahead : List Config

namespace Zipper

open ConfigSet.Cursor (Move)

def before (cs : List Config) : Zipper := ⟨[], cs⟩

def kept (behind : List (Config × Bool)) : List Config :=
  ((behind.filter (·.2)).map (·.1)).reverse

/-- What was not taken out. -/
def contents (z : Zipper) : List Config := kept z.behind ++ z.ahead

/-- What there was at the start. -/
def originals (z : Zipper) : List Config := (z.behind.map (·.1)).reverse ++ z.ahead

def advance (z : Zipper) : Option Config × Zipper :=
  match z.ahead with
  | [] => (none, z)
  | c :: cs => (some c, ⟨(c, true) :: z.behind, cs⟩)

/-- Takes out what was produced last. If that is gone, its position was the number of those kept
before it. -/
def remove (z : Zipper) : Except ConfigSet.Error (Config × Zipper) :=
  match z.behind with
  | [] => .error .noCurrentConfig
  | (_, false) :: earlier => .error (.alreadyRemoved (kept earlier).length)
  | (c, true) :: earlier => .ok (c, ⟨(c, false) :: earlier, z.ahead⟩)

def move (z : Zipper) : Move → Except ConfigSet.Error (Option Config) × Zipper
  | .advance => (.ok z.advance.1, z.advance.2)
  | .remove =>
    match z.remove with
    | .error refusal => (.error refusal, z)
    | .ok (c, later) => (.ok (some c), later)

def walk (z : Zipper) : List Move → List (Except ConfigSet.Error (Option Config)) × Zipper
  | [] => ([], z)
  | m :: ms =>
    let step := z.move m
    let rest := step.2.walk ms
    (step.1 :: rest.1, rest.2)

/-- What a cursor remembers of the entry produced last. -/
def state (z : Zipper) : ConfigSet.CursorState :=
  match z.behind with
  | [] => .fresh
  | (_, false) :: earlier => .removed (kept earlier).length
  | (_, true) :: earlier => .produced (kept earlier).length

variable {c : Config} {earlier : List (Config × Bool)}

@[simp] theorem kept_cons_true : kept ((c, true) :: earlier) = kept earlier ++ [c] := by
  simp [kept]

@[simp] theorem kept_cons_false : kept ((c, false) :: earlier) = kept earlier := rfl

/-- No entry is left out or repeated. -/
theorem originals_move (z : Zipper) (m : Move) : (z.move m).2.originals = z.originals := by
  obtain ⟨behind, ahead⟩ := z
  cases m with
  | advance => cases ahead <;> simp [move, advance, originals]
  | remove =>
    match behind with
    | [] => rfl
    | (_, false) :: _ => rfl
    | (_, true) :: _ => rfl

theorem originals_walk (z : Zipper) (moves : List Move) :
    (z.walk moves).2.originals = z.originals := by
  induction moves generalizing z with
  | nil => rfl
  | cons m ms ih => exact (ih (z.move m).2).trans (originals_move z m)

/-- A removal leaves what lies ahead where it is, and is no place to run out of bounds. -/
theorem move_remove (z : Zipper) :
    (z.move .remove).2.ahead = z.ahead ∧
      ∀ index size, (z.move .remove).1 ≠ .error (.indexOutOfBounds index size) := by
  obtain ⟨behind, ahead⟩ := z
  match behind with
  | [] => simp [move, remove]
  | (_, false) :: _ => simp [move, remove]
  | (_, true) :: _ => simp [move, remove]

end Zipper

namespace ConfigSet.Cursor

/-- The configurations that the moves to a next entry were answered with. -/
def yielded : List Move → List (Except ConfigSet.Error (Option Config)) → List Config
  | .advance :: ms, .ok (some c) :: answers => c :: yielded ms answers
  | _ :: ms, _ :: answers => yielded ms answers
  | _, _ => []

/-- The cursor is at the place of the zipper. -/
structure Follows (k : Cursor) (z : Zipper) : Prop where
  configs : k.set.configs = z.contents
  next : k.next = (Zipper.kept z.behind).length
  state : k.state = z.state

variable {k : Cursor} {z : Zipper}

theorem follows_cursor (s : ConfigSet) : s.cursor.Follows (.before s.configs) := ⟨rfl, rfl, rfl⟩

theorem Follows.advance (follows : k.Follows z) :
    k.advance.1 = z.advance.1 ∧ k.advance.2.Follows z.advance.2 := by
  obtain ⟨behind, ahead⟩ := z
  have entry : k.set.configs[k.next]? = ahead.head? := by
    rw [follows.configs, follows.next, Zipper.contents, List.getElem?_append_right (Nat.le_refl _),
      Nat.sub_self, List.head?_eq_getElem?]
  cases ahead with
  | nil =>
    simp only [Cursor.advance, Zipper.advance, entry, List.head?_nil]
    exact ⟨trivial, follows⟩
  | cons c cs =>
    obtain ⟨configs, next, -⟩ := follows
    simp only [Cursor.advance, Zipper.advance, entry, List.head?_cons]
    refine ⟨trivial, ?_, ?_, ?_⟩
    · simpa [Zipper.contents] using configs
    · simpa using next
    · simpa [Zipper.state] using next

/-- The entry produced last is where the cursor looks for it. -/
theorem Follows.removal {set : ConfigSet} {next : Nat} {state : CursorState} {c : Config}
    {earlier : List (Config × Bool)} {ahead : List Config}
    (follows : Follows ⟨set, next, state⟩ ⟨(c, true) :: earlier, ahead⟩) :
    ∃ later, Cursor.remove ⟨set, next, state⟩ = .ok (c, later) ∧
      later.Follows ⟨(c, false) :: earlier, ahead⟩ := by
  obtain ⟨configs, -, remembers⟩ := follows
  obtain rfl : state = .produced (Zipper.kept earlier).length := remembers
  have split : set.configs = Zipper.kept earlier ++ c :: ahead := by
    simpa [Zipper.contents] using configs
  cases outcome : set.remove (Zipper.kept earlier).length with
  | error refusal =>
    obtain ⟨beyond, -⟩ := remove_eq_error_iff.mp outcome
    simp only [ConfigContents.size_eq, split, List.length_append, List.length_cons] at beyond
    omega
  | ok taken =>
    obtain ⟨d, left⟩ := taken
    obtain ⟨present, remaining⟩ := configs_of_remove outcome
    obtain rfl : c = d := by simpa [split] using present
    refine ⟨⟨left, _, .removed _⟩, by simp [Cursor.remove, outcome], ?_, rfl, rfl⟩
    simp [remaining, split, Zipper.contents, List.eraseIdx_append_of_length_le]

theorem Follows.move (follows : k.Follows z) (m : Move) :
    (k.move m).1 = (z.move m).1 ∧ (k.move m).2.Follows (z.move m).2 := by
  cases m with
  | advance =>
    obtain ⟨produced, later⟩ := follows.advance
    exact ⟨congrArg Except.ok produced, later⟩
  | remove =>
    obtain ⟨set, next, state⟩ := k
    obtain ⟨behind, ahead⟩ := z
    match behind with
    | [] =>
      obtain rfl : state = .fresh := follows.state
      exact ⟨rfl, follows⟩
    | (_, false) :: _ =>
      obtain rfl : state = .removed _ := follows.state
      exact ⟨rfl, follows⟩
    | (c, true) :: earlier =>
      obtain ⟨later, removed, follows'⟩ := follows.removal
      simp only [Cursor.move, removed]
      exact ⟨rfl, follows'⟩

/-- By induction on the moves, the cursor and the zipper go along together. -/
theorem Follows.walk (follows : k.Follows z) (moves : List Move) :
    (k.walk moves).1 = (z.walk moves).1 ∧ (k.walk moves).2.Follows (z.walk moves).2 := by
  induction moves generalizing k z with
  | nil => exact ⟨rfl, follows⟩
  | cons m ms ih =>
    obtain ⟨answer, next⟩ := follows.move m
    obtain ⟨answers, last⟩ := ih next
    exact ⟨by simp only [Cursor.walk, Zipper.walk, answer, answers], last⟩

/-- As many entries are produced as were asked for, as long as there are any. -/
theorem yielded_walk (z : Zipper) (moves : List Move) :
    yielded moves (z.walk moves).1 = z.ahead.take (moves.count .advance) := by
  induction moves generalizing z with
  | nil => simp [yielded]
  | cons m ms ih =>
    have rest := ih (z.move m).2
    cases m with
    | advance =>
      obtain ⟨behind, ahead⟩ := z
      cases ahead with
      | nil => simpa [Zipper.walk, yielded, Zipper.move, Zipper.advance] using rest
      | cons c cs => simpa [Zipper.walk, yielded, Zipper.move, Zipper.advance] using rest
    | remove =>
      rw [(Zipper.move_remove z).1] at rest
      simpa [Zipper.walk, yielded] using rest

theorem not_indexOutOfBounds_walk (z : Zipper) (moves : List Move) (index size : Nat) :
    .error (.indexOutOfBounds index size) ∉ (z.walk moves).1 := by
  induction moves generalizing z with
  | nil => exact List.not_mem_nil
  | cons m ms ih =>
    simp only [Zipper.walk, List.mem_cons, not_or]
    refine ⟨?_, ih _⟩
    cases m with
    | advance => simp [Zipper.move]
    | remove => exact ((Zipper.move_remove z).2 index size).symm

/-- A walk from the start of a set answers what the zipper over its entries answers, and leaves in
the set what the zipper leaves. The entries produced are the first ones, one for each move to a next
entry while there is one, and no position is ever out of bounds. -/
theorem walk_zips (s : ConfigSet) (moves : List Move) :
    let walked := s.cursor.walk moves
    let zipper := (Zipper.before s.configs).walk moves
    walked.1 = zipper.1 ∧ walked.2.set.configs = zipper.2.contents ∧
      zipper.2.originals = s.configs ∧
      yielded moves walked.1 = s.configs.take (moves.count .advance) ∧
      ∀ index size, .error (.indexOutOfBounds index size) ∉ walked.1 := by
  obtain ⟨answers, follows⟩ := (follows_cursor s).walk moves
  refine ⟨answers, follows.configs, Zipper.originals_walk _ moves, ?_, ?_⟩
  · rw [answers]
    exact yielded_walk (.before s.configs) moves
  · rw [answers]
    exact not_indexOutOfBounds_walk (.before s.configs) moves

end ConfigSet.Cursor

end Prediction
