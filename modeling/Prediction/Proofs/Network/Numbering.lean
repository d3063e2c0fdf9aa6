import Mathlib.Tactic.ByContra
import Prediction.Network.Intern

/-!
The numbers of states. States are numbered from zero in the order in which they are added, and none
of them ever gets another number. There are as many numbers as there are return states, one of which
is the mark of the outermost context: a network that grows beyond all others hands out that mark as
a number, and only what was numbered before can be returned to.
-/

namespace Prediction.Network

/-- What is added to a network. -/
abbrev Addition := StateKind × UInt32

/-- A call on a network. -/
inductive Call where
  | addState (kind : StateKind) (rule : UInt32)
  | intern (c : Context) (s : Supply)

def Call.addition? : Call → Option Addition
  | .addState kind rule => some (kind, rule)
  | .intern .. => none

/-- Makes calls one after another, and answers the additions. What is refused changes nothing. -/
def perform (n : Network) : List Call → List (Except FullError StateId) × Network
  | [] => ([], n)
  | .addState kind rule :: calls =>
    match n.addState kind rule with
    | .error refusal =>
      let rest := n.perform calls
      (.error refusal :: rest.1, rest.2)
    | .ok (id, later) =>
      let rest := later.perform calls
      (.ok id :: rest.1, rest.2)
  | .intern c s :: calls => (n.intern c s).2.1.perform calls

/-- The state that an addition with the given place makes. -/
def Addition.state (a : Addition) (place : Nat) : State :=
  ⟨UInt32.ofNat place, a.1, a.2⟩

/-- How a network went on while it answered additions, with each number given as long as there was
one left. -/
structure Continues (n : Network) (additions : List Addition)
    (answers : List (Except FullError StateId)) (later : Network) : Prop where
  kept : ∀ (i : Nat) (state : State), n.states[i]? = some state → later.states[i]? = some state
  size : later.size = min UInt32.size (n.size + additions.length)
  answered : answers.length = additions.length
  accepted : ∀ (i : Nat) (a : Addition), additions[i]? = some a → n.size + i < UInt32.size →
    answers[i]? = some (.ok (UInt32.ofNat (n.size + i))) ∧
      later.states[n.size + i]? = some (a.state (n.size + i))
  refused : ∀ i < additions.length, UInt32.size ≤ n.size + i → answers[i]? = some (.error .full)

variable {n middle later : Network} {a : Addition} {additions : List Addition}
  {answers : List (Except FullError StateId)}

theorem Continues.refl (fits : n.size ≤ UInt32.size) : n.Continues [] [] n :=
  ⟨fun _ _ present => present, (Nat.min_eq_right fits).symm, rfl, by simp, by simp⟩

/-- An accepted addition comes first, and the network goes on with one more state. -/
theorem Continues.accept (states : middle.states = n.states.push (a.state n.size))
    (room : n.size < UInt32.size) (rest : middle.Continues additions answers later) :
    n.Continues (a :: additions) (.ok (UInt32.ofNat n.size) :: answers) later := by
  have grown : middle.size = n.size + 1 :=
    (congrArg Array.size states).trans (Array.size_push _)
  have added : middle.states[n.size]? = some (a.state n.size) :=
    states ▸ Array.getElem?_push_size
  have place (i : Nat) : n.size + (i + 1) = middle.size + i := by omega
  refine ⟨?kept, ?size, congrArg (· + 1) rest.answered, ?accepted, ?refused⟩
  case kept =>
    intro i state present
    have within : i < n.states.size := (Array.getElem?_eq_some_iff.mp present).1
    refine rest.kept i state ?_
    rw [states, Array.getElem?_push_lt within, ← present, Array.getElem?_eq_getElem within]
  case size => rw [rest.size, grown, List.length_cons, Nat.add_assoc, Nat.add_comm 1]
  case accepted =>
    intro i b present left
    cases i with
    | zero =>
      obtain rfl : a = b := by simpa using present
      exact ⟨rfl, rest.kept n.size _ added⟩
    | succ i =>
      rw [place] at left ⊢
      exact rest.accepted i b present left
  case refused =>
    intro i within left
    cases i with
    | zero => omega
    | succ i =>
      rw [place] at left
      exact rest.refused i (Nat.lt_of_succ_lt_succ within) left

/-- A refused addition comes first. No number is left for the others either. -/
theorem Continues.refuse (full : n.size = UInt32.size)
    (rest : n.Continues additions answers later) :
    n.Continues (a :: additions) (.error .full :: answers) later := by
  refine ⟨rest.kept, ?_, congrArg (· + 1) rest.answered, ?_, ?_⟩
  · rw [rest.size, List.length_cons]
    omega
  · intro i b present left
    omega
  · intro i within left
    cases i with
    | zero => rfl
    | succ i => exact rest.refused i (Nat.lt_of_succ_lt_succ within) (by omega)

theorem addState_of_room (room : n.size < UInt32.size) (kind : StateKind) (rule : UInt32) :
    n.addState kind rule = .ok (UInt32.ofNat n.size,
      { n with states := n.states.push (Addition.state (kind, rule) n.size) }) :=
  if_pos room

/-- By induction on the calls. Interning leaves the states alone. -/
theorem continues_perform (fits : n.size ≤ UInt32.size) (calls : List Call) :
    n.Continues (calls.filterMap Call.addition?) (n.perform calls).1 (n.perform calls).2 := by
  induction calls generalizing n with
  | nil => exact .refl fits
  | cons call calls ih =>
    cases call with
    | intern c s =>
      have interned := ih (n := (n.intern c s).2.1) fits
      exact ⟨interned.kept, interned.size, interned.answered, interned.accepted, interned.refused⟩
    | addState kind rule =>
      rcases Nat.lt_or_ge n.size UInt32.size with room | none
      · simp only [perform, addState_of_room room]
        have fits' : (n.states.push (Addition.state (kind, rule) n.size)).size ≤ UInt32.size := by
          rw [Array.size_push]
          exact room
        exact .accept (a := (kind, rule)) rfl room (ih fits')
      · simp only [perform, addState_eq_error_iff.mpr none]
        exact .refuse (Nat.le_antisymm fits none) (ih fits)

theorem toNat_outermostKey : outermostKey.toNat + 1 = UInt32.size := rfl

theorem ofNat_eq_outermostKey_iff {i : Nat} (small : i < UInt32.size) :
    UInt32.ofNat i = outermostKey ↔ i = outermostKey.toNat := by
  rw [← UInt32.toNat_inj, UInt32.toNat_ofNat_of_lt' small]

/-- What comes of additions to a new network: its answers, its states, and what can be done with
the numbers. -/
structure Numbers (additions : List Addition) (answers : List (Except FullError StateId))
    (later : Network) : Prop where
  /-- The number of a state is its place, and the state can be looked up by it. -/
  accepted : ∀ (i : Nat) (a : Addition), additions[i]? = some a → i < UInt32.size →
    answers[i]? = some (.ok (UInt32.ofNat i)) ∧ (UInt32.ofNat i).toNat = i ∧
      later.state? (UInt32.ofNat i) = some ⟨UInt32.ofNat i, a.1, a.2⟩
  refused : ∀ i < additions.length, UInt32.size ≤ i → answers[i]? = some (.error .full)
  /-- Pushed as return states, all numbers but one make a path over what is there. -/
  pushed : ∀ (i : Nat) (id : StateId), answers[i]? = some (.ok id) → ∀ (c : Context) (s : Supply),
    if i = outermostKey.toNat then (c.push id s).1 = .outermost
    else (c.push id s).1.paths = [(id, c)]
  /-- That one is handed out as soon as all others are. -/
  regular_iff : (∀ id, .ok id ∈ answers → id ≠ outermostKey) ↔
    additions.length ≤ outermostKey.toNat

/-- The answer at a place is the place itself, unless all numbers are taken. -/
theorem Continues.answer_iff (continues : empty.Continues additions answers later) {i : Nat}
    {id : StateId} :
    answers[i]? = some (.ok id) ↔
      i < additions.length ∧ i < UInt32.size ∧ id = UInt32.ofNat i := by
  have start (i : Nat) : empty.size + i = i := Nat.zero_add i
  constructor
  · intro answer
    have within : i < additions.length :=
      continues.answered ▸ (List.getElem?_eq_some_iff.mp answer).1
    rcases Nat.lt_or_ge i UInt32.size with room | none
    · obtain ⟨same, -⟩ := continues.accepted i _ (List.getElem?_eq_getElem within) (by rwa [start])
      rw [answer, start] at same
      exact ⟨within, room, Except.ok.inj (Option.some.inj same)⟩
    · have refused := continues.refused i within (by rwa [start])
      simp [answer] at refused
  · rintro ⟨within, room, rfl⟩
    obtain ⟨same, -⟩ := continues.accepted i _ (List.getElem?_eq_getElem within) (by rwa [start])
    rwa [start] at same

/-- Whatever is interned in between, states are numbered by their places, up to and including the
number that marks the outermost context. -/
theorem numbers_perform (calls : List Call) :
    Numbers (calls.filterMap Call.addition?) (empty.perform calls).1 (empty.perform calls).2 := by
  have continues := continues_perform (n := empty) (Nat.zero_le _) calls
  generalize calls.filterMap Call.addition? = additions at continues ⊢
  have start (i : Nat) : empty.size + i = i := Nat.zero_add i
  refine ⟨?accepted, ?refused, ?pushed, ?regular⟩
  case accepted =>
    intro i a present room
    obtain ⟨answer, state⟩ := continues.accepted i a present (by rwa [start])
    have place : (UInt32.ofNat i).toNat = i := UInt32.toNat_ofNat_of_lt' room
    rw [start] at answer state
    refine ⟨answer, place, ?_⟩
    rw [state?, place, state]
    rfl
  case refused =>
    exact fun i within none => continues.refused i within (by rwa [start])
  case pushed =>
    intro i id answer c s
    obtain ⟨-, room, rfl⟩ := continues.answer_iff.mp answer
    have mark := ofNat_eq_outermostKey_iff room
    split
    · rename_i here
      rw [Context.push, if_pos (mark.mpr here)]
    · rename_i elsewhere
      rw [Context.push, if_neg (mt mark.mp elsewhere)]
      rfl
  case regular =>
    constructor
    · intro regular
      by_contra more
      have last := toNat_outermostKey
      refine regular outermostKey (List.mem_of_getElem? (i := outermostKey.toNat) ?_) rfl
      exact continues.answer_iff.mpr ⟨by omega, by omega, (UInt32.ofNat_toNat).symm⟩
    · intro few id answer mark
      obtain ⟨i, found⟩ := List.mem_iff_getElem?.mp answer
      obtain ⟨within, room, rfl⟩ := continues.answer_iff.mp found
      have here := (ofNat_eq_outermostKey_iff room).mp mark
      omega

/-- So many states that all numbers but the last are taken. -/
def crowd : List Call := List.replicate outermostKey.toNat (.addState .basic 0)

/-- One more state is accepted. Its number is the mark of the outermost context, and pushing it
leaves nothing to return to. -/
theorem addState_crowd :
    (empty.perform crowd).2.size = outermostKey.toNat ∧
      ∃ later, (empty.perform crowd).2.addState .basic 0 = .ok (outermostKey, later) ∧
        ∀ (c : Context) (s : Supply), (c.push outermostKey s).1 = .outermost := by
  have additions : (crowd.filterMap Call.addition?).length = outermostKey.toNat := by
    have added : Call.addition? (.addState .basic 0) = some (.basic, 0) := rfl
    rw [crowd, List.filterMap_replicate_of_some added, List.length_replicate]
  have last := toNat_outermostKey
  have size : (empty.perform crowd).2.size = outermostKey.toNat := by
    rw [(continues_perform (n := empty) (Nat.zero_le _) crowd).size, additions]
    exact Nat.min_eq_right (by change 0 + _ ≤ _; omega) |>.trans (Nat.zero_add _)
  -- Nothing but the number of states matters from here on.
  generalize (empty.perform crowd).2 = crowded at size ⊢
  have added := addState_of_room (n := crowded) (by omega) .basic 0
  rw [size, UInt32.ofNat_toNat] at added
  exact ⟨size, _, added, fun c s => congrArg Prod.fst (if_pos rfl)⟩

end Prediction.Network
