import Prediction.Proofs.ConfigSet.Equality
import Prediction.Proofs.Session.Refinement

/-!
Equality and hashing in sessions. A storage is one freezing of one set, so that looking at storages
first does not change the outcome of a comparison: sets are equal in one form exactly if they are
equal in any other. Equal things hash alike, so that a frozen set may serve as a key.
-/

namespace Prediction.Session

variable {known : Set Context} {s : Session}

/-- A context that a client can get hold of. -/
inductive HoldsContext (s : Session) : Context → Prop
  | context (i : Nat) : HoldsContext s (s.contexts i)
  | entry (i : Nat) {c : Config} : c ∈ (s.sets i).configs → HoldsContext s c.context
  | frozenEntry (i : Nat) {c : Config} : c ∈ (s.frozen i).configs → HoldsContext s c.context

/-- A set that a client can get hold of. A copy of a frozen set is that set once more. -/
inductive HoldsSet (s : Session) : SetForm → Prop
  | writable (i : Nat) : HoldsSet s (.writable (s.sets i))
  | frozen (i : Nat) : HoldsSet s (.frozen (s.frozen i))

theorem Sound.holdsContext (sound : s.Sound known) {c : Context} (held : s.HoldsContext c) :
    c ∈ known := by
  cases held with
  | context i => exact sound.contexts i
  | entry i present => exact sound.sets i _ present
  | frozenEntry i present => exact sound.frozen i _ present

theorem Sound.holdsSet (sound : s.Sound known) {form : SetForm} (held : s.HoldsSet form) :
    form.contents.Known known := by
  cases held with
  | writable i => exact sound.sets i
  | frozen i => exact sound.frozen i

/-- No label is handed out again. A node with a label that was handed out could be known, and would
stay known. -/
theorem next_le_perform (sound : s.Sound known) (command : Command) :
    s.supply.next ≤ (s.perform command).2.supply.next := by
  by_contra! fewer
  obtain ⟨wider, included, coherent, d, ps, present⟩ := sound.coherent.exists_node fewer
  obtain ⟨-, -, widest, upward, later⟩ :=
    perform_realizes (sound.withSupply included coherent) command
  exact Nat.lt_irrefl _ (later.coherent.issued (upward present))

/-- Storages have labels that were handed out, and each has one list of configurations. -/
structure Stores (s : Session) : Prop where
  issued : ∀ i, (s.frozen i).storage < s.supply.next
  shared : ∀ i k, (s.frozen i).sharesStorage (s.frozen k) = true →
    (s.frozen i).configs = (s.frozen k).configs

theorem stores_starting (rule : DigestRule) : (starting rule).Stores :=
  ⟨fun _ => Nat.lt_succ_self _, fun _ _ _ => rfl⟩

theorem frozen_obtain? (s : Session) (recipe : Recipe) :
    ∀ obtained ∈ s.obtain? recipe, obtained.2.frozen = s.frozen := by
  cases recipe with
  | ofParts parents ks =>
    simp only [obtain?]
    split <;> simp
  | parent c path =>
    simp only [obtain?]
    split <;> simp
  | _ => simp [obtain?, rejoin, renet]

theorem frozen_performEdit (s : Session) (i : Nat) (edit : Edit) :
    (s.performEdit i edit).2.frozen = s.frozen := by
  cases edit <;> simp only [performEdit]
  all_goals
    try split
    all_goals rfl

/-- Frozen sets are not changed, but their slots are used again. -/
theorem frozen_perform (s : Session) (command : Command) :
    (s.perform command).2.frozen = match command with
      | .freeze set target => Function.update s.frozen target ((s.sets set).freeze s.supply).1
      | _ => s.frozen := by
  cases command with
  | context target recipe =>
    simp only [perform]
    split
    · rfl
    · rename_i obtained outcome
      exact frozen_obtain? s recipe obtained outcome
  | edit i edit => exact frozen_performEdit s i edit
  | thaw set target cache =>
    simp only [perform]
    split <;> rfl
  | _ => rfl

theorem Stores.freeze (stores : s.Stores) (set target : Nat) :
    (s.perform (.freeze set target)).2.Stores := by
  have older (i : Nat) : (s.frozen i).storage ≠ s.supply.next := Nat.ne_of_lt (stores.issued i)
  constructor
  · exact (Function.forall_update_iff s.frozen fun _ f => f.storage < s.supply.next + 1).mpr
      ⟨Nat.lt_succ_self _, fun i _ => Nat.lt_succ_of_lt (stores.issued i)⟩
  · intro i k
    simp only [frozen_perform, Function.update_apply]
    split <;> split
    · exact fun _ => rfl
    · exact fun same => absurd (beq_iff_eq.mp same).symm (older k)
    · exact fun same => absurd (beq_iff_eq.mp same) (older i)
    · exact stores.shared i k

theorem Stores.perform (stores : s.Stores) (sound : s.Sound known) (command : Command) :
    (s.perform command).2.Stores := by
  have grown := next_le_perform sound command
  have kept (same : (s.perform command).2.frozen = s.frozen) : (s.perform command).2.Stores :=
    ⟨fun i => same ▸ Nat.lt_of_lt_of_le (stores.issued i) grown,
      fun i k => same ▸ stores.shared i k⟩
  cases command with
  | freeze set target => exact stores.freeze set target
  | _ => exact kept (frozen_perform s _)

theorem Stores.run (stores : s.Stores) (sound : s.Sound known) (program : List Command) :
    (s.run program).2.Stores := by
  induction program generalizing s known with
  | nil => exact stores
  | cons command program ih =>
    obtain ⟨-, -, wider, -, sound'⟩ := perform_realizes sound command
    exact ih (stores.perform sound command) sound'

theorem stores_reached (rule : DigestRule) (program : List Command) :
    (reached rule program).Stores :=
  (stores_starting rule).run (sound_starting rule) program

theorem Stores.agree (stores : s.Stores) {a b : SetForm} (left : s.HoldsSet a)
    (right : s.HoldsSet b) : a.Agree b := by
  cases left with
  | writable i => trivial
  | frozen i =>
    cases right with
    | writable k => trivial
    | frozen k => exact stores.shared i k

/-- Equality of sets is one relation, and what is equal hashes alike. -/
structure EqualityUniform (s : Session) : Prop where
  /-- Forms and storages do not matter. -/
  contents : ∀ a b, s.HoldsSet a → s.HoldsSet b → a.equal b = a.contents.equal b.contents
  /-- Two sets may be compared before or after they were frozen, or the one before and the other
  after. -/
  frozen : ∀ i k,
    let f := (s.sets i).freeze s.supply
    let g := (s.sets k).freeze f.2
    let same := (SetForm.writable (s.sets i)).equal (.writable (s.sets k))
    (SetForm.frozen f.1).equal (.frozen g.1) = same ∧
      (SetForm.writable (s.sets i)).equal (.frozen g.1) = same ∧
      (SetForm.frozen f.1).equal (.writable (s.sets k)) = same
  equivalence : Equivalence fun a b : { form // s.HoldsSet form } => a.1.equal b.1 = true
  digest : ∀ a b, s.HoldsContext a → s.HoldsContext b → a.equal b = true →
    a.digest s.supply.rule = b.digest s.supply.rule
  config : ∀ c d : Config, s.HoldsContext c.context → s.HoldsContext d.context →
    c.equal d = true → c.fingerprint s.supply.rule = d.fingerprint s.supply.rule
  set : ∀ a b, s.HoldsSet a → s.HoldsSet b → a.equal b = true →
    a.contents.fingerprint s.supply.rule = b.contents.fingerprint s.supply.rule

/-- In every session that a program leads to, whatever digests are computed by. -/
theorem reached_equalityUniform (rule : DigestRule) (program : List Command) :
    (reached rule program).EqualityUniform := by
  obtain ⟨known, sound⟩ := sound_reached rule program
  have stores := stores_reached rule program
  generalize reached rule program = s at sound stores ⊢
  have coherent := sound.coherent
  have contents (a b : SetForm) (left : s.HoldsSet a) (right : s.HoldsSet b) :
      a.equal b = a.contents.equal b.contents :=
    SetForm.equal_eq coherent (sound.holdsSet left) (sound.holdsSet right)
      (stores.agree left right)
  have equal_iff {a b : SetForm} (left : s.HoldsSet a) (right : s.HoldsSet b) :
      a.equal b = true ↔ a.contents.essence = b.contents.essence := by
    rw [contents a b left right]
    exact ConfigContents.equal_iff coherent (sound.holdsSet left) (sound.holdsSet right)
  refine ⟨contents, ?frozen, ?equivalence, ?digest, ?config, ?set⟩
  case frozen =>
    intro i k f g same
    have apart : f.1.sharesStorage g.1 = false :=
      beq_eq_false_iff_ne.mpr (Nat.ne_of_lt (Nat.lt_succ_self s.supply.next))
    have agree : (SetForm.frozen f.1).Agree (.frozen g.1) := by simp [SetForm.Agree, apart]
    exact ⟨SetForm.equal_eq coherent (sound.sets i) (sound.sets k) agree, rfl,
      SetForm.equal_eq coherent (sound.sets i) (sound.sets k) trivial⟩
  case equivalence =>
    constructor
    · exact fun a => (equal_iff a.2 a.2).mpr rfl
    · exact fun {a b} same => (equal_iff b.2 a.2).mpr ((equal_iff a.2 b.2).mp same).symm
    · intro a b c first second
      have essences := ((equal_iff a.2 b.2).mp first).trans ((equal_iff b.2 c.2).mp second)
      exact (equal_iff a.2 c.2).mpr essences
  case digest =>
    exact fun a b left right =>
      coherent.digest_eq_of_equal (sound.holdsContext left) (sound.holdsContext right)
  case config =>
    exact fun c d left right =>
      Config.fingerprint_of_equal coherent (sound.holdsContext left) (sound.holdsContext right)
  case set =>
    intro a b left right same
    rw [contents a b left right] at same
    exact ConfigContents.fingerprint_of_equal coherent (sound.holdsSet left)
      (sound.holdsSet right) same

/-- One caller twice over, and a thread with either of them that has come up from another depth. -/
def sameThreadTwice : List Command :=
  [.context 0 (.push 9 7), .context 1 (.push 9 7),
    .edit 0 (.add ⟨3, 1, 0, .always, 0, true, false, false⟩ 0),
    .edit 1 (.add ⟨3, 1, 1, .always, 5, true, false, false⟩ 0), .freeze 0 0, .freeze 1 1]

example : let s := reached .sha256 sameThreadTwice
    (s.frozen 0).sharesStorage (s.frozen 1) = false ∧
      (SetForm.frozen (s.frozen 0)).equal (.frozen (s.frozen 1)) = true ∧
      (SetForm.frozen (s.frozen 0)).equal (.writable (s.sets 1)) = true ∧
      (s.frozen 0).fingerprint .sha256 = (s.frozen 1).fingerprint .sha256 := by
  decide +kernel

end Prediction.Session
