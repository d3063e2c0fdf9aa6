import Prediction.Proofs.ConfigSet.Thawing

/-!
Equality of configurations and of sets of them, and what hashes are computed from. Under contexts of
one supply each comparison comes down to equality of what it looks at, its essence, so that
comparisons of different forms of sets agree with one another; and what is hashed follows from the
essence.
-/

namespace Prediction

variable {known : Set Context} {supply : Supply}

/-- A comparison of lists that goes element by element looks at what it does at each element. -/
theorem isEqv_iff_map_eq {α β : Type} {same : α → α → Bool} {f : α → β} {l m : List α}
    (elements : ∀ a ∈ l, ∀ b ∈ m, same a b = true ↔ f a = f b) :
    l.isEqv m same = true ↔ l.map f = m.map f := by
  induction l generalizing m with
  | nil => cases m <;> simp
  | cons a l ih =>
    cases m with
    | nil => simp
    | cons b m =>
      have head := elements a List.mem_cons_self b List.mem_cons_self
      have tail := ih fun a' left b' right =>
        elements a' (List.mem_cons_of_mem _ left) b' (List.mem_cons_of_mem _ right)
      rw [List.isEqv_cons_cons, Bool.and_eq_true, head, tail, List.map_cons, List.map_cons,
        List.cons.injEq]

/-- Equal contexts have equal digests, whatever digests are computed by. -/
theorem Coherent.digest_eq_of_equal (coherent : Coherent supply known) {a b : Context}
    (left : a ∈ known) (right : b ∈ known) (same : a.equal b = true) :
    a.digest supply.rule = b.digest supply.rule := by
  rw [coherent.digest_tree left, coherent.digest_tree right,
    (coherent.equal_iff left right).mp same]

namespace Config

/-- What equality looks at: all that can be seen but the depth. -/
def essence (c : Config) : Config.Value := { c.value with depth := 0 }

/-- What a hash is computed from, contexts by value. -/
def Value.fingerprint (rule : DigestRule) (c : Config.Value) : Fingerprint :=
  ⟨c.state, c.alt, c.reachesOuter, c.hidden, c.context.digest rule, c.guard⟩

variable {c other : Config}

theorem equal_iff (coherent : Coherent supply known) (left : c.context ∈ known)
    (right : other.context ∈ known) : c.equal other = true ↔ c.essence = other.essence := by
  simp only [equal, essence, value, Bool.and_eq_true, beq_iff_eq, decide_eq_true_eq,
    coherent.equal_iff left right, Value.mk.injEq]
  tauto

/-- What is hashed follows from the essence. -/
theorem fingerprint_eq (coherent : Coherent supply known) (present : c.context ∈ known) :
    c.fingerprint supply.rule = c.essence.fingerprint supply.rule := by
  rw [fingerprint, coherent.digest_tree present]
  rfl

theorem fingerprint_of_equal (coherent : Coherent supply known) (left : c.context ∈ known)
    (right : other.context ∈ known) (same : c.equal other = true) :
    c.fingerprint supply.rule = other.fingerprint supply.rule := by
  rw [fingerprint_eq coherent left, fingerprint_eq coherent right,
    (equal_iff coherent left right).mp same]

end Config

namespace ConfigContents

structure Essence where
  outermost : Bool
  conflict : Option Conflict
  configs : List Config.Value

/-- What equality of sets looks at. -/
def essence (s : ConfigContents) : Essence :=
  ⟨s.outermost, s.conflict, s.configs.map Config.essence⟩

variable {s t : ConfigContents}

theorem equal_iff (coherent : Coherent supply known) (left : s.Known known)
    (right : t.Known known) : s.equal t = true ↔ s.essence = t.essence := by
  have configs : s.configs.isEqv t.configs Config.equal = true ↔
      s.configs.map Config.essence = t.configs.map Config.essence :=
    isEqv_iff_map_eq fun c present c' present' =>
      Config.equal_iff coherent (left c present) (right c' present')
  simp only [equal, essence, Bool.and_eq_true, beq_iff_eq, configs, Essence.mk.injEq, and_assoc]

theorem equal_comm (coherent : Coherent supply known) (left : s.Known known)
    (right : t.Known known) : s.equal t = t.equal s := by
  rw [Bool.eq_iff_iff, equal_iff coherent left right, equal_iff coherent right left, eq_comm]

theorem fingerprint_eq (coherent : Coherent supply known) (within : s.Known known) :
    s.fingerprint supply.rule = ⟨s.essence.outermost, s.essence.conflict,
      s.essence.configs.map (Config.Value.fingerprint supply.rule)⟩ := by
  have configs : s.configs.map (Config.fingerprint supply.rule) =
      (s.configs.map Config.essence).map (Config.Value.fingerprint supply.rule) := by
    rw [List.map_map]
    exact List.map_congr_left fun c present => Config.fingerprint_eq coherent (within c present)
  rw [fingerprint, essence, configs]

theorem fingerprint_of_equal (coherent : Coherent supply known) (left : s.Known known)
    (right : t.Known known) (same : s.equal t = true) :
    s.fingerprint supply.rule = t.fingerprint supply.rule := by
  rw [fingerprint_eq coherent left, fingerprint_eq coherent right,
    (equal_iff coherent left right).mp same]

end ConfigContents

/-- Comparing storages first only saves work, if a storage has one list of configurations. -/
theorem FrozenSet.equal_eq {f g : FrozenSet}
    (shared : f.sharesStorage g = true → f.configs = g.configs) :
    f.equal g = f.toConfigContents.equal g.toConfigContents := by
  cases storages : f.sharesStorage g with
  | false => rw [equal, storages, Bool.false_or, ConfigContents.equal]
  | true =>
    rw [equal, storages, Bool.true_or, ConfigContents.equal, shared storages,
      isEqv_self Config.equal_self]

/-- A set in either of its forms. -/
inductive SetForm where
  | writable (s : ConfigSet)
  | frozen (f : FrozenSet)

namespace SetForm

def contents : SetForm → ConfigContents
  | .writable s => s.toConfigContents
  | .frozen f => f.toConfigContents

/-- Equality of sets of any forms. A frozen set leaves it to the writable one. -/
def equal : SetForm → SetForm → Bool
  | .writable s, .writable t => s.toConfigContents.equal t.toConfigContents
  | .writable s, .frozen f => s.toConfigContents.equal f.toConfigContents
  | .frozen f, .writable s => s.toConfigContents.equal f.toConfigContents
  | .frozen f, .frozen g => f.equal g

/-- Two frozen sets of one storage have the same configurations. -/
def Agree : SetForm → SetForm → Prop
  | .frozen f, .frozen g => f.sharesStorage g = true → f.configs = g.configs
  | _, _ => True

variable {a b : SetForm}

/-- Neither the forms nor the storages matter. -/
theorem equal_eq (coherent : Coherent supply known) (left : a.contents.Known known)
    (right : b.contents.Known known) (agree : a.Agree b) :
    a.equal b = a.contents.equal b.contents := by
  cases a with
  | writable s => cases b <;> rfl
  | frozen f =>
    cases b with
    | writable t => exact ConfigContents.equal_comm coherent right left
    | frozen g => exact FrozenSet.equal_eq agree

end SetForm

end Prediction
