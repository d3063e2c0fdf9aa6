import Prediction.Config

/-!
What writable and frozen sets of configurations have in common: the configurations in the order of
their insertion, and what is known of all of them together.
-/

namespace Prediction

structure ConfigContents where
  configs : List Config
  /-- The alternative of every configuration, if that was the same one throughout. -/
  uniqueAlt : Option Alternative
  /-- A configuration with a guard was added. -/
  guarded : Bool
  /-- A configuration that reaches the outer context was added. -/
  dips : Bool
  /-- The set belongs to the outermost invocation: nothing in it may reach further out. -/
  outermost : Bool
  conflict : Option Conflict

namespace ConfigContents

def empty : ConfigContents := ⟨[], none, false, false, false, none⟩

def size (s : ConfigContents) : Nat := s.configs.length

def isEmpty (s : ConfigContents) : Bool := s.configs.isEmpty

def get? (s : ConfigContents) (index : Nat) : Option Config := s.configs[index]?

/-- The alternative that stands for none. -/
def invalidAlt : Alternative := 0

def uniqueAltOrInvalid (s : ConfigContents) : Alternative :=
  s.uniqueAlt.getD invalidAlt

def conflicting? (s : ConfigContents) : Option Alternatives :=
  s.conflict.map (·.alternatives)

def isExactConflict (s : ConfigContents) : Bool :=
  s.conflict.any (·.exact)

/-- The alternatives in conflict, or else those of the configurations. -/
def represented (s : ConfigContents) : Alternatives :=
  s.conflicting?.getD (Alternatives.ofList (s.configs.map (·.alt)))

/-- The states of the configurations, each once, in ascending order. -/
def states (s : ConfigContents) : List StateId :=
  (s.configs.map (·.state)).eraseDups.mergeSort (· ≤ ·)

/-- Equality, contexts by value. Only the configurations, in order, the latch and the conflict
count. -/
def equal (s t : ConfigContents) : Bool :=
  s.outermost == t.outermost && s.conflict == t.conflict &&
    s.configs.isEqv t.configs Config.equal

/-- What a hash of a set is computed from. -/
structure Fingerprint where
  outermost : Bool
  conflict : Option Conflict
  configs : List Config.Fingerprint
deriving DecidableEq

def fingerprint (rule : DigestRule) (s : ConfigContents) : Fingerprint :=
  ⟨s.outermost, s.conflict, s.configs.map (Config.fingerprint rule)⟩

/-- The order of printing: by alternative, state and the text of the guard. -/
def printOrder (a b : Config × String) : Ordering :=
  ((compare a.1.alt b.1.alt).then (compare a.1.state b.1.state)).then (compare a.2 b.2)

/-- Configurations that the order does not tell apart stay in the order of insertion. -/
def sorted (s : ConfigContents) : List Config :=
  ((s.configs.map fun c => (c, c.guard.text)).mergeSort
    fun a b => (printOrder a b).isLE).map Prod.fst

def conflictText (c : Conflict) : String :=
  ",conflictingAlts=" ++ c.alternatives.text ++ (if c.exact then "" else "*")

def textWith (showContext : Bool) (s : ConfigContents) : String :=
  "[" ++ ", ".intercalate (s.sorted.map (Config.textWith showContext)) ++ "]" ++
    (if s.guarded then ",hasSemanticContext=true" else "") ++
    (s.uniqueAlt.elim "" fun alt => ",uniqueAlt=" ++ toString alt) ++
    (s.conflict.elim "" conflictText) ++
    (if s.dips then ",dipsIntoOuterContext" else "")

instance : ToString ConfigContents := ⟨textWith false⟩

@[simp] theorem get?_eq (s : ConfigContents) (index : Nat) : s.get? index = s.configs[index]? := rfl

@[simp] theorem size_eq (s : ConfigContents) : s.size = s.configs.length := rfl

theorem sorted_perm (s : ConfigContents) : s.sorted.Perm s.configs := by
  have order := (List.mergeSort_perm (s.configs.map fun c => (c, c.guard.text))
    fun a b => (printOrder a b).isLE).map Prod.fst
  simpa [sorted, Function.comp_def] using order

end ConfigContents

end Prediction
