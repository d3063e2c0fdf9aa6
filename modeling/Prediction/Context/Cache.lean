import Prediction.Context.JoinMemo
import Prediction.Context.Table

/-!
A cache of joins: a memory of recent joins, and one canonical instance for each result. A disabled
cache stays empty.
-/

namespace Prediction.Context

structure Cache where
  enabled : Bool
  joins : JoinMemo
  canonical : Table
  hits : Nat
  misses : Nat

namespace Cache

def new (enabled : Bool) (capacity : Nat) : Cache :=
  ⟨enabled, .empty capacity, .empty, 0, 0⟩

/-- How many joins a cache remembers unless told otherwise. -/
def usualCapacity : Nat := 4096

def usual : Cache := new true usualCapacity

def disabled : Cache := new false 0

/-- The instance that stands for the value of a context. -/
def share (cache : Cache) (c : Context) : Context × Cache :=
  if cache.enabled then
    let found := cache.canonical.canonical c
    (found.1, { cache with canonical := found.2 })
  else (c, cache)

/-- Forget everything, counts included. -/
def clear (cache : Cache) : Cache :=
  new cache.enabled cache.joins.capacity

/-- Number of canonical instances. -/
def size (cache : Cache) : Nat := cache.canonical.size

def isEmpty (cache : Cache) : Bool := cache.canonical.entries.isEmpty

/-- Number of joins on record. -/
def joinCount (cache : Cache) : Nat := cache.joins.size

def text (cache : Cache) : String :=
  "PredictionContextCache \x7b enabled: " ++ toString cache.enabled ++
    ", contexts: " ++ toString cache.size ++ ", joins: " ++ toString cache.joinCount ++
    ", hits: " ++ toString cache.hits ++ ", misses: " ++ toString cache.misses ++ " \x7d"

instance : ToString Cache := ⟨text⟩

@[simp] theorem share_disabled {cache : Cache} (h : cache.enabled = false) (c : Context) :
    cache.share c = (c, cache) := by
  simp [share, h]

@[simp] theorem enabled_share (cache : Cache) (c : Context) :
    (cache.share c).2.enabled = cache.enabled := by
  unfold share
  split <;> simp_all

end Cache

end Prediction.Context
