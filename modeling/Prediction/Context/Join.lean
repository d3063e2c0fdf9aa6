import Prediction.Context.Build
import Prediction.Context.Cache

/-!
Joining contexts: one context that stands for the continuations of two. Paths through one return
state are joined by joining their parents, and a join that changes nothing gives back an operand
itself, the left one first.
-/

namespace Prediction

/-- What joins work with: where new nodes come from, and which joins were made before. -/
structure Joiner where
  supply : Supply
  cache : Context.Cache

namespace Context

/-- The paths of a join, and whether they are still those of either side. -/
structure Merge where
  paths : List Path
  isLeft : Bool
  isRight : Bool

/-- Merges the path `(k, p)` of the left side into the paths of the right side. The join of `p` with
a parent, and the merge of the left side's remaining paths, are given. -/
def mergePath (k : ReturnState) (p : Context)
    (joinParent : Context → Joiner → Context × Joiner)
    (mergeRest : List Path → Joiner → Merge × Joiner) :
    List Path → Joiner → Merge × Joiner
  | [], j =>
    let rest := mergeRest [] j
    (⟨(k, p) :: rest.1.paths, rest.1.isLeft, false⟩, rest.2)
  | (k', q) :: qs, j =>
    if k' < k then
      let rest := mergePath k p joinParent mergeRest qs j
      (⟨(k', q) :: rest.1.paths, false, rest.1.isRight⟩, rest.2)
    else if k = k' then
      let joined := joinParent q j
      let rest := mergeRest qs joined.2
      (⟨(k, joined.1) :: rest.1.paths, joined.1.equal p && rest.1.isLeft,
        joined.1.equal q && rest.1.isRight⟩, rest.2)
    else
      let rest := mergeRest ((k', q) :: qs) j
      (⟨(k, p) :: rest.1.paths, rest.1.isLeft, false⟩, rest.2)

/-- Answers a join from the memory if it is there, and remembers it otherwise. -/
def remember (compute : Joiner → Context × Joiner) (left right : Context) (j : Joiner) :
    Context × Joiner :=
  if j.cache.enabled then
    match j.cache.joins.lookup? left right with
    | some found =>
      (found.1, { j with cache := { j.cache with joins := found.2, hits := j.cache.hits + 1 } })
    | none =>
      let joined := compute { j with cache := { j.cache with misses := j.cache.misses + 1 } }
      let shared := joined.2.cache.share joined.1
      (shared.1, { joined.2 with
        cache := { shared.2 with joins := shared.2.joins.store left right shared.1 } })
  else compute j

/-- Join with the outermost context. -/
def joinOutermost (c : Context) (j : Joiner) : Context × Joiner :=
  let widened := c.addOutermost j.supply
  (widened.1, { j with supply := widened.2 })

mutual

/-- Equal contexts are joined by taking the left one, and the wildcard takes in every other
context. -/
def join : Context → Context → Joiner → Context × Joiner
  | left@(.outermostAt _), right, j =>
    if left.equal right then (left, j) else joinOutermost right j
  | left@(.wildcardAt _), _, j => (left, j)
  | left@(.node _ _ ps), right, j =>
    if left.equal right then (left, j)
    else match right with
      | .outermostAt _ => joinOutermost left j
      | .wildcardAt _ => (right, j)
      | .node _ _ qs =>
        let merged := mergeAll ps qs j
        if merged.1.isLeft then (left, merged.2)
        else if merged.1.isRight then (right, merged.2)
        else
          let built := ofPaths merged.1.paths merged.2.supply
          (built.1, { merged.2 with supply := built.2 })
termination_by structural left => left

/-- Merges two rows of paths in ascending order. Joins of parents go through the memory. -/
def mergeAll : List Path → List Path → Joiner → Merge × Joiner
  | [], qs, j => (⟨qs, qs.isEmpty, true⟩, j)
  | (k, p) :: ps, qs, j =>
    mergePath k p (fun q => remember (join p q) p q) (mergeAll ps) qs j
termination_by structural ps => ps

end

/-- The join of two contexts through the memory. -/
def cachedJoin (left right : Context) (j : Joiner) : Context × Joiner :=
  remember (left.join right) left right j

mutual

/-- Every continuation of the second context is one of the first. -/
def covers : Context → Context → Bool
  | .wildcardAt _, _ => true
  | .outermostAt _, b => b.isOutermost
  | a@(.node _ _ ps), b =>
    a.equal b || match b with
      | .outermostAt _ => a.hasOutermost
      | .wildcardAt _ => false
      | .node _ _ qs => coversPaths ps qs
termination_by structural a => a

/-- Every path of the second row is covered by the one with its return state in the first. -/
def coversPaths : List Path → List Path → Bool
  | _, [] => true
  | [], _ :: _ => false
  | (k, p) :: ps, (k', q) :: qs =>
    if k' < k then false
    else if k = k' then covers p q && coversPaths ps qs
    else coversPaths ps ((k', q) :: qs)
termination_by structural ps => ps

end

end Context

end Prediction
