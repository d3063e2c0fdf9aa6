import Prediction.Proofs.Network.Counting
import Prediction.Proofs.Session.Interning

/-!
How much a network holds. A program's calls put on record every node value that occurs in their
arguments, once each and nothing else, and hand out instances in which no value of a node is
repeated. Copies of empty contexts are not sorted out: only without them there is nothing repeated
at all.
-/

namespace Prediction

open Context

namespace ConfigSet

variable {known : Set Context} {cs : List Config} {n : Network} {supply : Supply}

theorem internAll_adds (coherent : Coherent supply known) (recorded : n.Sound known)
    (contexts : ∀ c ∈ cs, c.context ∈ known) :
    Table.Adds (cs.flatMap fun c => c.context.tree.subtrees) n.interned
      (internAll cs n supply).2.1.interned := by
  induction cs generalizing n supply known with
  | nil => exact .refl _ _
  | cons c cs ih =>
    obtain ⟨first, others⟩ := List.forall_mem_cons.mp contexts
    obtain ⟨wider, included, coherent', recorded', -, -⟩ :=
      Network.intern_spec coherent recorded first
    exact (Network.intern_adds coherent recorded first).append
      (ih coherent' recorded' fun c' present => included (others c' present))

end ConfigSet

namespace Session

/-- The values in the arguments of calls on a network, with repetitions. -/
def occurring (calls : List (Context × Context)) : List Tree :=
  (calls.map Prod.fst).flatMap fun c => c.tree.subtrees

theorem occurring_append (calls others : List (Context × Context)) :
    occurring (calls ++ others) = occurring calls ++ occurring others := by
  rw [occurring, List.map_append, List.flatMap_append]
  rfl

theorem mem_occurring {calls : List (Context × Context)} {t : Tree} :
    t ∈ occurring calls ↔ ∃ call ∈ calls, t ∈ call.1.tree.subtrees := by
  simp [occurring, List.mem_flatMap]

variable {known : Set Context} {s : Session} {n : Nat} {command : Command} {net : Network}

theorem Use.adds (use : Use s n command net) (sound : s.Sound known)
    (kept : command.renews n = false) :
    Table.Adds (occurring (command.interns s n)) (s.networks n).interned net.interned := by
  cases use with
  | none unused => exact .refl _ _
  | renewed => simp [Command.renews] at kept
  | context target c =>
    have argument : (s.contexts c).tree.subtrees ⊆
        occurring ((Command.context target (.intern c n)).interns s n) := fun t occurs =>
      mem_occurring.mpr
        ⟨(s.contexts c, ((s.networks n).intern (s.contexts c) s.supply).1),
          by simp [Command.interns], occurs⟩
    exact (Network.intern_adds sound.coherent (sound.networks n) (sound.contexts c)).mono argument
  | entries set =>
    rw [occurring, arguments_entries sound, List.flatMap_map]
    exact ConfigSet.internAll_adds sound.coherent (sound.networks n) (sound.sets set)

/-- By induction on the program. -/
theorem adds_run (sound : s.Sound known) (program : List Command)
    (kept : ∀ command ∈ program, command.renews n = false) :
    Table.Adds (occurring (s.interns n program)) (s.networks n).interned
      ((s.run program).2.networks n).interned := by
  induction program generalizing s known with
  | nil => exact .refl _ _
  | cons command program ih =>
    obtain ⟨first, others⟩ := List.forall_mem_cons.mp kept
    obtain ⟨-, -, wider, -, sound'⟩ := perform_realizes sound command
    rw [interns, occurring_append]
    exact ((use_perform s n command).adds sound first).append (ih sound' others)

/-- Every value in the arguments of calls has an instance that is on record or empty. -/
theorem holds_of_occurring {empties : Set Context} {calls : List (Context × Context)}
    (consed : net.interned.HashConsed empties)
    (delivered : ∀ call ∈ calls, Delivers known empties net call) {t : Tree}
    (occurs : t ∈ occurring calls) : ∃ c, net.interned.Holds empties c ∧ c.tree = t := by
  obtain ⟨call, listed, below⟩ := mem_occurring.mp occurs
  rw [← (delivered call listed).value] at below
  obtain ⟨c, reaches, value⟩ := (mem_subtrees_iff call.2).mp below
  exact ⟨c, consed.reaches (delivered call listed).held reaches, value⟩

/-- What calls on a network that was empty come to, in numbers. On record are the node values that
occur in their arguments. A result has one node for each value in it, and no more of them than its
argument, exactly if it has no copies of empty contexts; it has none if the arguments have none. -/
structure Counts (net : Network) (calls : List (Context × Context)) : Prop where
  interned : net.internedCount = ((occurring calls).filter Tree.isNode).eraseDups.length
  nodes_iff : ∀ call ∈ calls,
    (call.2.nodeCount = call.2.tree.subtrees.eraseDups.length ∧
      call.2.nodeCount ≤ call.1.nodeCount) ↔ EmptiesOnce {c | call.2.Reaches c}
  once : EmptiesOnce {c | ∃ call ∈ calls, call.1.Reaches c} →
    ∀ call ∈ calls, EmptiesOnce {c | call.2.Reaches c}

/-- A network shares as much as there is to share, whatever calls a program makes on it since it was
new, but for copies of empty contexts. -/
theorem interns_counted_iff_emptiesOnce (rule : DigestRule) (history program : List Command)
    (n : Nat) (kept : ∀ command ∈ program, command.renews n = false) :
    let s := ((reached rule history).perform (.newNetwork n)).2
    Counts ((s.run program).2.networks n) (s.interns n program) := by
  obtain ⟨before, start⟩ := sound_reached rule history
  obtain ⟨-, -, known, -, sound⟩ := perform_realizes start (.newNetwork n)
  intro s
  have empty : (s.networks n).interned = .empty := by
    have new : s.networks n = .empty := Function.update_self _ _ _
    rw [new]
    rfl
  have adds := adds_run sound program kept
  -- The only empty contexts that the network can hand out are those of the arguments.
  have start : (s.networks n).interned.HashConsed
      {c | ∃ call ∈ s.interns n program, call.1.Reaches c} := empty ▸ Table.hashConsed_empty
  obtain ⟨⟨consed, -⟩, wider, -, sound', delivered⟩ := delivers_run sound start program kept
    fun call listed d reaches _ => ⟨call, listed, reaches⟩
  rw [empty] at adds
  have recorded := sound'.networks n
  refine ⟨Network.internedCount_eq adds fun t occurs => holds_of_occurring consed delivered occurs,
    ?nodes, ?once⟩
  case nodes =>
    intro call listed
    have delivers := delivered call listed
    have exact_iff :=
      Network.nodeCount_of_held_iff sound'.coherent recorded consed delivers.held
    refine ⟨fun counted => exact_iff.mp counted.1, fun once => ?_⟩
    have counted := exact_iff.mpr once
    refine ⟨counted, ?_⟩
    rw [counted, delivers.value]
    exact distinct_le_nodeCount sound'.coherent delivers.argument
  case once =>
    intro once call listed
    refine once.mono fun c reaches isEmpty => ?_
    exact consed.mem_empties (consed.reaches (delivered call listed).held reaches) isEmpty

/-- Three nodes are on record after the calls on the stacks with the same callers, and the second
stack, which was built from the start, comes out over the callers of the first. -/
theorem interns_counted_sharedCallers :
    (∀ command ∈ sharedCallers, command.renews 0 = false) ∧
      ((((reached .sha256 []).perform (.newNetwork 0)).2.run sharedCallers).2.networks
        0).internedCount = 3 ∧
      Counts ((((reached .sha256 []).perform (.newNetwork 0)).2.run sharedCallers).2.networks 0)
        (((reached .sha256 []).perform (.newNetwork 0)).2.interns 0 sharedCallers) := by
  have kept : ∀ command ∈ sharedCallers, command.renews 0 = false := by decide
  exact ⟨kept, by decide +kernel,
    interns_counted_iff_emptiesOnce .sha256 [] sharedCallers 0 kept⟩

/-- A caller over the outermost context is interned, and then the same caller over a copy, together
with the copy itself. -/
def copiedCaller : List Command :=
  [.context 1 (.copy 0), .context 2 (.push 0 7), .context 3 (.intern 2 0), .context 4 (.push 1 7),
    .context 5 (.ofParts [4, 1] [1, 2]), .context 6 (.intern 5 0)]

/-- The caller is replaced by the one on record and the copy stays, so that there are four nodes for
three values, one more than in the argument. -/
theorem nodeCount_copiedCaller :
    let s := ((reached .sha256 []).perform (.newNetwork 0)).2
    (∀ command ∈ copiedCaller, command.renews 0 = false) ∧
      ∃ call ∈ s.interns 0 copiedCaller, call.2.nodeCount = 4 ∧ call.1.nodeCount = 3 ∧
        call.2.tree.subtrees.eraseDups.length = 3 := by
  decide +kernel

end Session

end Prediction
