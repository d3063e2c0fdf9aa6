import Prediction.Proofs.Network.HashConsing
import Prediction.Proofs.Session.Refinement

/-!
What a network hands out in the course of a program. All calls on it get their instances from one
table, be they made for a context or for the entries of a set, so that two nodes of one value are
one instance, however far apart the calls are. Empty contexts come out as they went in: they are one
instance only as long as nobody interns a copy along with the original.
-/

namespace Prediction

open Context

namespace ConfigSet

variable {known empties : Set Context} {cs : List Config} {n : Network} {supply : Supply}

theorem internAll_grows (coherent : Coherent supply known) (recorded : n.Sound known)
    (consed : n.interned.HashConsed empties) (contexts : ∀ c ∈ cs, c.context ∈ known)
    (within : ∀ c ∈ cs, c.context.EmptiesWithin empties) :
    n.Grows empties (internAll cs n supply).2.1 ∧
      ∀ c ∈ (internAll cs n supply).1,
        (internAll cs n supply).2.1.interned.Holds empties c.context := by
  induction cs generalizing n supply known with
  | nil => exact ⟨.refl consed, fun c present => absurd present List.not_mem_nil⟩
  | cons c cs ih =>
    obtain ⟨first, others⟩ := List.forall_mem_cons.mp contexts
    obtain ⟨firstWithin, othersWithin⟩ := List.forall_mem_cons.mp within
    obtain ⟨wider, included, coherent', recorded', -, -⟩ :=
      Network.intern_spec coherent recorded first
    obtain ⟨grows, held⟩ := Network.intern_grows coherent recorded consed first firstWithin
    obtain ⟨grows', held'⟩ := ih coherent' recorded' grows.consed
      (fun c' present => included (others c' present)) othersWithin
    exact ⟨grows.trans grows',
      List.forall_mem_cons.mpr ⟨held.mono grows'.entries, held'⟩⟩

theorem internAll_empty (cs : List Config) (n : Network) (supply : Supply) :
    ∀ call ∈ (cs.map (·.context)).zip ((internAll cs n supply).1.map (·.context)),
      call.1.isEmpty = true → call.2 = call.1 := by
  induction cs generalizing n supply with
  | nil => exact List.forall_mem_nil _
  | cons c cs ih =>
    refine List.forall_mem_cons.mpr ⟨fun isEmpty => ?_, ih _ _⟩
    exact congrArg Prod.fst (Network.intern_of_isEmpty isEmpty n supply)

end ConfigSet

namespace Session

/-- The calls of a command on a network: each argument with the instance that it was interned to. -/
def Command.interns (s : Session) (n : Nat) : Command → List (Context × Context)
  | .context _ (.intern c network) =>
    if network = n then
      [(s.contexts c, ((s.networks n).intern (s.contexts c) s.supply).1)]
    else []
  | .edit set (.internContexts network) =>
    if network = n then
      let interned := (s.sets set).internContexts (s.networks n) s.supply
      ((s.sets set).configs.map (·.context)).zip (interned.1.configs.map (·.context))
    else []
  | _ => []

/-- The calls of a program on a network, in order. -/
def interns (s : Session) (n : Nat) : List Command → List (Context × Context)
  | [] => []
  | command :: program => command.interns s n ++ (s.perform command).2.interns n program

/-- The command puts an empty network in the place of this one. -/
def Command.renews (n : Nat) : Command → Bool
  | .newNetwork network => network == n
  | _ => false

/-- How a command leaves a network. -/
inductive Use (s : Session) (n : Nat) : Command → Network → Prop
  | none {command : Command} : command.interns s n = [] → Use s n command (s.networks n)
  | renewed : Use s n (.newNetwork n) .empty
  | context (target c : Nat) :
      Use s n (.context target (.intern c n)) ((s.networks n).intern (s.contexts c) s.supply).2.1
  | entries (set : Nat) :
      Use s n (.edit set (.internContexts n))
        ((s.sets set).internContexts (s.networks n) s.supply).2.1

/-- Obtaining a context leaves the networks alone, unless it is interned. -/
theorem networks_obtain? {s later : Session} {recipe : Recipe} {c : Context}
    (other : ∀ c network, recipe ≠ .intern c network)
    (obtained : s.obtain? recipe = some (c, later)) : later.networks = s.networks := by
  cases recipe with
  | intern c network => exact absurd rfl (other c network)
  | ofParts parents ks =>
    simp only [obtain?] at obtained
    split at obtained
    · contradiction
    · obtain ⟨-, rfl⟩ := Prod.mk.inj (Option.some.inj obtained)
      rfl
  | parent c path =>
    simp only [obtain?] at obtained
    split at obtained
    · contradiction
    · obtain ⟨-, rfl⟩ := Prod.mk.inj (Option.some.inj obtained)
      rfl
  | entry set index =>
    obtain ⟨entry, -, same⟩ := Option.map_eq_some_iff.mp obtained
    obtain ⟨-, rfl⟩ := Prod.mk.inj same
    rfl
  | frozenEntry set index =>
    obtain ⟨entry, -, same⟩ := Option.map_eq_some_iff.mp obtained
    obtain ⟨-, rfl⟩ := Prod.mk.inj same
    rfl
  | _ =>
    obtain ⟨-, rfl⟩ := Prod.mk.inj (Option.some.inj obtained)
    rfl

theorem networks_context (s : Session) (target : Nat) {recipe : Recipe}
    (other : ∀ c network, recipe ≠ .intern c network) :
    (s.perform (.context target recipe)).2.networks = s.networks := by
  simp only [perform]
  split
  · rfl
  · rename_i obtained outcome
    have same : obtained.2.networks = s.networks := networks_obtain? other outcome
    exact same

theorem use_perform (s : Session) (n : Nat) (command : Command) :
    Use s n command ((s.perform command).2.networks n) := by
  cases command with
  | context target recipe =>
    cases recipe with
    | intern c network =>
      by_cases here : network = n
      · subst here
        have used : (s.perform (.context target (.intern c network))).2.networks network = _ :=
          Function.update_self _ _ _
        exact used ▸ .context target c
      · have same : (s.perform (.context target (.intern c network))).2.networks n = s.networks n :=
          Function.update_of_ne (Ne.symm here) _ _
        exact same ▸ .none (if_neg here)
    | _ =>
      rw [networks_context s target (by simp)]
      exact .none rfl
  | edit set call =>
    cases call with
    | internContexts network =>
      by_cases here : network = n
      · subst here
        have used : (s.perform (.edit set (.internContexts network))).2.networks network = _ :=
          Function.update_self _ _ _
        exact used ▸ .entries set
      · have same : (s.perform (.edit set (.internContexts network))).2.networks n = s.networks n :=
          Function.update_of_ne (Ne.symm here) _ _
        exact same ▸ .none (if_neg here)
    | add draft cache =>
      simp only [perform, performEdit]
      split <;> exact .none rfl
    | remove index =>
      simp only [perform, performEdit]
      split <;> exact .none rfl
    | setOutermost outermost =>
      simp only [perform, performEdit]
      split <;> exact .none rfl
    | _ => exact .none rfl
  | newNetwork network =>
    by_cases here : n = network
    · subst here
      have empty : (s.perform (.newNetwork n)).2.networks n = .empty := Function.update_self _ _ _
      exact empty ▸ .renewed
    · have same : (s.perform (.newNetwork network)).2.networks n = s.networks n :=
        Function.update_of_ne here _ _
      exact same ▸ .none rfl
  | thaw set target cache =>
    simp only [perform]
    split <;> exact .none rfl
  | _ => exact .none rfl

/-- The network delivered what was asked for, and it is on record. -/
structure Delivers (known empties : Set Context) (net : Network) (call : Context × Context) :
    Prop where
  argument : call.1 ∈ known
  value : call.2.tree = call.1.tree
  empty : call.1.isEmpty = true → call.2 = call.1
  held : net.interned.Holds empties call.2

variable {known wider empties : Set Context} {s : Session} {n : Nat} {command : Command}
  {net later : Network} {call : Context × Context}

theorem Delivers.mono (delivers : Delivers known empties net call) (included : known ⊆ wider)
    (grows : net.Grows empties later) : Delivers wider empties later call :=
  ⟨included delivers.argument, delivers.value, delivers.empty, delivers.held.mono grows.entries⟩

theorem delivers_entries {cs : List Config} {supply : Supply} (coherent : Coherent supply known)
    (sound : net.Sound known) (consed : net.interned.HashConsed empties)
    (contexts : ∀ c ∈ cs, c.context ∈ known) (within : ∀ c ∈ cs, c.context.EmptiesWithin empties) :
    ∀ call ∈ (cs.map (·.context)).zip
        ((ConfigSet.internAll cs net supply).1.map (·.context)),
      Delivers known empties (ConfigSet.internAll cs net supply).2.1 call := by
  obtain ⟨values, -⟩ := ConfigSet.internAll_spec coherent sound contexts
  obtain ⟨-, held⟩ := ConfigSet.internAll_grows coherent sound consed contexts within
  rintro ⟨asked, given⟩ listed
  have empty := ConfigSet.internAll_empty cs net supply _ listed
  obtain ⟨place, found⟩ := List.mem_iff_getElem?.mp listed
  obtain ⟨argument, result⟩ := List.getElem?_zip_eq_some.mp found
  rw [List.getElem?_map, Option.map_eq_some_iff] at argument result
  obtain ⟨c, present, rfl⟩ := argument
  obtain ⟨c', present', rfl⟩ := result
  have value : c'.value = c.value := by
    have same := congrArg (·[place]?) values
    simpa only [List.getElem?_map, present, present', Option.map_some, Option.some.injEq] using same
  have tree : c'.context.tree = c.context.tree := congrArg Config.Value.context value
  exact ⟨contexts c (List.mem_of_getElem? present), tree, empty,
    held c' (List.mem_of_getElem? present')⟩

/-- The entries of a set are interned in one go, and each of them is an argument. -/
theorem arguments_entries (sound : s.Sound known) (set n : Nat) :
    ((Command.edit set (.internContexts n)).interns s n).map Prod.fst =
      (s.sets set).configs.map (·.context) := by
  obtain ⟨values, -⟩ := ConfigSet.internAll_spec sound.coherent (sound.networks n) (sound.sets set)
  have length := congrArg List.length values
  simp only [List.length_map] at length
  simp only [Command.interns, if_true, ConfigSet.internContexts]
  exact List.map_fst_zip (by simp [length])

theorem Use.delivers (use : Use s n command net) (sound : s.Sound known)
    (consed : (s.networks n).interned.HashConsed empties) (kept : command.renews n = false)
    (within : ∀ call ∈ command.interns s n, call.1.EmptiesWithin empties) :
    (s.networks n).Grows empties net ∧
      ∀ call ∈ command.interns s n, Delivers known empties net call := by
  cases use with
  | none unused =>
    rw [unused]
    exact ⟨.refl consed, List.forall_mem_nil _⟩
  | renewed => simp [Command.renews] at kept
  | context target c =>
    simp only [Command.interns, if_true, List.forall_mem_singleton] at within ⊢
    obtain ⟨grows, held⟩ :=
      Network.intern_grows sound.coherent (sound.networks n) consed (sound.contexts c) within
    obtain ⟨wider, -, -, -, -, value⟩ :=
      Network.intern_spec sound.coherent (sound.networks n) (sound.contexts c)
    refine ⟨grows, sound.contexts c, value, fun isEmpty => ?_, held⟩
    exact congrArg Prod.fst (Network.intern_of_isEmpty isEmpty (s.networks n) s.supply)
  | entries set =>
    have entries : ∀ c ∈ (s.sets set).configs, c.context.EmptiesWithin empties := by
      intro c present
      have argument : c.context ∈ ((Command.edit set (.internContexts n)).interns s n).map
          Prod.fst := arguments_entries sound set n ▸ List.mem_map_of_mem present
      obtain ⟨call, listed, same⟩ := List.mem_map.mp argument
      exact same ▸ within call listed
    obtain ⟨grows, -⟩ := ConfigSet.internAll_grows sound.coherent (sound.networks n) consed
      (sound.sets set) entries
    refine ⟨grows, ?_⟩
    simp only [Command.interns, if_true]
    exact delivers_entries sound.coherent (sound.networks n) consed (sound.sets set) entries

/-- By induction on the program: what was delivered stays on record. -/
theorem delivers_run (sound : s.Sound known)
    (consed : (s.networks n).interned.HashConsed empties) (program : List Command)
    (kept : ∀ command ∈ program, command.renews n = false)
    (within : ∀ call ∈ s.interns n program, call.1.EmptiesWithin empties) :
    (s.networks n).Grows empties ((s.run program).2.networks n) ∧
      ∃ wider, known ⊆ wider ∧ Sound wider (s.run program).2 ∧
        ∀ call ∈ s.interns n program,
          Delivers wider empties ((s.run program).2.networks n) call := by
  induction program generalizing s known with
  | nil => exact ⟨.refl consed, known, subset_rfl, sound, List.forall_mem_nil _⟩
  | cons command program ih =>
    obtain ⟨first, others⟩ := List.forall_mem_cons.mp kept
    obtain ⟨firstWithin, othersWithin⟩ := List.forall_mem_append.mp within
    obtain ⟨-, -, middle, upward, sound'⟩ := perform_realizes sound command
    obtain ⟨grows, delivered⟩ :=
      (use_perform s n command).delivers sound consed first firstWithin
    obtain ⟨grows', wider, included, sound'', delivered'⟩ :=
      ih sound' grows.consed others othersWithin
    refine ⟨grows.trans grows', wider, upward.trans included, sound'',
      List.forall_mem_append.mpr ⟨?_, delivered'⟩⟩
    intro call listed
    exact (delivered call listed).mono (upward.trans included) grows'

theorem emptiesWithin_univ (c : Context) : c.EmptiesWithin Set.univ := fun d _ _ => Set.mem_univ d

theorem Use.consed (use : Use s n command net) (sound : s.Sound known)
    (consed : (s.networks n).interned.HashConsed Set.univ) :
    net.interned.HashConsed Set.univ := by
  cases kept : command.renews n with
  | false =>
    exact (use.delivers sound consed kept fun call _ => emptiesWithin_univ call.1).1.consed
  | true =>
    cases use with
    | renewed => exact Table.hashConsed_empty
    | none => exact consed
    | context => contradiction
    | entries => contradiction

theorem hashConsed_run (sound : s.Sound known)
    (consed : (s.networks n).interned.HashConsed Set.univ) (program : List Command) :
    ((s.run program).2.networks n).interned.HashConsed Set.univ := by
  induction program generalizing s known with
  | nil => exact consed
  | cons command program ih =>
    obtain ⟨-, -, wider, -, sound'⟩ := perform_realizes sound command
    exact ih sound' ((use_perform s n command).consed sound consed)

/-- What calls on a network come to: each result has the value of its argument, nodes of one value
are one instance, empty contexts are left as they are, and everything that a result reaches is
interned already. -/
structure HashConses (net : Network) (calls : List (Context × Context)) : Prop where
  value : ∀ call ∈ calls, call.2.tree = call.1.tree ∧ call.2.equal call.1 = true
  equal_iff : ∀ a ∈ calls, ∀ b ∈ calls, a.2.equal b.2 = true ↔ a.2.tree = b.2.tree
  nodes : ∀ a ∈ calls, ∀ b ∈ calls, a.2.isEmpty = false →
    (a.2.identical b.2 = true ↔ a.2.equal b.2 = true)
  empty : ∀ call ∈ calls, call.1.isEmpty = true → call.2 = call.1
  canonical : ∀ call ∈ calls, ∀ c, call.2.Reaches c → ∀ supply,
    net.intern c supply = (c, net, supply)

/-- Results of one value are one instance throughout exactly if no empty argument comes in two. -/
theorem HashConses.identical_iff {calls : List (Context × Context)}
    (conses : HashConses net calls) :
    (∀ a ∈ calls, ∀ b ∈ calls, a.2.identical b.2 = true ↔ a.2.equal b.2 = true) ↔
      EmptiesOnce {c | ∃ call ∈ calls, call.1 = c} := by
  have empty (call : Context × Context) (listed : call ∈ calls) :
      call.2.isEmpty = call.1.isEmpty := isEmpty_of_tree (conses.value call listed).1
  constructor
  · rintro identical _ ⟨a, left, rfl⟩ _ ⟨b, right, rfl⟩ isEmpty equal
    have isEmpty' := isEmpty_of_equal isEmpty equal
    have same := conses.empty a left isEmpty
    have same' := conses.empty b right isEmpty'
    exact same ▸ same' ▸ (identical a left b right).mpr (same.symm ▸ same'.symm ▸ equal)
  · intro once a left b right
    cases isEmpty : a.2.isEmpty with
    | false => exact conses.nodes a left b right isEmpty
    | true =>
      refine ⟨equal_of_identical, fun equal => ?_⟩
      have isEmpty' := isEmpty_of_equal isEmpty equal
      rw [empty a left] at isEmpty
      rw [empty b right] at isEmpty'
      rw [conses.empty a left isEmpty, conses.empty b right isEmpty'] at equal ⊢
      exact once a.1 ⟨a, left, rfl⟩ b.1 ⟨b, right, rfl⟩ isEmpty equal

/-- All calls on a network, in whatever order a program makes them, directly or for the entries of
sets, are hash-consed, as long as the network is not replaced and no empty context is interned in
two instances. -/
theorem interns_hashConses_iff_emptiesOnce (rule : DigestRule) (history program : List Command)
    (n : Nat) (kept : ∀ command ∈ program, command.renews n = false) :
    let s := reached rule history
    let calls := s.interns n program
    HashConses ((s.run program).2.networks n) calls ∧
      ((∀ a ∈ calls, ∀ b ∈ calls, a.2.identical b.2 = true ↔ a.2.equal b.2 = true) ↔
        EmptiesOnce {c | ∃ call ∈ calls, call.1 = c}) := by
  obtain ⟨known, sound⟩ := sound_reached rule history
  have consed := hashConsed_run (n := n) (sound_starting rule) Table.hashConsed_empty history
  obtain ⟨⟨consed', -⟩, wider, -, sound', delivered⟩ :=
    delivers_run sound consed program kept fun call _ => emptiesWithin_univ call.1
  intro s calls
  have recorded := sound'.networks n
  have results (call : Context × Context) (listed : call ∈ calls) : call.2 ∈ wider :=
    (delivered call listed).held.mem sound'.coherent recorded
  have equal_iff : ∀ a ∈ calls, ∀ b ∈ calls, a.2.equal b.2 = true ↔ a.2.tree = b.2.tree :=
    fun a left b right => sound'.coherent.equal_iff (results a left) (results b right)
  have conses : HashConses ((s.run program).2.networks n) calls := by
    refine ⟨?value, equal_iff, ?nodes, fun call listed => (delivered call listed).empty, ?canonical⟩
    case value =>
      intro call listed
      have same := (delivered call listed).value
      exact ⟨same, (sound'.coherent.equal_iff (results call listed)
        (delivered call listed).argument).mpr same⟩
    case nodes =>
      intro a left b right node
      refine ⟨equal_of_identical, fun equal => ?_⟩
      have same := consed'.eq_of_tree (delivered a left).held (delivered b right).held node
        ((equal_iff a left b right).mp equal)
      rw [same]
      exact identical_self b.2
    case canonical =>
      intro call listed c reaches supply
      exact Network.intern_of_held sound'.coherent recorded consed'
        (consed'.reaches (delivered call listed).held reaches) supply
  exact ⟨conses, conses.identical_iff⟩

/-- Two stacks with the same callers, each built from the start. The first is interned by itself,
and then both are, as contexts of entries. -/
def sharedCallers : List Command :=
  [.context 0 (.push 9 7), .context 1 (.push 0 4), .context 2 (.push 9 7), .context 3 (.push 2 5),
    .context 4 (.intern 1 0), .edit 0 (.add ⟨5, 1, 3, .always, 0, false, false, false⟩ 0),
    .edit 0 (.add ⟨6, 1, 1, .always, 0, false, false, false⟩ 0), .edit 0 (.internContexts 0)]

theorem interns_hashConses_sharedCallers :
    let s := reached .sha256 [.newNetwork 0]
    let calls := s.interns 0 sharedCallers
    (∀ command ∈ sharedCallers, command.renews 0 = false) ∧ calls.length = 3 ∧
      HashConses ((s.run sharedCallers).2.networks 0) calls ∧
      ((∀ a ∈ calls, ∀ b ∈ calls, a.2.identical b.2 = true ↔ a.2.equal b.2 = true) ↔
        EmptiesOnce {c | ∃ call ∈ calls, call.1 = c}) := by
  have kept : ∀ command ∈ sharedCallers, command.renews 0 = false := by decide
  exact ⟨kept, rfl,
    interns_hashConses_iff_emptiesOnce .sha256 [.newNetwork 0] sharedCallers 0 kept⟩

/-- The outermost context and a copy of it are both interned. -/
def copiedEnd : List Command :=
  [.context 1 (.copy 0), .context 2 (.intern 0 0), .context 3 (.intern 1 0)]

/-- They are equal and come out as two instances. -/
theorem not_identical_copiedEnd :
    let s := reached .sha256 [.newNetwork 0]
    (∀ command ∈ copiedEnd, command.renews 0 = false) ∧
      ∃ a ∈ s.interns 0 copiedEnd, ∃ b ∈ s.interns 0 copiedEnd,
        a.2.equal b.2 = true ∧ a.2.identical b.2 = false := by
  decide +kernel

end Session

end Prediction
