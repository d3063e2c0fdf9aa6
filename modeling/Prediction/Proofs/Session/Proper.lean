import Prediction.Proofs.ConfigSet.Records
import Prediction.Proofs.Session.Reach
import Prediction.Proofs.Session.Unfolding

/-!
The mark of the outermost context. It is put over the outermost context by everything but the
building of a context from its parts; so if a client does the same there, the mark is over nothing
else in any context.
-/

namespace Prediction

open Session (Command Recipe Edit Draft)

namespace Tree

variable {ps : List Branch} {t : Tree}

/-- What makes a list of branches proper. -/
def ProperRow (ps : List Branch) : Prop :=
  ∀ path ∈ ps, (path.1 = outermostKey → path.2 = .outermost) ∧ path.2.Proper

theorem ProperRow.node (proper : ProperRow ps) : Proper (.node ps) :=
  .node (fun path inRow => (proper path inRow).1) fun path inRow => (proper path inRow).2

theorem proper_push (proper : t.Proper) (k : ReturnState) : (t.push k).Proper := by
  unfold push
  split
  · exact .outermost
  · rename_i regular
    exact ProperRow.node (List.forall_mem_singleton.mpr ⟨fun mark => absurd mark regular, proper⟩)

theorem ProperRow.ofPaths (proper : ProperRow ps) : (ofPaths ps).Proper := by
  match ps with
  | [] => exact .outermost
  | [(k, p)] => exact proper_push (proper (k, p) List.mem_cons_self).2 k
  | _ :: _ :: _ => exact proper.node

theorem Proper.branch (proper : t.Proper) {path : Branch} (inRow : path ∈ t.branches) :
    path.2.Proper := by
  cases t with
  | node ps => exact proper.parent inRow
  | _ => contradiction

end Tree

theorem LinearSet.proper_of_nil {s : LinearSet} (none : s.entries = []) : s.Proper :=
  fun _ listed => absurd (none ▸ listed) List.not_mem_nil

namespace LinearSession

/-- The mark is put over nothing but the outermost context. -/
def Marks (s : LinearSession) : Command → Prop
  | .context _ (.ofParts parents ks) =>
    ∀ path ∈ ks.zip (parents.map s.contexts), path.1 = outermostKey → path.2 = .outermost
  | _ => True

structure Proper (s : LinearSession) : Prop where
  contexts : ∀ i, (s.contexts i).Proper
  all : s.All LinearSet.Proper

variable {s : LinearSession} {t : Tree} {recipe : Recipe} {target i : Nat} {call : Edit}

theorem proper_starting : starting.Proper :=
  have empty := LinearSet.proper_of_nil (s := .empty) rfl
  ⟨fun _ => .outermost, fun _ => empty, fun _ => empty⟩

theorem Proper.obtain? (proper : s.Proper) (marks : s.Marks (.context target recipe))
    (obtained : s.obtain? recipe = some t) : t.Proper := by
  have entry {set : LinearSet} {index : Nat} (all : set.Proper)
      (found : set.entries[index]?.map (·.context) = some t) : t.Proper := by
    obtain ⟨c, present, rfl⟩ := Option.map_eq_some_iff.mp found
    exact all c (List.mem_of_getElem? present)
  cases recipe with
  | outermost => exact Option.some.inj obtained ▸ .outermost
  | wildcard => exact Option.some.inj obtained ▸ .wildcard
  | copy c => exact Option.some.inj obtained ▸ proper.contexts c
  | push below k => exact Option.some.inj obtained ▸ Tree.proper_push (proper.contexts below) k
  | ofParts parents ks =>
    simp only [LinearSession.obtain?] at obtained
    split at obtained
    · refine Option.some.inj obtained ▸ Tree.ProperRow.ofPaths fun path inRow => ?_
      refine ⟨marks path inRow, ?_⟩
      obtain ⟨below, -, parent⟩ := List.mem_map.mp (List.of_mem_zip inRow).2
      exact parent ▸ proper.contexts below
    · contradiction
  | addOutermost c => exact Option.some.inj obtained ▸ Tree.proper_addOutermost (proper.contexts c)
  | parent c index =>
    obtain ⟨path, inRow, rfl⟩ := Option.map_eq_some_iff.mp obtained
    exact (proper.contexts c).branch (List.mem_of_getElem? inRow)
  | join left right cache =>
    exact Option.some.inj obtained ▸
      Tree.proper_join (proper.contexts left) (proper.contexts right)
  | cachedJoin left right cache =>
    exact Option.some.inj obtained ▸
      Tree.proper_join (proper.contexts left) (proper.contexts right)
  | share c cache => exact Option.some.inj obtained ▸ proper.contexts c
  | intern c network => exact Option.some.inj obtained ▸ proper.contexts c
  | entry set index => exact entry (proper.all.sets set) obtained
  | frozenEntry set index => exact entry (proper.all.frozen set) obtained

theorem contexts_performEdit (s : LinearSession) (i : Nat) (call : Edit) :
    (s.performEdit i call).2.contexts = s.contexts := by
  cases call <;> simp only [performEdit]
  all_goals
    try split
    all_goals rfl

/-- Everything else leaves the contexts as they are. -/
theorem Proper.contexts_perform (proper : s.Proper) {command : Command} (marks : s.Marks command)
    (i : Nat) : ((s.perform command).2.contexts i).Proper := by
  cases command with
  | context target recipe =>
    simp only [perform]
    cases obtained : s.obtain? recipe with
    | none => exact proper.contexts i
    | some t =>
      exact (Function.forall_update_iff s.contexts fun _ t => t.Proper).mpr
        ⟨proper.obtain? marks obtained, fun i _ => proper.contexts i⟩ i
  | edit set call =>
    simp only [perform, contexts_performEdit]
    exact proper.contexts i
  | thaw set target cache =>
    simp only [perform]
    split <;> exact proper.contexts i
  | _ => exact proper.contexts i

/-- One configuration is added as a list of one is. -/
theorem sets_performEdit_addition {drafts : List Draft} {cache : Nat} (s : LinearSession) (i : Nat)
    (adds : call.addition? = some (drafts, cache)) :
    (s.performEdit i call).2.sets i = ((s.sets i).addAll (drafts.map s.draft)).2 := by
  cases call with
  | add draft cache =>
    obtain ⟨rfl, rfl⟩ := Prod.mk.inj (Option.some.inj adds)
    simp only [performEdit, List.map_cons, List.map_nil, LinearSet.addAll]
    cases (s.sets i).add (s.draft draft) with
    | error refusal => rfl
    | ok step => exact Function.update_self _ _ _
  | addAll drafts cache =>
    obtain ⟨rfl, rfl⟩ := Prod.mk.inj (Option.some.inj adds)
    exact Function.update_self _ _ _
  | _ => contradiction

theorem proper_addAll {set : LinearSet} {cs : List Config.Value} (proper : set.Proper)
    (all : ∀ c ∈ cs, c.context.Proper) : (set.addAll cs).2.Proper := by
  rw [LinearSet.addAll_eq_insertAll]
  exact proper.insertAll fun c listed => all c (List.takeWhile_sublist _ |>.subset listed)

theorem Proper.performEdit (proper : s.Proper) (i : Nat) (call : Edit) :
    ((s.performEdit i call).2.sets i).Proper := by
  cases adds : call.addition? with
  | none =>
    exact fun entry listed =>
      proper.all.sets i entry (Session.entries_performEdit_subset s i adds listed)
  | some addition =>
    obtain ⟨drafts, cache⟩ := addition
    rw [sets_performEdit_addition s i adds]
    exact proper_addAll (proper.all.sets i)
      (List.forall_mem_map.mpr fun draft _ => proper.contexts draft.context)

theorem Proper.perform (proper : s.Proper) {command : Command} (marks : s.Marks command) :
    (s.perform command).2.Proper := by
  refine ⟨proper.contexts_perform marks, ?sets, ?frozen⟩
  case sets =>
    intro i
    apply sets_perform proper.all.sets
    · exact LinearSet.proper_of_nil rfl
    · intro i later thawed
      rw [LinearSet.eq_of_thaw thawed]
      exact proper_addAll (LinearSet.proper_of_nil rfl) (proper.all.frozen i)
    · exact fun target call _ => proper.performEdit target call
  case frozen =>
    intro i
    rcases frozen_perform s command i with same | ⟨set, now⟩
    · exact same ▸ proper.all.frozen i
    · exact now ▸ proper.all.sets set

end LinearSession

namespace Session

variable {known : Set Context} {s : Session} {c : Context}

/-- The command puts the mark over nothing but the outermost context. -/
def Command.Marks (s : Session) : Command → Prop
  | .context _ (.ofParts parents ks) =>
    ∀ path ∈ ks.zip (parents.map s.contexts), path.1 = outermostKey → path.2.isOutermost = true
  | _ => True

/-- All commands of the program do so. -/
def MarksOutermost (s : Session) : List Command → Prop
  | [] => True
  | command :: program => command.Marks s ∧ (s.perform command).2.MarksOutermost program

theorem marks_linear {command : Command} (marks : command.Marks s) : s.linear.Marks command := by
  cases command with
  | context target recipe =>
    cases recipe with
    | ofParts parents ks =>
      have rows : ks.zip (parents.map s.linear.contexts) =
          (ks.zip (parents.map s.contexts)).map (Prod.map id Context.tree) := by
        rw [← List.zip_map_right, List.map_map]
        rfl
      intro branch inRow mark
      rw [rows] at inRow
      obtain ⟨path, listed, rfl⟩ := List.mem_map.mp inRow
      exact Context.isOutermost_iff_tree.mp (marks path listed mark)
    | _ => trivial
  | _ => trivial

/-- By induction on the program. -/
theorem proper_run (sound : s.Sound known) (proper : s.linear.Proper) {program : List Command}
    (marks : s.MarksOutermost program) : (s.run program).2.linear.Proper := by
  induction program generalizing s known with
  | nil => exact proper
  | cons command program ih =>
    obtain ⟨-, later, wider, -, sound'⟩ := perform_realizes sound command
    have proper' : (s.perform command).2.linear.Proper :=
      later ▸ proper.perform (marks_linear marks.1)
    exact ih sound' proper' marks.2

/-- What a client can get hold of is in a register or in a set. -/
theorem proper_of_obtainable (proper : s.linear.Proper) (obtained : s.Obtainable c) : c.Proper := by
  obtain ⟨held, holds, reaches⟩ := obtained
  have top : held.Proper := by
    cases holds with
    | context i => exact proper.contexts i
    | entry i present => exact proper.all.sets i _ (List.mem_map_of_mem present)
    | frozenEntry i present => exact proper.all.frozen i _ (List.mem_map_of_mem present)
  clear holds
  induction reaches with
  | self => exact top
  | @parent above _ path inRow _ ih =>
    refine ih ?_
    cases above with
    | node l d ps => exact Tree.Proper.parent top (Context.mem_treePaths.mpr ⟨path, inRow, rfl⟩)
    | _ => contradiction

end Session

end Prediction
