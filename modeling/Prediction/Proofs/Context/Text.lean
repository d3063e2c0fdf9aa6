import Prediction.Proofs.ConfigSet.View
import Prediction.Proofs.Context.Stacks

/-!
Reading contexts back from their texts. A context ends where nothing, a comma or a closing bracket
follows, and a number ends where no digit follows. So the text of a context in proper form tells
which context it is, and where it ends if the text goes on.
-/

namespace Prediction.Context

/-- What may follow a context in a text. -/
def Ends (rest : List Char) : Prop := ∀ c, rest.head? = some c → c = ',' ∨ c = ']'

/-- A context in proper form whose nodes have rows of paths. -/
structure Legible (c : Context) : Prop where
  canonical : c.tree.Canonical
  proper : c.Proper

/-- A path as a legible context may have it. -/
structure LegiblePath (path : Path) : Prop where
  marked : path.1 = outermostKey → path.2.tree = .outermost
  parent : path.2.Legible

/-- The text tells the context from all others, and where it ends. -/
def Readable (a : Context) : Prop :=
  ∀ (b : Context) (rest rest' : List Char), b.Legible → Ends rest → Ends rest' →
    a.text.toList ++ rest = b.text.toList ++ rest' → a.tree = b.tree ∧ rest = rest'

/-- The characters of one path. -/
def written (path : Path) : List Char := (pathText path.1 path.2 path.2.text).toList

/-- The characters after the first one of several paths. -/
def closing : List Path → List Char
  | [] => [']']
  | path :: ps => ',' :: ' ' :: (written path ++ closing ps)

/-- The characters after the return state of a path. -/
def onward (parent : Context) : List Char :=
  if parent.isOutermost then [] else ' ' :: parent.text.toList

/-- Contexts by the character that their texts begin with. -/
inductive Shape where
  | outermost
  | wildcard
  | stack
  | row
deriving DecidableEq

def shape : Context → Shape
  | .outermostAt _ => .outermost
  | .wildcardAt _ => .wildcard
  | .node _ _ ps => if ps.length = 1 then .stack else .row

def Shape.ofChar (c : Char) : Shape :=
  if c = '$' then .outermost
  else if c = '*' then .wildcard
  else if c = '[' then .row
  else .stack

variable {l : Label} {d : Digest} {k k' : ReturnState} {a b p q : Context} {path other : Path}
  {ps qs : List Path} {rest rest' : List Char}

theorem ends_nil : Ends [] := by simp [Ends]

theorem ends_closing (ps : List Path) (rest : List Char) : Ends (closing ps ++ rest) := by
  cases ps <;> simp [closing, Ends]

theorem Legible.ofPath (legible : (node l d ps).Legible) (inRow : path ∈ ps) :
    LegiblePath path := by
  have listed : (path.1, path.2.tree) ∈ treePaths ps := mem_treePaths.mpr ⟨path, inRow, rfl⟩
  exact ⟨legible.proper.marked listed, legible.canonical.parent listed,
    legible.proper.parent listed⟩

theorem Legible.row (legible : (node l d ps).Legible) : Tree.Row (ps.map (·.1)) := by
  have row := legible.canonical.row
  rwa [keys_treePaths] at row

theorem toList_number (k : ReturnState) : (toString k).toList = Nat.toDigits 10 k.toNat :=
  Nat.toList_repr

theorem isDigit_of_mem_number {c : Char} (present : c ∈ (toString k).toList) :
    c.isDigit = true := by
  rw [toList_number] at present
  exact Nat.isDigit_of_mem_toDigits (by decide) (by decide) present

/-- A number is read up to the first character that is no digit. -/
theorem number_inj (stop : ∀ c, rest.head? = some c → c.isDigit = false)
    (stop' : ∀ c, rest'.head? = some c → c.isDigit = false)
    (same : (toString k).toList ++ rest = (toString k').toList ++ rest') :
    k = k' ∧ rest = rest' := by
  have none {rest : List Char} (stop : ∀ c, rest.head? = some c → c.isDigit = false) :
      rest.takeWhile Char.isDigit = [] := by
    cases rest with
    | nil => rfl
    | cons c rest => simp [stop c rfl]
  have taken := congrArg (List.takeWhile Char.isDigit) same
  rw [List.takeWhile_append_of_pos fun c => isDigit_of_mem_number,
    List.takeWhile_append_of_pos fun c => isDigit_of_mem_number, none stop, none stop',
    List.append_nil, List.append_nil] at taken
  have numbers := congrArg (fun digits => Nat.ofDigitChars 10 digits 0) taken
  simp only [toList_number, Nat.ofDigitChars_toDigits (show 1 < 10 by decide) (Nat.le_refl 10)]
    at numbers
  rw [taken] at same
  exact ⟨UInt32.toNat_inj.mp numbers, List.append_cancel_left same⟩

theorem written_marked (marked : path.1 = outermostKey) : written path = ['$'] := by
  simp [written, pathText, marked]

theorem written_regular (regular : path.1 ≠ outermostKey) :
    written path = (toString path.1).toList ++ onward path.2 := by
  rw [written, pathText, if_neg regular, onward]
  split <;> simp [String.toList_append]

theorem exists_digit (regular : path.1 ≠ outermostKey) :
    ∃ c cs, written path = c :: cs ∧ c.isDigit = true := by
  have some : (toString path.1).toList ≠ [] := by
    rw [toList_number]
    exact Nat.toDigits_ne_nil
  obtain ⟨c, cs, split⟩ := List.exists_cons_of_ne_nil some
  refine ⟨c, cs ++ onward path.2, ?_, isDigit_of_mem_number (split ▸ List.mem_cons_self)⟩
  rw [written_regular regular, split, List.cons_append]

/-- No digit follows a return state. -/
theorem stops_onward (ends : Ends rest) :
    ∀ c, (onward p ++ rest).head? = some c → c.isDigit = false := by
  intro c head
  unfold onward at head
  split at head
  · rcases ends c head with rfl | rfl <;> rfl
  · obtain rfl := Option.some.inj head
    rfl

theorem onward_inj (readable : p.Readable) (legible : q.Legible) (ends : Ends rest)
    (ends' : Ends rest') (same : onward p ++ rest = onward q ++ rest') :
    p.tree = q.tree ∧ rest = rest' := by
  have noBlank {rest cs : List Char} (ends : Ends rest) : rest ≠ ' ' :: cs := by
    rintro rfl
    simpa using ends ' ' rfl
  unfold onward at same
  split at same <;> split at same
  · rename_i left right
    rw [isOutermost_iff_tree.mp left, isOutermost_iff_tree.mp right]
    exact ⟨rfl, same⟩
  · exact absurd same (noBlank ends)
  · exact absurd same.symm (noBlank ends')
  · exact readable q rest rest' legible ends ends' (List.cons.inj same).2

theorem written_inj (readable : path.2.Readable) (legible : LegiblePath path)
    (legible' : LegiblePath other) (ends : Ends rest) (ends' : Ends rest')
    (same : written path ++ rest = written other ++ rest') :
    (path.1, path.2.tree) = (other.1, other.2.tree) ∧ rest = rest' := by
  have differ {path : Path} {cs : List Char} (regular : path.1 ≠ outermostKey) :
      written path ++ cs ≠ '$' :: rest ∧ written path ++ cs ≠ '$' :: rest' := by
    obtain ⟨c, cs, split, digit⟩ := exists_digit regular
    constructor <;>
    · rw [split, List.cons_append]
      rintro ⟨⟩
      contradiction
  by_cases marked : path.1 = outermostKey <;> by_cases marked' : other.1 = outermostKey
  · rw [written_marked marked, written_marked marked'] at same
    refine ⟨?_, (List.cons.inj same).2⟩
    rw [marked, marked', legible.marked marked, legible'.marked marked']
  · rw [written_marked marked] at same
    exact absurd same.symm (differ marked').1
  · rw [written_marked marked'] at same
    exact absurd same (differ marked).2
  · rw [written_regular marked, written_regular marked', List.append_assoc, List.append_assoc]
      at same
    obtain ⟨keys, onwards⟩ := number_inj (stops_onward ends) (stops_onward ends') same
    obtain ⟨parents, rests⟩ := onward_inj readable legible'.parent ends ends' onwards
    exact ⟨Prod.ext keys parents, rests⟩

theorem closing_inj (readable : ∀ path ∈ ps, path.2.Readable)
    (legible : ∀ path ∈ ps, LegiblePath path) (legible' : ∀ path ∈ qs, LegiblePath path)
    (same : closing ps ++ rest = closing qs ++ rest') :
    treePaths ps = treePaths qs ∧ rest = rest' := by
  induction ps generalizing qs with
  | nil =>
    cases qs with
    | nil => exact ⟨rfl, (List.cons.inj same).2⟩
    | cons other qs => simp [closing] at same
  | cons path ps ih =>
    cases qs with
    | nil => simp [closing] at same
    | cons other qs =>
      obtain ⟨readFirst, readOthers⟩ := List.forall_mem_cons.mp readable
      obtain ⟨first, others⟩ := List.forall_mem_cons.mp legible
      obtain ⟨first', others'⟩ := List.forall_mem_cons.mp legible'
      simp only [closing, List.cons_append, List.append_assoc, List.cons.injEq, true_and] at same
      obtain ⟨heads, tails⟩ := written_inj readFirst first first' (ends_closing ps rest)
        (ends_closing qs rest') same
      obtain ⟨rows, rests⟩ := ih readOthers others others' tails
      refine ⟨?_, rests⟩
      rw [treePaths_eq_map, treePaths_eq_map] at rows ⊢
      rw [List.map_cons, List.map_cons, heads, rows]

theorem toList_intercalate_closing (path : Path) (ps : List Path) :
    (", ".intercalate (pathTexts (path :: ps))).toList ++ [']'] = written path ++ closing ps := by
  induction ps generalizing path with
  | nil => simp [pathTexts, closing, written]
  | cons other ps ih =>
    have several : pathTexts (other :: ps) ≠ [] := List.cons_ne_nil _ _
    rw [pathTexts, String.intercalate_cons_of_ne_nil several, String.toList_append,
      String.toList_append, List.append_assoc, ih other, List.append_assoc, closing]
    rfl

theorem toList_text_stack (l : Label) (d : Digest) (path : Path) :
    (node l d [path]).text.toList = written path := rfl

theorem toList_text_row (l : Label) (d : Digest) (path other : Path) (ps : List Path) :
    (node l d (path :: other :: ps)).text.toList =
      '[' :: (written path ++ closing (other :: ps)) := by
  have text : (node l d (path :: other :: ps)).text =
      "[" ++ ", ".intercalate (pathTexts (path :: other :: ps)) ++ "]" := rfl
  rw [text, String.toList_append, String.toList_append, List.append_assoc]
  exact congrArg (List.cons '[') (toList_intercalate_closing path (other :: ps))

theorem eq_outermost_of_shape (shape : a.shape = .outermost) : ∃ l, a = .outermostAt l := by
  cases a with
  | outermostAt l => exact ⟨l, rfl⟩
  | wildcardAt => contradiction
  | node l d ps =>
    rw [Context.shape] at shape
    split at shape <;> contradiction

theorem eq_wildcard_of_shape (shape : a.shape = .wildcard) : ∃ l, a = .wildcardAt l := by
  cases a with
  | outermostAt => contradiction
  | wildcardAt l => exact ⟨l, rfl⟩
  | node l d ps =>
    rw [Context.shape] at shape
    split at shape <;> contradiction

theorem eq_stack_of_shape (shape : a.shape = .stack) : ∃ l d path, a = .node l d [path] := by
  cases a with
  | outermostAt => contradiction
  | wildcardAt => contradiction
  | node l d ps =>
    rw [Context.shape] at shape
    split at shape
    · rename_i single
      obtain ⟨path, rfl⟩ := List.length_eq_one_iff.mp single
      exact ⟨l, d, path, rfl⟩
    · contradiction

theorem eq_row_of_shape (legible : a.Legible) (shape : a.shape = .row) :
    ∃ l d path other ps, a = .node l d (path :: other :: ps) := by
  cases a with
  | outermostAt => contradiction
  | wildcardAt => contradiction
  | node l d ps =>
    match ps with
    | [] =>
      obtain ⟨k, listed, -⟩ := legible.row.regular
      exact absurd listed List.not_mem_nil
    | [path] => contradiction
    | path :: other :: ps => exact ⟨l, d, path, other, ps, rfl⟩

theorem Legible.regular (legible : (node l d [path]).Legible) : path.1 ≠ outermostKey := by
  obtain ⟨k, listed, regular⟩ := legible.row.regular
  obtain rfl := List.mem_singleton.mp listed
  exact regular

/-- The first character of the text tells the shape. -/
theorem ofChar_head_text (legible : a.Legible) :
    ∃ c cs, a.text.toList = c :: cs ∧ Shape.ofChar c = a.shape := by
  cases shape : a.shape with
  | outermost =>
    obtain ⟨l, rfl⟩ := eq_outermost_of_shape shape
    exact ⟨'$', [], by rw [text]; rfl, rfl⟩
  | wildcard =>
    obtain ⟨l, rfl⟩ := eq_wildcard_of_shape shape
    exact ⟨'*', [], by rw [text]; rfl, rfl⟩
  | stack =>
    obtain ⟨l, d, path, rfl⟩ := eq_stack_of_shape shape
    obtain ⟨c, cs, split, digit⟩ := exists_digit legible.regular
    have different {symbol : Char} (symbolic : symbol.isDigit = false) : c ≠ symbol := by
      rintro rfl
      rw [digit] at symbolic
      contradiction
    refine ⟨c, cs, (toList_text_stack l d path).trans split, ?_⟩
    rw [Shape.ofChar, if_neg (different rfl), if_neg (different rfl), if_neg (different rfl)]
  | row =>
    obtain ⟨l, d, path, other, ps, rfl⟩ := eq_row_of_shape legible shape
    exact ⟨'[', _, toList_text_row l d path other ps, rfl⟩

theorem shape_eq (legible : a.Legible) (legible' : b.Legible)
    (same : a.text.toList ++ rest = b.text.toList ++ rest') : a.shape = b.shape := by
  obtain ⟨c, cs, split, shape⟩ := ofChar_head_text legible
  obtain ⟨c', cs', split', shape'⟩ := ofChar_head_text legible'
  rw [split, split', List.cons_append, List.cons_append, List.cons.injEq] at same
  rw [← shape, ← shape', same.1]

theorem readable_of_legible (legible : a.Legible) : a.Readable := by
  induction a with
  | outermostAt =>
    intro b rest rest' legible' ends ends' same
    obtain ⟨l', rfl⟩ := eq_outermost_of_shape (shape_eq legible legible' same).symm
    exact ⟨rfl, List.append_cancel_left same⟩
  | wildcardAt =>
    intro b rest rest' legible' ends ends' same
    obtain ⟨l', rfl⟩ := eq_wildcard_of_shape (shape_eq legible legible' same).symm
    exact ⟨rfl, List.append_cancel_left same⟩
  | node l d ps ih =>
    intro b rest rest' legible' ends ends' same
    have readable : ∀ path ∈ ps, path.2.Readable :=
      fun path inRow => ih path inRow (legible.ofPath inRow).parent
    have shapes := shape_eq legible legible' same
    cases shape : (node l d ps).shape with
    | outermost => exact nomatch eq_outermost_of_shape shape
    | wildcard => exact nomatch eq_wildcard_of_shape shape
    | stack =>
      obtain ⟨_, _, path, form⟩ := eq_stack_of_shape shape
      obtain ⟨l', d', other, rfl⟩ := eq_stack_of_shape (shapes.symm.trans shape)
      obtain ⟨rfl, rfl, rfl⟩ := node.inj form
      rw [toList_text_stack, toList_text_stack] at same
      have inRow : path ∈ [path] := List.mem_cons_self
      obtain ⟨paths, rests⟩ := written_inj (readable path inRow) (legible.ofPath inRow)
        (legible'.ofPath List.mem_cons_self) ends ends' same
      refine ⟨?_, rests⟩
      rw [tree, tree, treePaths_eq_map, treePaths_eq_map, List.map_singleton, List.map_singleton,
        paths]
    | row =>
      obtain ⟨_, _, path, second, ps, form⟩ := eq_row_of_shape legible shape
      obtain ⟨l', d', other, second', qs, rfl⟩ :=
        eq_row_of_shape legible' (shapes.symm.trans shape)
      obtain ⟨rfl, rfl, rfl⟩ := node.inj form
      rw [toList_text_row, toList_text_row] at same
      have rows : closing (path :: second :: ps) ++ rest =
          closing (other :: second' :: qs) ++ rest' :=
        congrArg (fun cs => ',' :: ' ' :: cs) (List.cons.inj same).2
      obtain ⟨paths, rests⟩ := closing_inj readable (fun path inRow => legible.ofPath inRow)
        (fun path inRow => legible'.ofPath inRow) rows
      exact ⟨congrArg Tree.node paths, rests⟩

/-- Legible contexts have one text if and only if they have one value. -/
theorem text_eq_iff (legible : a.Legible) (legible' : b.Legible) :
    a.text = b.text ↔ a.tree = b.tree := by
  constructor
  · intro same
    have chars : a.text.toList ++ [] = b.text.toList ++ [] := by rw [same]
    exact (readable_of_legible legible b [] [] legible' ends_nil ends_nil chars).1
  · exact fun same => text_of_tree same

end Prediction.Context
