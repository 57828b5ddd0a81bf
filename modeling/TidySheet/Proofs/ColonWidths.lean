import TidySheet.Proofs.ColonGroups
import TidySheet.Proofs.Forms
import TidySheet.Proofs.Respacing

/-!
# How far colons move

The alignment widens the whitespace before the colons that lead their lines in a block, up to the
column of the last one. Here this is told by a width for each place of the text.

* `leading`, `target` — the colons that take part in a block, and the column they are brought to;
* `width` — the blanks that a tree's alignment puts before a place;
* `isAligned_iff`, `forall_width_eq_zero` — no blanks are put in exactly if all blocks are aligned;
* `level_map_moved` — when the colons of a block share a column once all blanks are put in.
-/

set_option autoImplicit false

namespace TidySheet

open Node

namespace Colons

/-! ## Colons that lead their lines -/

/-- The colons that are first on their lines; `line` is that of the colon before. -/
def leading : (line : Option Nat) → List Position → List Position
  | _, [] => []
  | line, p :: ps =>
    if line = some p.line then leading (some p.line) ps else p :: leading (some p.line) ps

/-- The column that the colons of a block are brought to. -/
def target (ps : List Position) : Nat := ((leading none ps).map Position.column).max?.getD 0

/-- The blanks that the alignment of a block puts before a place. -/
def ownWidth (ps : List Position) (p : Position) : Nat :=
  if p ∈ leading none ps then target ps - p.column else 0

def widthIn (gs : List (List Position)) (p : Position) : Nat := (gs.map (ownWidth · p)).sum

/-- **The blanks that the alignment of a tree puts before a place.** -/
def width (tree : Node) (p : Position) : Nat :=
  widthIn (tree.blocks.map fun block => colons block.children) p

theorem mem_of_mem_leading {line : Option Nat} {ps : List Position} {p : Position}
    (h : p ∈ leading line ps) : p ∈ ps := by
  induction ps generalizing line with
  | nil => exact h
  | cons q ps ih =>
    rw [leading] at h
    split at h
    · exact List.mem_cons_of_mem q (ih h)
    · rcases List.mem_cons.1 h with rfl | h
      · exact List.mem_cons_self
      · exact List.mem_cons_of_mem q (ih h)

theorem filterMap_columns (line : Option Nat) (ns : List Node) :
    (columns line ns).filterMap id = (leading line (colons ns)).map Position.column := by
  induction ns generalizing line with
  | nil => rfl
  | cons n ns ih =>
    rw [columns, colons_cons]
    cases colon? n with
    | none => exact ih line
    | some p =>
      simp only [Option.toList_some, List.singleton_append, leading]
      split
      · exact ih _
      · rw [List.map_cons, ← ih]
        rfl

theorem colonColumns_eq (block : Node) :
    colonColumns block = (leading none (colons block.children)).map Position.column :=
  filterMap_columns none block.children

theorem max?_eq_target {ps : List Position} {p : Position} (h : p ∈ leading none ps) :
    ((leading none ps).map Position.column).max? = some (target ps) := by
  have hm : p.column ∈ (leading none ps).map Position.column := List.mem_map_of_mem h
  unfold target
  cases hmax : ((leading none ps).map Position.column).max? with
  | none =>
    rw [List.max?_eq_none_iff] at hmax
    rw [hmax] at hm
    cases hm
  | some m => rfl

/-- The target of a block is right of all of its leading colons. -/
theorem column_le_target {ps : List Position} {p : Position} (h : p ∈ leading none ps) :
    p.column ≤ target ps :=
  (List.max?_eq_some_iff.1 (max?_eq_target h)).2 p.column (List.mem_map_of_mem h)

/-- The target of a block is the column of one of its leading colons. -/
theorem exists_column_eq_target {ps : List Position} {p : Position} (h : p ∈ leading none ps) :
    ∃ q ∈ leading none ps, q.column = target ps :=
  List.mem_map.1 (List.max?_eq_some_iff.1 (max?_eq_target h)).1

/-- Whether the leading colons share a column. -/
def Level (ps : List Position) : Prop :=
  ∀ p ∈ leading none ps, ∀ q ∈ leading none ps, p.column = q.column

theorem isAligned_iff (block : Node) :
    isAligned block = true ↔ Level (colons block.children) := by
  have hlevel : Level (colons block.children) ↔
      ∀ a ∈ colonColumns block, ∀ b ∈ colonColumns block, a = b := by
    simp only [Level, colonColumns_eq, List.mem_map, forall_exists_index, and_imp,
      forall_apply_eq_imp_iff₂]
  rw [hlevel, isAligned]
  cases colonColumns block with
  | nil => simp
  | cons c cs =>
    simp only [List.all_eq_true, beq_iff_eq]
    constructor
    · intro h a ha b hb
      have hall : ∀ x ∈ c :: cs, x = c := List.forall_mem_cons.2 ⟨rfl, h⟩
      rw [hall a ha, hall b hb]
    · intro h x hx
      exact h x (by simp [hx]) c (by simp)

theorem level_iff (ps : List Position) : Level ps ↔ ∀ p, ownWidth ps p = 0 := by
  constructor
  · intro h p
    unfold ownWidth
    split
    · rename_i hp
      obtain ⟨q, hq, hqt⟩ := exists_column_eq_target hp
      have := h p hp q hq
      omega
    · rfl
  · intro h p hp q hq
    have hpt := h p
    have hqt := h q
    rw [ownWidth, if_pos hp] at hpt
    rw [ownWidth, if_pos hq] at hqt
    have := column_le_target hp
    have := column_le_target hq
    omega

/-! ## Widths of a tree -/

theorem widthIn_append (gs hs : List (List Position)) (p : Position) :
    widthIn (gs ++ hs) p = widthIn gs p + widthIn hs p := by
  rw [widthIn, List.map_append, List.sum_append]
  rfl

theorem widthIn_eq_zero_iff {gs : List (List Position)} {p : Position} :
    widthIn gs p = 0 ↔ ∀ g ∈ gs, ownWidth g p = 0 := by
  induction gs with
  | nil => simp [widthIn]
  | cons g gs ih =>
    rw [List.forall_mem_cons, ← ih]
    simp [widthIn]

theorem widthIn_eq_zero {gs : List (List Position)} {p : Position} (h : p ∉ gs.flatten) :
    widthIn gs p = 0 := by
  rw [widthIn_eq_zero_iff]
  intro g hg
  refine if_neg fun hm => h ?_
  exact List.mem_flatten.2 ⟨g, hg, mem_of_mem_leading hm⟩

theorem groups_eq (n : Node) : groups n =
    (if n.is .block then [colons n.children] else []) ++ groupsOf n.children := by
  cases n with
  | leaf l t => simp [groups, is, Node.kind, Node.label, children]
  | branch l cs =>
    rw [groups]
    by_cases h : l.kind = .block <;> simp [h, is, Node.kind, Node.label, children]

/-- The colons of the blocks of a tree. -/
theorem map_blocks (n : Node) :
    n.blocks.map (fun block => colons block.children) = groupsOf n.children := by
  rw [blocks, List.map_map]
  refine map_visitsOfKind (fun _ ns => groupsOf ns) (fun _ => groupsOf_nil) ?_ n
  intro _ _ n ns
  rw [groupsOf_cons, groups_eq, List.append_assoc]
  rfl

theorem width_eq (tree : Node) (p : Position) :
    width tree p = widthIn (groupsOf tree.children) p := by
  rw [width, map_blocks]

/-- **No blanks are put in exactly if all blocks are aligned.** -/
theorem forall_width_eq_zero (tree : Node) :
    (∀ p, width tree p = 0) ↔ ∀ block ∈ tree.blocks, isAligned block = true := by
  simp only [width, widthIn_eq_zero_iff, List.mem_map, forall_exists_index, and_imp,
    forall_apply_eq_imp_iff₂, isAligned_iff, level_iff]
  exact ⟨fun h block hb p => h p block hb, fun h p block hb => h block hb p⟩

/-! ## Colons once they are moved -/

/-- Colons that are moved along their lines lead as before. -/
theorem leading_map_moved {w : Position → Nat} (line : Option Nat) (ps : List Position) :
    leading line (ps.map (·.moved w)) = (leading line ps).map (·.moved w) := by
  induction ps generalizing line with
  | nil => rfl
  | cons p ps ih =>
    have hline : (p.moved w).line = p.line := rfl
    rw [List.map_cons, leading, leading, hline]
    split
    · exact ih _
    · rw [ih, List.map_cons]

/-- **The colons of a block share a column behind all blanks** exactly if the blanks before other
colons have shifted them alike. -/
theorem level_map_moved {w : Position → Nat} {ps : List Position}
    (hw : ∀ p ∈ leading none ps, w p = target ps - p.column) :
    Level (ps.map (·.moved w)) ↔
      ∀ p ∈ leading none ps, ∀ q ∈ leading none ps, p.shift w = q.shift w := by
  have hcolumn : ∀ p ∈ leading none ps, (p.moved w).column = target ps + p.shift w := by
    intro p hp
    have hle := column_le_target hp
    have hwp := hw p hp
    rw [Position.moved]
    dsimp only
    omega
  unfold Level
  rw [leading_map_moved]
  constructor
  · intro h p hp q hq
    have heq := h _ (List.mem_map_of_mem hp) _ (List.mem_map_of_mem hq)
    rw [hcolumn p hp, hcolumn q hq] at heq
    omega
  · intro h a ha b hb
    obtain ⟨p, hp, rfl⟩ := List.mem_map.1 ha
    obtain ⟨q, hq, rfl⟩ := List.mem_map.1 hb
    rw [hcolumn p hp, hcolumn q hq, h p hp q hq]

end Colons

end TidySheet
