import Mathlib.Data.List.Forall2
import Mathlib.Data.List.Nodup
import TidySheet.Proofs.ColonAlignment

/-!
# The column that colons are brought to

Where every colon of a block has a line of its own, no blanks stand before it but those that bring
it to its column. So in the output, parsed again, the colons of a block are in the last column that
one of them had.

* `lastColumn` — the last column of a block's colons, `AlignedTo` — a block with its colons there;
* `leading_eq_self` — a colon with a line of its own leads the line;
* `moved_eq` — where such a colon is moved to;
* `alignedTo_process` — the blocks of the output.
-/

set_option autoImplicit false

namespace TidySheet

open Node

namespace Colons

/-! ## Blocks and their declarations -/

/-- The last column of the colons of a block. -/
def lastColumn (block : Node) : Nat := ((colons block.children).map Position.column).max?.getD 0

def declarations (block : Node) : List Node := block.children.filter (·.is .declaration)

/-- Whether no two colons of declarations in blocks share a line. -/
def OwnLines (tree : Node) : Prop :=
  ((tree.blocks.flatMap fun block => colons block.children).map Position.line).Nodup

instance (tree : Node) : Decidable (OwnLines tree) :=
  inferInstanceAs (Decidable (List.Nodup (List.map _ _)))

/-- The declarations of `after` are those of `before`, each with its colon on the line where it was
and in the last column of `before`. -/
def AlignedTo (before after : Node) : Prop :=
  List.Forall₂ (fun n m => ∃ p, colon? n = some p ∧ colon? m = some ⟨p.line, lastColumn before⟩)
    (declarations before) (declarations after)

theorem exists_colon?_of_formed {n : Node} (h : n.Formed) (hk : n.kind = .declaration) :
    ∃ p, colon? n = some p := by
  obtain ⟨l, cs, rfl⟩ := h.fits.eq_branch (by rw [hk]; rfl)
  obtain ⟨property, gap, colon, lead, value, hf, -⟩ := h.declaration hk
  have hform : cs = property :: (gap ++ colon :: (lead ++ [value])) := hf.children
  rw [hform]
  refine ⟨_, colon?_branch hk ?_ ?_ hf.colon_kind⟩
  · rw [hf.property_kind]
    exact Kind.noConfusion
  · intro g hg hkind
    have htrivia := isTrivia_iff.1 (hf.gap_trivia g hg)
    rw [hkind] at htrivia
    simp at htrivia

/-- Each declaration among formed nodes has its colon. -/
theorem map_colon?_filter {ns : List Node} (h : ∀ n ∈ ns, n.Formed) :
    (ns.filter (·.is .declaration)).map colon? = (colons ns).map some := by
  induction ns with
  | nil => rfl
  | cons n ns ih =>
    have hns := ih fun m hm => h m (by simp [hm])
    rw [colons_cons, List.map_append, ← hns]
    by_cases hk : n.kind = .declaration
    · obtain ⟨p, hp⟩ := exists_colon?_of_formed (h n (by simp)) hk
      rw [List.filter_cons_of_pos (is_eq_true.2 hk), List.map_cons, hp]
      rfl
    · rw [List.filter_cons_of_neg (by rw [is_eq_true]; exact hk), colon?_of_ne hk]
      rfl

/-- A block is aligned to another if its colons are on their lines and in that one's column. -/
theorem alignedTo_of_colons_eq {before after : Node} (hb : ∀ n ∈ before.children, n.Formed)
    (ha : ∀ n ∈ after.children, n.Formed)
    (h : colons after.children =
      (colons before.children).map fun p => ⟨p.line, lastColumn before⟩) :
    AlignedTo before after := by
  have hsome : List.Forall₂ (fun x y => ∃ p, x = some p ∧ y = some ⟨p.line, lastColumn before⟩)
      ((declarations before).map colon?) ((declarations after).map colon?) := by
    unfold declarations
    rw [map_colon?_filter hb, map_colon?_filter ha, h, List.map_map, List.forall₂_map_left_iff,
      List.forall₂_map_right_iff, List.forall₂_same]
    intro p _
    exact ⟨p, rfl, rfl⟩
  rwa [List.forall₂_map_left_iff, List.forall₂_map_right_iff] at hsome

/-! ## Colons with lines of their own -/

theorem leading_eq_self {line : Option Nat} {ps : List Position}
    (hl : ∀ p ∈ ps, line ≠ some p.line) (h : (ps.map Position.line).Nodup) :
    leading line ps = ps := by
  induction ps generalizing line with
  | nil => rfl
  | cons p ps ih =>
    rw [List.map_cons, List.nodup_cons] at h
    rw [leading, if_neg (hl p (by simp)), ih _ h.2]
    intro q hq heq
    refine h.1 ?_
    rw [Option.some.inj heq]
    exact List.mem_map_of_mem hq

theorem target_eq_lastColumn {block : Node}
    (h : ((colons block.children).map Position.line).Nodup) :
    target (colons block.children) = lastColumn block := by
  rw [target, leading_eq_self (by simp) h]
  rfl

theorem nodup_lines_of_mem {gs : List (List Position)}
    (h : (gs.flatten.map Position.line).Nodup) {g : List Position} (hg : g ∈ gs) :
    (g.map Position.line).Nodup :=
  ((List.sublist_flatten_of_mem hg).map Position.line).nodup h

/-- **A colon with a line of its own is moved to the last column of its block.** -/
theorem moved_eq {d : Dialect} {source : List Char} {tree : Node} {ts : List Token}
    {ns : List Node} (hp : Parsed d source tree ts ns)
    (hlines : ((groupsOf ns).flatten.map Position.line).Nodup) {g : List Position}
    (hg : g ∈ groupsOf ns) {p : Position} (hpg : p ∈ g) :
    p.moved (width tree) = ⟨p.line, target g⟩ := by
  have hlead : leading none g = g := leading_eq_self (by simp) (nodup_lines_of_mem hlines hg)
  have hpl : p ∈ leading none g := by rwa [hlead]
  have hwidth : width tree p = target g - p.column := width_of_mem_leading hp hg hpl
  -- Blanks left of `p` would stand before a colon that shares the line of `p`.
  have hshift : p.shift (width tree) = 0 := by
    rw [Position.shift, List.sum_eq_zero_iff_forall_eq_nat]
    simp only [List.mem_map, List.mem_range, forall_exists_index, and_imp,
      forall_apply_eq_imp_iff₂]
    intro c hc
    refine Decidable.byContradiction fun hw => ?_
    have hq := mem_groups_of_width_ne_zero hp hw
    have hsame := List.inj_on_of_nodup_map hlines hq (List.mem_flatten.2 ⟨g, hg, hpg⟩) rfl
    rw [← hsame] at hc
    exact Nat.lt_irrefl c hc
  have hle := column_le_target hpl
  rw [Position.moved, hwidth, hshift]
  simp only [Position.mk.injEq, true_and]
  omega

/-! ## The output -/

theorem formed_of_mem_blocks {d : Dialect} {source : List Char} {tree : Node} {ts : List Token}
    {ns : List Node} (hp : Parsed d source tree ts ns) :
    ∀ block ∈ tree.blocks, ∀ n ∈ block.children, n.Formed := by
  rw [forall_mem_blocks (P := fun block => ∀ n ∈ block.children, n.Formed), hp.tree_eq]
  refine AllOf.imp (fun m hm _ n hn => ?_) ns (AllOf.below ns (hp.reading.sound hp.spelled))
  exact formed_of_sound ((allOf_iff m.children).1 hm.children n hn)

/-- **The colons of every block are brought to its last column**: where no two colons share a line,
the output of a run can be parsed, and its blocks are those of the sheet in document order, each
aligned to the one it was. -/
theorem alignedTo_process (d : Dialect) (hd : d ≠ .sass) (source : String) (tree : Node)
    (h : parse d source = .ok tree) (hlines : OwnLines tree) :
    ∃ once again, rule.process tree = .ok once ∧ parse d once.render = .ok again ∧
      List.Forall₂ AlignedTo tree.blocks again.blocks := by
  obtain ⟨ts, ns, hp⟩ := parsed_of_parseChars h
  obtain ⟨again, us, ms, hagain, hp', hfollows⟩ := exists_parse_aligned hp
  refine ⟨_, again, process_of_parseChars h, ?_, ?_⟩
  · rw [parse, Node.render, String.toList_ofList]
    exact hagain
  have hf := hfollows fun hs => absurd hs hd
  have hchildren : tree.children = ns := by rw [hp.tree_eq]; rfl
  have hchildren' : again.children = ms := by rw [hp'.tree_eq]; rfl
  have hgroups : groupsOf ns = tree.blocks.map fun block => colons block.children := by
    rw [map_blocks, hchildren]
  have hnodup : ((groupsOf ns).flatten.map Position.line).Nodup := by
    rw [hgroups, ← List.flatMap_def]
    exact hlines
  have hmoved : again.blocks.map (fun block => colons block.children) =
      tree.blocks.map fun block => (colons block.children).map (·.moved (width tree)) := by
    rw [map_blocks, hchildren', hf.groups_eq, hgroups, List.map_map]
    rfl
  -- Block by block, the colons of the output are the moved ones.
  have hpairs : List.Forall₂ (fun block block' => colons block'.children =
      (colons block.children).map (·.moved (width tree))) tree.blocks again.blocks := by
    rw [eq_comm, ← List.forall₂_eq_eq_eq, List.forall₂_map_left_iff,
      List.forall₂_map_right_iff] at hmoved
    exact hmoved.imp fun _ _ heq => heq.symm
  rw [List.forall₂_iff_zip] at hpairs ⊢
  refine ⟨hpairs.1, fun {block block'} hzip => ?_⟩
  obtain ⟨hb, hb'⟩ := List.of_mem_zip hzip
  have hg : colons block.children ∈ groupsOf ns := by
    rw [hgroups]
    exact List.mem_map_of_mem hb
  apply alignedTo_of_colons_eq (formed_of_mem_blocks hp block hb)
    (formed_of_mem_blocks hp' block' hb')
  rw [hpairs.2 hzip, ← target_eq_lastColumn (nodup_lines_of_mem hnodup hg)]
  exact List.map_congr_left fun p hpg => moved_eq hp hnodup hg hpg

/-- A sheet with a nested block, a comment before a colon and a colon without a property. -/
def ownLinesSheet : String :=
  "a \x7b\n  x : 1;\n  b \x7b\n    yy/* y */: 2;\n    : 3\n  \x7d\n  long-name: 4\n\x7d"

theorem alignedTo_process_ownLines :
    ∃ tree once again, parse .scss ownLinesSheet = .ok tree ∧ OwnLines tree ∧
      tree.blocks.map lastColumn = [12, 14] ∧ rule.process tree = .ok once ∧
      parse .scss once.render = .ok again ∧ List.Forall₂ AlignedTo tree.blocks again.blocks := by
  have hsheet : ((parse .scss ownLinesSheet).toOption.map fun tree =>
      decide (OwnLines tree ∧ tree.blocks.map lastColumn = [12, 14])) = some true := by
    decide +kernel
  cases h : parse .scss ownLinesSheet with
  | error e => rw [h] at hsheet; cases hsheet
  | ok tree =>
    rw [h] at hsheet
    simp only [Except.toOption, Option.map_some, Option.some.injEq,
      decide_eq_true_eq] at hsheet
    obtain ⟨hlines, hcolumns⟩ := hsheet
    obtain ⟨once, again, honce, hagain, haligned⟩ :=
      alignedTo_process .scss (by decide) _ _ h hlines
    exact ⟨tree, once, again, rfl, hlines, hcolumns, honce, hagain, haligned⟩

end Colons

end TidySheet
