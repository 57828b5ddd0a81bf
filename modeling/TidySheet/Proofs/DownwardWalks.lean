import TidySheet.Proofs.BlockEdits

/-!
# Walks from outer to inner blocks

`Node.mapBlocks` edits inner blocks first. A walk may as well edit each block that it meets and go
on in what the edit has left: it comes to the same end and meets each block of the tree once, as it
is in the tree, if an edit keeps the blocks further in and does not look into them.

* `Node.Downward` — edits that can be done on the way down;
* `Node.Downward.reshapeWithin_eq` — the walk that does them;
* `Inlining.downward_inlineBlock`, `Colons.downward_alignBlock`, `VendorAlign.downward_alignBlock` —
  the rules edit so;
* `VendorAlign.reshapeWithin_of_parse` — names aligned by such a walk.
-/

set_option autoImplicit false

namespace TidySheet

namespace Node

/-! ## Walks -/

/-- A visitor that edits each block that it meets, and notes the block as it was. -/
def editor (f : Node → Node) : Visitor (List Node) := fun _ block seen =>
  (f block, seen ++ [block])

/-- What a block must keep if a walk goes on in it after the edit `f`. The edit may come before those
of the blocks further in as well as after them. -/
structure Onward (P : Node → Prop) (f : Node → Node) (n : Node) : Prop where
  allOf : AllOf P (f n).children
  blocks_eq : (f n).blocks = n.blocks
  depth_le : (f n).depth ≤ n.depth
  mapBlock_eq : n.mapBlock f = (f n).mapBlocks f

/-- An edit of blocks that can be done on the way down, in a tree whose nodes satisfy `P`. -/
def Downward (P : Node → Prop) (f : Node → Node) : Prop :=
  ∀ n : Node, n.kind = .block → n.All P → Onward P f n

theorem depth_eq (n : Node) : n.depth = depthOf n.children := by
  cases n with
  | leaf l t => rw [depth, children, depthOf]
  | branch l cs => rw [depth, children]

theorem blocks_eq_flatMap (n : Node) : n.blocks = n.children.flatMap withBlocks := by
  cases n with
  | leaf l t => rfl
  | branch l cs => exact blocks_branch l cs

theorem mapBlock_of_ne {f : Node → Node} {n : Node} (h : n.kind ≠ .block) :
    n.mapBlock f = n.mapBlocks f := by
  cases n with
  | leaf l t => exact if_neg h
  | branch l cs => exact if_neg h

namespace Downward

variable {P : Node → Prop} {f : Node → Node}

/-- **Siblings in a walk downward**: all that is below them is edited, and the blocks are met as they
were. -/
theorem reshapeAll_eq (hf : Downward P f) {levels i : Nat} {ns seen : List Node}
    (hP : AllOf P ns) (hdepth : depthOf ns ≤ levels) :
    reshapeAll .block (editor f) levels i ns seen =
      some (mapBlocksOf f ns, seen ++ ns.flatMap withBlocks) := by
  induction levels generalizing i ns seen with
  | zero =>
    cases ns with
    | nil => simp [reshapeAll, mapBlocksOf]
    | cons n ns =>
      rw [depthOf] at hdepth
      omega
  | succ levels ih =>
    induction ns generalizing i seen with
    | nil => simp [reshapeAll, mapBlocksOf]
    | cons n ns ihns =>
      obtain ⟨hn, hns⟩ := (allOf_cons n ns).1 hP
      rw [depthOf] at hdepth
      -- the children of what the walk goes on in, and then the siblings
      have hbelow : ∀ (m : Node) (noted : List Node), AllOf P m.children → m.depth ≤ n.depth →
          reshapeAll .block (editor f) levels 0 m.children noted =
            some (mapBlocksOf f m.children, noted ++ m.blocks) := by
        intro m noted hm hle
        rw [depth_eq m] at hle
        rw [blocks_eq_flatMap, ih hm (by omega)]
      have hrest : ∀ noted, reshapeAll .block (editor f) (levels + 1) (i + 1) ns noted =
          some (mapBlocksOf f ns, noted ++ ns.flatMap withBlocks) :=
        fun noted => ihns hns (by omega)
      rw [reshapeAll, mapBlocksOf, List.flatMap_cons, withBlocks]
      by_cases hk : n.kind = .block
      · have hon := hf n hk hn
        rw [if_pos (is_eq_true.2 hk), if_pos (is_eq_true.2 hk), hon.mapBlock_eq, ← hon.blocks_eq]
        simp only [editor, hbelow (f n) _ hon.allOf hon.depth_le, hrest, mapBlocks,
          List.append_assoc]
      · have hb : ¬ n.is .block = true := fun h => hk (is_eq_true.1 h)
        rw [if_neg hb, if_neg hb, mapBlock_of_ne hk]
        simp only [hbelow n _ hn.children (Nat.le_refl _), hrest, mapBlocks, List.nil_append,
          List.append_assoc]

/-- **A walk downward** edits all blocks, and meets each block of the tree once and as it was. -/
theorem reshapeWithin_eq (hf : Downward P f) {tree : Node} (hP : AllOf P tree.children) :
    tree.reshapeWithin .block (editor f) tree.depth [] = some (tree.mapBlocks f, tree.blocks) := by
  rw [reshapeWithin, hf.reshapeAll_eq hP (Nat.le_of_eq (depth_eq tree).symm), mapBlocks,
    blocks_eq_flatMap]
  rfl

end Downward

/-! ## Depth -/

theorem depthOf_append (ms ns : List Node) :
    depthOf (ms ++ ns) = max (depthOf ms) (depthOf ns) := by
  induction ms with
  | nil => rw [List.nil_append, depthOf, Nat.zero_max]
  | cons m ms ih => rw [List.cons_append, depthOf, depthOf, ih, Nat.max_assoc]

theorem depth_lt_depthOf {n : Node} {ns : List Node} (h : n ∈ ns) : n.depth < depthOf ns := by
  induction ns with
  | nil => cases h
  | cons m ns ih =>
    rw [depthOf]
    rcases List.mem_cons.1 h with rfl | h
    · omega
    · have hlt := ih h
      omega

theorem depthOf_le {ns : List Node} {levels : Nat} (h : ∀ n ∈ ns, n.depth < levels) :
    depthOf ns ≤ levels := by
  induction ns with
  | nil => exact Nat.zero_le _
  | cons n ns ih =>
    have hn := h n List.mem_cons_self
    have hns := ih fun m hm => h m (List.mem_cons_of_mem n hm)
    rw [depthOf]
    omega

theorem depthOf_le_of_sublist {ms ns : List Node} (h : ms.Sublist ns) :
    depthOf ms ≤ depthOf ns :=
  depthOf_le fun _ hn => depth_lt_depthOf (h.subset hn)

end Node

open Node

/-! ## Inlining -/

namespace Inlining

theorem flatMap_squeeze (dense : Bool) {cs : List Node} (hcs : AllOf Flat cs) :
    (squeeze dense cs).flatMap withBlocks = cs.flatMap withBlocks := by
  cases dense with
  | false => rfl
  | true =>
    induction cs with
    | nil => rfl
    | cons n cs ih =>
      obtain ⟨hn, hcs⟩ := (allOf_cons n cs).1 hcs
      by_cases hk : n.kind = .space
      · rw [squeeze_of_space hk, ih hcs, List.flatMap_cons, hn.self.withBlocks_eq hk,
          List.nil_append]
      · rw [squeeze_cons hk, List.flatMap_cons, List.flatMap_cons, ih hcs]

theorem inlineBlock_leaf (l : Label) (t : List Char) : inlineBlock (.leaf l t) = .leaf l t := by
  unfold inlineBlock
  split <;> rfl

theorem mapBlock_leaf (l : Label) (t : List Char) :
    (Node.leaf l t).mapBlock inlineBlock = .leaf l t := by
  rw [mapBlock, inlineBlock_leaf, ite_self]

/-- **Inlining can be done on the way down.** -/
theorem downward_inlineBlock : Downward Flat inlineBlock := by
  intro n hk hn
  cases n with
  | leaf l t =>
    refine ⟨?_, ?_, ?_, ?_⟩
    · rw [inlineBlock_leaf]
      exact allOf_nil
    · rw [inlineBlock_leaf]
    · rw [inlineBlock_leaf]
    · rw [mapBlock_leaf, inlineBlock_leaf]
      rfl
  | branch l cs =>
    have hl : l.kind = .block := hk
    have hsub := squeeze_sublist (isInlinable (.branch l cs)) cs
    have hcs : AllOf Flat cs := hn.children
    refine ⟨?_, ?_, ?_, ?_⟩
    · rw [Braces.inlineBlock_branch]
      exact (allOf_iff _).2 fun c hc => (allOf_iff cs).1 hcs c (hsub.subset hc)
    · rw [Braces.inlineBlock_branch, blocks_branch, blocks_branch, flatMap_squeeze _ hcs]
    · rw [Braces.inlineBlock_branch, depth, depth]
      exact depthOf_le_of_sublist hsub
    · rw [mapBlock_of_block hl, Braces.inlineBlock_branch, mapBlocks, mapBlocksOf_eq_map]
      rfl

end Inlining

/-! ## Alignment -/

/-- An edit that moves what stands in a block can be done on the way down if it puts nothing deeper
and does not look into the blocks further in. -/
theorem Shifts.downward {f : Node → Node} (hf : Shifts f)
    (hdepth : ∀ l cs, AllOf Formed cs → (f (.branch l cs)).depth ≤ (Node.branch l cs).depth)
    (hmap : ∀ l cs, l.kind = .block → AllOf Formed cs →
      (Node.branch l cs).mapBlock f = (f (.branch l cs)).mapBlocks f) :
    Downward (fun n => n.Formed ∧ n.Blank) f := by
  intro n hk hn
  obtain ⟨l, cs, rfl⟩ := hn.self.1.fits.eq_branch (by rw [hk]; rfl)
  have hformed : AllOf Formed cs := AllOf.imp (fun _ h => h.1) cs hn.children
  have hblank : AllOf Blank cs := AllOf.imp (fun _ h => h.2) cs hn.children
  obtain ⟨ds, hds, hshift⟩ := hf l cs hformed
  refine ⟨?_, ?_, hdepth l cs hformed, hmap l cs hk hformed⟩
  · rw [hds]
    exact AllOf.and ds (hshift.formed hformed) (hshift.blank hblank)
  · rw [hds, blocks_branch, blocks_branch, hshift.flatMap_withBlocks hblank]

/-- **A parsed tree can be aligned on the way down.** -/
theorem Parsed.reshapeWithin_eq {d : Dialect} {source : List Char} {tree : Node} {ts : List Token}
    {ns : List Node} {f : Node → Node} (hp : Parsed d source tree ts ns)
    (hf : Downward (fun n => n.Formed ∧ n.Blank) f) :
    tree.reshapeWithin .block (editor f) tree.depth [] = some (tree.mapBlocks f, tree.blocks) := by
  have hsound := hp.reading.sound hp.spelled
  have hformed : AllOf Formed ns := AllOf.imp (fun _ => formed_of_sound) ns (AllOf.below ns hsound)
  apply hf.reshapeWithin_eq
  rw [show tree.children = ns by rw [hp.tree_eq]; rfl]
  exact AllOf.and ns hformed (AllOf.imp (fun _ => Sound.blank) ns hsound)

namespace Colons

theorem depthOf_padEnd_le (d : Dialect) (padding : List Char) (ns : List Node) :
    depthOf (padEnd d padding ns) ≤ max (depthOf ns) 1 := by
  rcases padEnd_eq d padding ns with ⟨ms, l, t, -, rfl, hpad⟩ | hpad
  · rw [hpad, depthOf_append, depthOf_append]
    simp only [depthOf, depth]
    omega
  · rw [hpad, depthOf_append]
    simp only [depthOf, ofSpace, ofText, depth]
    omega

/-- New whitespace before a colon stands no deeper than the colon. -/
theorem depth_padColon_le (k : Nat) (n : Node) : (padColon k n).depth ≤ n.depth := by
  unfold padColon
  split
  · exact Nat.le_refl _
  split
  · exact Nat.le_refl _
  · rename_i before colon behind hcut
    cases n with
    | leaf l t => exact Nat.le_refl _
    | branch l cs =>
      have hpad := depthOf_padEnd_le l.dialect (List.replicate k ' ') before
      have hcs : cs = before ++ colon :: behind := eq_of_cutFirst? hcut
      rw [withChildren, depth, depth, hcs, depthOf_append, depthOf_append, depthOf]
      show max (depthOf (padEnd l.dialect (List.replicate k ' ') before)) _ ≤ _
      omega

theorem depthOf_padAll_le (target : Nat) (ns : List Node) (cs : List (Option Nat)) :
    depthOf (padAll target ns cs) ≤ depthOf ns := by
  fun_induction padAll target ns cs with
  | case1 n ns column cs ih =>
    have hn := depth_padColon_le (target - column) n
    rw [depthOf, depthOf]
    omega
  | case2 n ns cs ih =>
    rw [depthOf, depthOf]
    omega
  | case3 ns => exact Nat.le_refl _
  | case4 => exact Nat.zero_le _

/-- Declarations are padded before or after the blocks beside them are edited. -/
theorem padAll_map {target : Nat} {line : Option Nat} {ns : List Node} (hns : AllOf Formed ns) :
    padAll target (ns.map (mapBlock alignBlock)) (columns line ns) =
      (padAll target ns (columns line ns)).map (mapBlock alignBlock) := by
  induction ns generalizing line with
  | nil => rfl
  | cons n ns ih =>
    obtain ⟨hn, hns⟩ := (allOf_cons n ns).1 hns
    rw [List.map_cons, columns]
    cases hc : colon? n with
    | none => simp only [padAll, List.map_cons, ih hns]
    | some p =>
      have hno := hn.self.no_block (kind_of_colon? hc)
      simp only
      split
      · simp only [padAll, List.map_cons, ih hns]
      · simp only [padAll, List.map_cons, ih hns, mapBlock_of_no_block _ hno,
          mapBlock_of_no_block _ (no_block_padColon hno _)]

/-- **Colon alignment can be done on the way down.** -/
theorem downward_alignBlock : Downward (fun n => n.Formed ∧ n.Blank) alignBlock := by
  refine shifts_alignBlock.downward (fun l cs _ => ?_) fun l cs hl hformed => ?_
  · rw [alignBlock_branch]
    split
    · exact Nat.le_refl _
    · rw [depth, depth]
      exact depthOf_padAll_le _ cs _
  · have hcolon : ∀ n ∈ cs, colon? (n.mapBlock alignBlock) = colon? n :=
      fun n hn => colon?_mapBlock ((allOf_iff cs).1 hformed n hn).self
    rw [mapBlock, if_pos hl, mapBlocksOf_eq_map, alignBlock_branch, alignBlock_branch,
      colons_map hcolon, columns_map hcolon]
    split
    · rw [mapBlocks, mapBlocksOf_eq_map]
      rfl
    · rw [padAll_map hformed, mapBlocks, mapBlocksOf_eq_map]
      rfl

end Colons

/-! ## Vendor alignment -/

namespace VendorAlign

open VendorBlock

variable {os : List Occurrence} {o : Occurrence} {d k : Dialect} {cs : List Node}

/-- New whitespace before a value stands no deeper than the value. -/
theorem depth_padOwn_le (n : Node) : (padOwn os n).depth ≤ n.depth := by
  unfold padOwn
  split
  · rename_i o _
    unfold padValue
    split
    · exact Nat.le_refl _
    · rename_i before value behind hcut
      cases n with
      | leaf l t => exact Nat.le_refl _
      | branch l ds =>
        have hds : ds = before ++ value :: behind := eq_of_cutLast? hcut
        rw [withChildren, depth, depth]
        refine depthOf_le fun m hm => ?_
        rcases List.mem_append.1 hm with hm | hm
        · rcases mem_padLead hm with hm | ⟨l, t, rfl, -⟩
          · exact depth_lt_depthOf (by simp [hds, hm])
          · exact Nat.lt_of_le_of_lt (Nat.zero_le _)
              (depth_lt_depthOf (n := value) (by simp [hds]))
        · exact depth_lt_depthOf (by simp only [hds, List.mem_append, hm, or_true])
  · exact Nat.le_refl _

theorem depthOf_padValues_le : depthOf (padValues os cs) ≤ depthOf cs := by
  rw [padValues_eq_map]
  refine depthOf_le fun n hn => ?_
  obtain ⟨c, hc, rfl⟩ := List.mem_map.1 hn
  exact Nat.lt_of_le_of_lt (depth_padOwn_le c) (depth_lt_depthOf hc)

theorem depthOf_padFrom_le (before : List Node) : depthOf (padFrom os k before cs) ≤ depthOf cs := by
  refine depthOf_le fun n hn => ?_
  rcases mem_padFrom hn with hn | ⟨l, t, rfl, -⟩
  · exact depth_lt_depthOf hn
  · cases cs with
    | nil => cases hn
    | cons c cs => exact Nat.lt_of_le_of_lt (Nat.zero_le _) (depth_lt_depthOf List.mem_cons_self)

theorem depthOf_alignChildren_le (hcs : ∀ n ∈ cs, n.Formed) :
    depthOf (alignChildren d k cs) ≤ depthOf cs := by
  by_cases hd : d = .sass
  · rw [hd, alignChildren_of_sass]
    exact depthOf_padValues_le
  cases hl : isOneLine cs with
  | true => rw [alignChildren_of_oneLine hd hl]
  | false =>
    rw [alignChildren_of_braces hcs hd hl]
    exact Nat.le_trans (depthOf_padFrom_le []) depthOf_padValues_le

/-! What stands in a block is padded before or after the blocks further in are edited. -/

theorem padOwn_mapBlock {n : Node} (hn : n.Formed) (hr : InReach os n) :
    padOwn os (n.mapBlock (alignBlock d)) = (padOwn os n).mapBlock (alignBlock d) := by
  by_cases hk : n.kind = .declaration
  · have hpadded := padded_padOwn hn hr
    have hk' : (padOwn os n).kind = .declaration := by rw [kind, hpadded.label_eq, ← kind, hk]
    rw [mapBlock_declaration hn hk, mapBlock_declaration hpadded.formed hk']
  · have hk' := (alike_mapBlock (d := d) hn).kind_eq
    rw [padOwn_of_kind_ne hk, padOwn_of_kind_ne (by rwa [hk'])]

theorem padSibling_mapBlock {n : Node} (hn : n.Formed) :
    padSibling os o k (n.mapBlock (alignBlock d)) =
      (padSibling os o k n).map (mapBlock (alignBlock d)) := by
  have hgap : (gapNodes os o k).map (mapBlock (alignBlock d)) = gapNodes os o k := by
    by_cases hlt : o.total < reach os o.id
    · rw [gapNodes_of_lt hlt, List.map_singleton, ofSpace, ofText, mapBlock_leaf rfl]
    · rw [gapNodes_of_le (by omega), List.map_nil]
  have hkind := (alike_mapBlock (d := d) hn).kind_eq
  rw [padSibling_eq, padSibling_eq, is, is, is, is, hkind]
  split
  · rename_i hk
    obtain ⟨l, t, rfl⟩ := hn.fits.eq_leaf (by rw [eq_of_beq hk]; rfl)
    have hleaf : l.kind.isLeaf = true := hn.fits
    rw [List.map_singleton, mapBlock_leaf hleaf, resize, mapBlock_leaf hleaf]
  split
  · rw [List.map_append, hgap, List.map_singleton]
  · rw [List.map_cons, hgap]

theorem padProperties_map (hcs : ∀ n ∈ cs, n.Formed) (ps : List (Option Occurrence)) :
    padProperties os k ((cs.map (mapBlock (alignBlock d))).zip ps) =
      (padProperties os k (cs.zip ps)).map (mapBlock (alignBlock d)) := by
  induction cs generalizing ps with
  | nil => rfl
  | cons n cs ih =>
    cases ps with
    | nil => rfl
    | cons p ps =>
      have hrest := ih (fun m hm => hcs m (List.mem_cons_of_mem n hm)) ps
      cases cs with
      | nil => rfl
      | cons m cs =>
        cases ps with
        | nil => rfl
        | cons q ps =>
          simp only [List.map_cons, List.zip_cons_cons] at hrest
          simp only [List.map_cons, List.zip_cons_cons, padProperties, List.map_append, hrest]
          cases q with
          | none => rfl
          | some o => simp only [padSibling_mapBlock (hcs n List.mem_cons_self)]

theorem alignChildren_map (hcs : ∀ n ∈ cs, n.Formed) :
    alignChildren d k (cs.map (mapBlock (alignBlock d))) =
      (alignChildren d k cs).map (mapBlock (alignBlock d)) := by
  have hvalues : padValues (occurrences cs) (cs.map (mapBlock (alignBlock d))) =
      (padValues (occurrences cs) cs).map (mapBlock (alignBlock d)) := by
    rw [padValues_eq_map, padValues_eq_map, List.map_map, List.map_map]
    exact List.map_congr_left fun n hn => padOwn_mapBlock (hcs n hn) (inReach_of_mem hn)
  have hformed : ∀ n ∈ padValues (occurrences cs) cs, n.Formed := by
    intro n hn
    obtain ⟨c, hc, rfl⟩ := List.mem_map.1 hn
    exact (padded_padOwn (hcs c hc) (inReach_of_mem hc)).formed
  rw [alignChildren, alignChildren, isOneLine_map hcs, occurrences_map hcs,
    properties_map fun n hn => alike_mapBlock (hcs n hn)]
  split
  · rfl
  · simp only [hvalues]
    split
    · rfl
    · exact padProperties_map hformed _

/-- **Vendor alignment can be done on the way down.** -/
theorem downward_alignBlock (d : Dialect) :
    Downward (fun n => n.Formed ∧ n.Blank) (alignBlock d) := by
  refine (shifts_alignBlock d).downward (fun l cs hformed => ?_) fun l cs hl hformed => ?_
  · rw [alignBlock_branch, depth, depth]
    exact depthOf_alignChildren_le fun n hn => ((allOf_iff cs).1 hformed n hn).self
  · have hmap := alignChildren_map (d := d) (k := l.dialect) fun n hn =>
      ((allOf_iff cs).1 hformed n hn).self
    rw [mapBlock_alignBlock_of_block hl, hmap, alignBlock_branch, mapBlocks, mapBlocksOf_eq_map]
    rfl

/-- **A walk downward aligns a parsed tree as the rule does**, and meets each block as it was. -/
theorem reshapeWithin_of_parse {source : String} {tree : Node} (h : parse d source = .ok tree) :
    tree.reshapeWithin .block (editor (alignBlock tree.dialect)) tree.depth [] =
      some (reshape tree, tree.blocks) := by
  obtain ⟨ts, ns, hp⟩ := parsed_of_parseChars h
  exact hp.reshapeWithin_eq (downward_alignBlock tree.dialect)

end VendorAlign

end TidySheet
