import TidySheet.Proofs.BlockEdits

/-!
# Colons that stay where they are

A run of rules that ends with the text that it began with has not moved a colon. Vendor alignment
only makes a text longer, so without inlining no room for colons is left. Inlining makes blocks
shorter, but only those with one statement, in which there is no colon to align with another one; and
what stands in the other blocks can be followed from the source to the end of the run.

* `Retraced` — a sheet after edits of blocks, `Retraced.map_ownLength_eq` its blocks, if its text is
  that of another one;
* `VendorAlign.length_chars_le` — vendor alignment only makes a text longer;
* `Colons.eq_of_aligned_of_le`, `Colons.eq_of_aligned` — colon alignment that ends in the source;
* `Colons.eq_of_inlined` — the same with inlining behind it.
-/

set_option autoImplicit false

namespace TidySheet

open Node

/-! ## Blocks of edited sheets -/

/-- A block of a tree, with what holds of all nodes in it. -/
theorem Node.exists_of_mem_withBlocks {P : Node → Prop} {ns : List Node} {block : Node}
    (hf : AllOf Formed ns) (hP : AllOf P ns) (h : block ∈ ns.flatMap withBlocks) :
    ∃ m cs, block = .branch m cs ∧ m.kind = .block ∧ AllOf Formed cs ∧ AllOf P cs := by
  revert block
  rw [forall_mem_withBlocks]
  refine AllOf.imp (fun n hn hk => ?_) ns (AllOf.and ns (AllOf.below ns hf) (AllOf.below ns hP))
  obtain ⟨m, cs, rfl⟩ := hn.1.self.fits.eq_branch (by rw [hk]; rfl)
  exact ⟨m, cs, rfl, hk, hn.1.children, hn.2.children⟩

/-- **A sheet after edits of blocks**, with the marked ink of the sheet `ns`. -/
structure Retraced (ns qs : List Node) : Prop where
  formed : AllOf Formed qs
  blank : AllOf Blank qs
  braced : AllOf Braced qs
  inked_eq : inked (markedOf qs) = inked (markedOf ns)

namespace Retraced

variable {ns qs rs : List Node}

theorem of_sound {d : Dialect} (hd : d.usesBraces = true) (h : AllOf (Sound d) qs)
    (hi : inked (markedOf qs) = inked (markedOf ns)) : Retraced ns qs where
  formed := AllOf.imp (fun _ => formed_of_sound) qs (AllOf.below qs h)
  blank := AllOf.imp (fun _ => Sound.blank) qs h
  braced := by
    refine AllOf.imp (fun n hn hk => ?_) qs h
    obtain ⟨l, cs, rfl⟩ := hn.kindFits.eq_branch (by rw [hk]; rfl)
    show l.dialect.usesBraces = true
    rw [hn.1, hd]
  inked_eq := hi

theorem map (h : Retraced ns qs) {f : Node → Node} (hf : Shifts f) :
    Retraced ns (qs.map (mapBlock f)) := by
  have hkept := hf.allKept qs h.formed h.blank
  exact ⟨hkept.formed, hkept.blank, hkept.braced h.braced, hkept.inked_eq.trans h.inked_eq⟩

/-- **Edited sheets with one text have blocks of the same lengths.** -/
theorem map_ownLength_eq (h : Retraced ns qs) (h' : Retraced ns rs)
    (hchars : charsOf qs = charsOf rs) :
    (qs.flatMap withBlocks).map ownLength = (rs.flatMap withBlocks).map ownLength := by
  rw [map_ownLength_withBlocks h.braced, map_ownLength_withBlocks h'.braced]
  congr 1
  refine eq_of_inked (marksInk_markedOf qs) (marksInk_markedOf rs) ?_ ?_
  · rw [map_fst_markedOf, map_fst_markedOf, hchars]
  · rw [h.inked_eq, h'.inked_eq]

end Retraced

theorem exists_getElem?_of_map_eq {α β γ : Type} {f : α → γ} {g : β → γ} {xs : List α} {ys : List β}
    (h : xs.map f = ys.map g) {i : Nat} {x : α} (hx : xs[i]? = some x) :
    ∃ y, ys[i]? = some y ∧ f x = g y := by
  have hi := congrArg (·[i]?) h
  simp only [List.getElem?_map, hx, Option.map_some] at hi
  obtain ⟨y, hy, hxy⟩ := Option.map_eq_some_iff.1 hi.symm
  exact ⟨y, hy, hxy.symm⟩

namespace Parsed

variable {d : Dialect} {source : List Char} {tree : Node} {ts : List Token} {ns : List Node}

theorem blocks_eq (hp : Parsed d source tree ts ns) : tree.blocks = ns.flatMap withBlocks := by
  rw [hp.tree_eq, ofChildren, blocks_branch]

theorem retraced (hp : Parsed d source tree ts ns) (hd : d.usesBraces = true) : Retraced ns ns :=
  .of_sound hd (hp.reading.sound hp.spelled) rfl

end Parsed

/-! ## Vendor alignment -/

namespace VendorAlign

variable {d : Dialect}

mutual

/-- Vendor alignment only makes a text longer. -/
theorem length_chars_le : ∀ n : Node, n.All Formed → n.All Blank →
    n.chars.length ≤ (n.mapBlock (alignBlock d)).chars.length
  | .leaf l t, hn, _ => by rw [mapBlock_leaf hn.self.fits]
  | .branch l cs, hn, hb => by
    have hcs := length_charsOf_le cs hn.children hb.children
    by_cases hl : l.kind = .block
    · have hkept := (shifts_alignBlock d).allKept cs hn.children hb.children
      have hweigh := weigh_alignChildren (d := d) (k := l.dialect) weight_chars fun n hn =>
        ((allOf_iff _).1 hkept.formed n hn).self
      rw [weigh_chars, weigh_chars] at hweigh
      rw [mapBlock_alignBlock_of_block hl, chars, chars]
      simp only [List.length_append]
      omega
    · rw [mapBlock_alignBlock_of_ne hl, chars, chars]
      simp only [List.length_append]
      omega

theorem length_charsOf_le : ∀ ns : List Node, AllOf Formed ns → AllOf Blank ns →
    (charsOf ns).length ≤ (charsOf (ns.map (mapBlock (alignBlock d)))).length
  | [], _, _ => Nat.le_refl _
  | n :: ns, hn, hb => by
    obtain ⟨hn, hns⟩ := (allOf_cons n ns).1 hn
    obtain ⟨hb, hbs⟩ := (allOf_cons n ns).1 hb
    have h := length_chars_le n hn hb
    have hs := length_charsOf_le ns hns hbs
    simp only [List.map_cons, charsOf_cons, List.length_append]
    omega

end

/-- What stands in the blocks of a sheet behind vendor alignment. -/
theorem map_ownLength_withBlocks {qs : List Node} (hf : AllOf Formed qs) (hb : AllOf Blank qs) :
    ((qs.map (mapBlock (alignBlock d))).flatMap withBlocks).map ownLength =
      (qs.flatMap withBlocks).map fun block => ownLength block + shortfall d block.children := by
  rw [((shifts_alignBlock d).allKept qs hf hb).blocks_eq, List.map_map]
  refine List.map_congr_left fun block hblock => ?_
  obtain ⟨m, cs, rfl, hm, hfc, hbc⟩ := exists_of_mem_withBlocks hf hb hblock
  exact ownLength_mapBlock hm hfc hbc

end VendorAlign

/-! ## Colon alignment -/

theorem Token.textOf_sublist_loose (w : Position → Nat) (ts : List Token) :
    (textOf ts).Sublist (loose w ts) := by
  induction ts with
  | nil => exact .slnil
  | cons t ts ih =>
    have h := (List.sublist_append_right (List.replicate (w t.span.first) ' ') t.text).append ih
    simpa [textOf, loose] using h

namespace Colons

variable {d : Dialect} {source text : List Char} {tree again : Node} {ts us : List Token}
  {ns ms qs : List Node}

/-- What stands in the blocks of a sheet behind colon alignment. -/
theorem map_ownLength_withBlocks (h : AllOf (Sound d) ms) :
    ((ms.map (mapBlock alignBlock)).flatMap withBlocks).map ownLength =
      (ms.flatMap withBlocks).map fun block => ownLength block + slack block := by
  have hf : AllOf Formed ms := AllOf.imp (fun _ => formed_of_sound) ms (AllOf.below ms h)
  have hkept := shifts_alignBlock.allKept ms hf (AllOf.imp (fun _ => Sound.blank) ms h)
  rw [hkept.blocks_eq, List.map_map]
  refine List.map_congr_left fun block hblock => ?_
  obtain ⟨m, cs, rfl, hm, -, hcs⟩ := exists_of_mem_withBlocks hf h hblock
  exact ownLength_mapBlock hm hcs

theorem slack_of_length_le {block : Node} (h : (colons block.children).length ≤ 1) :
    slack block = 0 := by
  rw [slack_eq_zero_iff, isAligned_iff, level_iff]
  exact Braces.ownWidth_of_length_le h

/-- The tokens of an aligned sheet. -/
theorem spaced_of_aligned (hp : Parsed d source tree ts ns) (hp' : Parsed d text again us ms)
    (h : (tree.mapBlocks alignBlock).chars = text) : Spaced (width tree) ts us := by
  obtain ⟨vs, hlexes, hspaced⟩ := (lexes_of_tokens ts hp.tokens_eq).spaced
    (width_column_zero hp) (onColons hp)
  rw [← chars_aligned hp, h, ← tokens_eq_ok, hp'.tokens_eq] at hlexes
  obtain rfl := Except.ok.inj hlexes
  exact hspaced

/-- The blocks of an aligned sheet have as many colons as before. -/
theorem map_length_colons (hp : Parsed d source tree ts ns) (hp' : Parsed d text again us ms)
    (hd : d ≠ .sass) (h : (tree.mapBlocks alignBlock).chars = text) :
    again.blocks.map (fun block => (colons block.children).length) =
      tree.blocks.map fun block => (colons block.children).length := by
  obtain ⟨ms', hnodes, hfollows⟩ := exists_sheetNodes hp (spaced_of_aligned hp hp' h)
  rw [hp'.nodes_eq] at hnodes
  obtain rfl := Except.ok.inj hnodes
  have hgroups := (hfollows fun hsass => absurd hsass hd).groups_eq
  have htree : tree.children = ns := by rw [hp.tree_eq]; rfl
  have hagain : again.children = ms := by rw [hp'.tree_eq]; rfl
  rw [← htree, ← hagain, ← map_blocks, ← map_blocks] at hgroups
  have hlengths := congrArg (List.map List.length) hgroups
  simpa [Function.comp_def] using hlengths

/-- Without a shorter text before it, colon alignment that ends in the source has done nothing. -/
theorem eq_of_aligned_of_le (hp : Parsed d text again us ms)
    (h : (again.mapBlocks alignBlock).chars = source) (hle : source.length ≤ text.length) :
    text = source := by
  have htext : Token.textOf us = text := (lexes_of_tokens us hp.tokens_eq).textOf_eq
  rw [← htext, ← h, chars_aligned hp] at hle ⊢
  exact (Token.textOf_sublist_loose _ us).eq_of_length_le hle

/-- **Colon alignment that ends in the source has done nothing**, if only blocks with at most one
colon were made shorter before it. -/
theorem eq_of_aligned {g : Node → Nat} (hd : d ≠ .sass)
    (hp : Parsed d source tree ts ns) (hp' : Parsed d text again us ms)
    (h : (again.mapBlocks alignBlock).chars = source) (hq : Retraced ns qs)
    (hchars : charsOf qs = text) (hg : (qs.flatMap withBlocks).map ownLength = tree.blocks.map g)
    (hle : ∀ block ∈ tree.blocks, 1 < (colons block.children).length →
      ownLength block ≤ g block) : text = source := by
  have hbraces := Dialect.usesBraces_of_ne hd
  have hsound := hp'.reading.sound hp'.spelled
  have hinked := hp'.inked_spaced hp hbraces (spaced_of_aligned hp' hp h)
  have hagain : Retraced ns ms := .of_sound hbraces hsound hinked.symm
  have hcolons := map_length_colons hp' hp hd h
  -- what stands in a block before colon alignment and behind it
  have hbefore : again.blocks.map ownLength = tree.blocks.map g := by
    rw [← hg, hp'.blocks_eq]
    exact hagain.map_ownLength_eq hq (hp'.charsOf_eq.trans hchars.symm)
  have hbehind : (again.blocks.map fun block => ownLength block + slack block) =
      tree.blocks.map ownLength := by
    rw [hp'.chars_mapBlocks] at h
    rw [hp'.blocks_eq, hp.blocks_eq, ← map_ownLength_withBlocks hsound]
    exact (hagain.map shifts_alignBlock).map_ownLength_eq (hp.retraced hbraces)
      (h.trans hp.charsOf_eq.symm)
  have haligned : ∀ block ∈ again.blocks, isAligned block = true := by
    intro block' hblock'
    obtain ⟨i, hi⟩ := List.getElem?_of_mem hblock'
    obtain ⟨block, hblock, hlength⟩ := exists_getElem?_of_map_eq hbehind hi
    obtain ⟨block₁, hblock₁, hgain⟩ := exists_getElem?_of_map_eq hbefore hi
    obtain ⟨block₂, hblock₂, hcount⟩ := exists_getElem?_of_map_eq hcolons.symm hi
    rw [hblock] at hblock₁ hblock₂
    cases hblock₁
    cases hblock₂
    rw [← slack_eq_zero_iff]
    by_cases hc : (colons block'.children).length ≤ 1
    · exact slack_of_length_le hc
    · have hblock := hle block (List.mem_of_getElem? hblock) (by omega)
      omega
  rw [← h]
  exact ((aligned_eq_iff hp').2 haligned).symm

theorem map_kind_padAll (target : Nat) (ns : List Node) (cs : List (Option Nat)) :
    (padAll target ns cs).map Node.kind = ns.map Node.kind := by
  fun_induction padAll target ns cs with
  | case1 n ns column cs ih => rw [List.map_cons, List.map_cons, kind_padColon, ih]
  | case2 n ns cs ih => rw [List.map_cons, List.map_cons, ih]
  | case3 ns => rfl
  | case4 cs => rfl

/-- Colon alignment does not change which blocks are inlinable. -/
theorem isInlinable_mapBlock {l : Label} (hl : l.kind = .block) (cs : List Node) :
    Inlining.isInlinable ((Node.branch l cs).mapBlock alignBlock) =
      Inlining.isInlinable (.branch l cs) := by
  have hkinds : (cs.map (mapBlock alignBlock)).map Node.kind = cs.map Node.kind := by
    rw [List.map_map]
    exact List.map_congr_left fun n _ => kind_mapBlock kind_alignBlock n
  rw [mapBlock, if_pos hl, mapBlocksOf_eq_map, alignBlock]
  split
  · exact Inlining.isInlinable_congr l hkinds
  · exact Inlining.isInlinable_congr l ((map_kind_padAll _ _ _).trans hkinds)

/-- A block with two colons is not inlinable. -/
theorem not_isInlinable {l : Label} {cs : List Node} (h : 1 < (colons cs).length) :
    Inlining.isInlinable (.branch l cs) = false := by
  have hle := Inlining.length_colons_le cs
  rw [Inlining.isInlinable_branch, decide_eq_false (by omega), Bool.false_and]

/-- **Colon alignment has done nothing if inlining behind it ends in the source.** -/
theorem eq_of_inlined (hd : d ≠ .sass) (hp : Parsed d source tree ts ns)
    (h : (Inlining.reshape (tree.mapBlocks alignBlock)).chars = source) :
    (tree.mapBlocks alignBlock).chars = source := by
  have hbraces := Dialect.usesBraces_of_ne hd
  have hsound := hp.reading.sound hp.spelled
  have htree := hp.retraced hbraces
  have haligned := htree.map shifts_alignBlock
  have hinlined := haligned.map Inlining.shifts_inlineBlock
  refine (aligned_eq_iff hp).2 fun block hblock => ?_
  rw [hp.blocks_eq] at hblock
  have hkept := shifts_alignBlock.allKept ns htree.formed htree.blank
  have hkept' := Inlining.shifts_inlineBlock.allKept _ haligned.formed haligned.blank
  -- what stands in a block at the end is what stood in it in the source
  have hsame : ownLength ((block.mapBlock alignBlock).mapBlock Inlining.inlineBlock) =
      ownLength block := by
    rw [hp.tree_eq, ofChildren, mapBlocks_branch, Inlining.reshape, mapBlocks_branch,
      chars_of_stylesheet rfl] at h
    have hlengths := hinlined.map_ownLength_eq htree (h.trans hp.charsOf_eq.symm)
    rw [hkept'.blocks_eq, hkept.blocks_eq, List.map_map, List.map_map] at hlengths
    exact List.map_inj_left.1 hlengths block hblock
  obtain ⟨l, cs, rfl, hl, hcs, hsound⟩ := exists_of_mem_withBlocks htree.formed hsound hblock
  rw [← slack_eq_zero_iff]
  by_cases hc : (colons cs).length ≤ 1
  · exact slack_of_length_le hc
  have hmem := List.mem_map_of_mem (f := mapBlock alignBlock) hblock
  rw [← hkept.blocks_eq] at hmem
  obtain ⟨m, ds, hds, hm, hformed, hblank⟩ := exists_of_mem_withBlocks haligned.formed haligned.blank hmem
  have hgrown := ownLength_mapBlock hl hsound
  have hinlinable := isInlinable_mapBlock hl cs
  rw [not_isInlinable (by omega), hds] at hinlinable
  rw [hds, Inlining.ownLength_mapBlock hm hformed hblank, hinlinable] at hsame
  have hlength : ownLength (.branch m ds) = weigh outside (squeeze false ds) := outsideOf_eq ds
  rw [hds] at hgrown
  omega

end Colons

end TidySheet
