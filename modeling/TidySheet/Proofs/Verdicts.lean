import Mathlib.Data.List.Forall2
import TidySheet.Proofs.ChangeFlags
import TidySheet.Proofs.DownwardWalks

/-!
# What the votes on a tree say about a run

A rule votes on the blocks of a tree and brings the tree into its form by other means: what it votes
on it reads, and what it changes it changes on a walk of its own. For two rules the votes are exact:
colons are voted for exactly in the trees that alignment leaves alone, and inlining turns each vote
on a tree into one for it.

* `Colons.detect_exact` — votes on colons and what alignment changes;
* `Inlining.Single`, `Inlining.Inlined` — the blocks that are inlined, and a tree after that;
* `Inlining.process_exact` — inlining takes the whitespace out of these blocks and does no more.
-/

set_option autoImplicit false

namespace TidySheet

open Node

theorem Node.isNone_first? (k : Kind) (n : Node) :
    (n.first? k).isNone = true ↔ ∀ c ∈ n.children, c.kind ≠ k := by
  rw [Option.isNone_iff_eq_none, first?, List.find?_eq_none]
  simp only [is_eq_true, ne_eq]

theorem Node.kind_of_mem_blocks {tree block : Node} (h : block ∈ tree.blocks) :
    block.kind = .block := by
  obtain ⟨visit, hvisit, rfl⟩ := List.mem_map.1 h
  exact is_eq_true.1 (List.mem_filter.1 hvisit).2

/-! ## Colons -/

namespace Colons

/-- Each block has one vote, which tells whether its leading colons share a column. -/
theorem forall₂_isAligned (blocks : List Node) :
    List.Forall₂ (fun block vote => vote = true ↔ Level (colons block.children)) blocks
      (blocks.map isAligned) := by
  rw [List.forall₂_map_right_iff, List.forall₂_same]
  exact fun block _ => isAligned_iff block

/-- **Votes on colons are exact**: whatever the dialect, each block of a parsed tree has one vote, in
document order, and all of them are for the rule exactly if a run leaves the text as it is. The run
can be done on a walk downward, which meets the blocks that were voted on. -/
theorem detect_exact (d : Dialect) (source : String) (tree : Node)
    (h : parse d source = .ok tree) :
    ∃ votes once, rule.detect tree = .ok votes ∧ rule.process tree = .ok once ∧
      List.Forall₂ (fun block vote => vote = true ↔ Level (colons block.children))
        tree.blocks votes ∧
      ((∀ vote ∈ votes, vote = true) ↔ once.render = tree.render) ∧
      tree.reshapeWithin .block (editor alignBlock) tree.depth [] = some (once, tree.blocks) := by
  obtain ⟨ts, ns, hp⟩ := parsed_of_parseChars h
  refine ⟨_, _, detect_of_parseChars h, process_of_parseChars h, forall₂_isAligned tree.blocks, ?_,
    hp.reshapeWithin_eq downward_alignBlock⟩
  have hrender : (tree.mapBlocks alignBlock).render = tree.render ↔
      (tree.mapBlocks alignBlock).chars = source.toList := by
    rw [← chars_of_parseChars h]
    exact String.ofList_inj
  rw [hrender, aligned_eq_iff hp, List.forall_mem_map]

/-- A sheet whose outer block has its colons in two columns, and the inner one in one. -/
def unevenSheet : String := "a\n  b\n    x: 1\n    y: 2\n  long: 3\n  m: 4"

theorem detect_exact_uneven : ∃ tree votes once, parse .sass unevenSheet = .ok tree ∧
    rule.detect tree = .ok votes ∧ votes = [false, true] ∧ rule.process tree = .ok once ∧
    once.render ≠ tree.render := by
  have hdetect : ((parse .sass unevenSheet).toOption.map fun tree =>
      (rule.detect tree).toOption) = some (some [false, true]) := by decide +kernel
  cases h : parse .sass unevenSheet with
  | error e => rw [h] at hdetect; cases hdetect
  | ok tree =>
    obtain ⟨votes, once, hvotes, honce, -, hiff, -⟩ := detect_exact _ _ _ h
    rw [h] at hdetect
    simp only [Except.toOption, Option.map_some, Option.some.injEq, hvotes] at hdetect
    refine ⟨tree, votes, once, rfl, hvotes, hdetect, honce, fun hsame => ?_⟩
    have hfalse := hiff.2 hsame false (by rw [hdetect]; exact List.mem_cons_self)
    cases hfalse

end Colons

/-! ## Inlined blocks -/

namespace Inlining

/-- Children that go on one line: at most one declaration or nested ruleset, and no comment that runs
to the end of its line. -/
def Single (cs : List Node) : Prop :=
  cs.countP (fun c => c.kind = .declaration ∨ c.kind = .ruleset) ≤ 1 ∧
    ∀ c ∈ cs, c.kind ≠ .singlelineComment

instance (cs : List Node) : Decidable (Single cs) :=
  inferInstanceAs (Decidable (cs.countP (fun c => c.kind = .declaration ∨ c.kind = .ruleset) ≤ 1 ∧
    ∀ c ∈ cs, c.kind ≠ .singlelineComment))

/-- **A node in an inlined tree**: a block with one statement has lost the whitespace among its
children, and nothing else is changed. -/
inductive Inlined : Node → Node → Prop
  | leaf (l : Label) (t : List Char) : Inlined (.leaf l t) (.leaf l t)
  | squeezed {l : Label} {cs ds : List Node} (hl : l.kind = .block) (hs : Single cs)
      (h : List.Forall₂ Inlined (cs.filter fun c => c.kind ≠ .space) ds) :
      Inlined (.branch l cs) (.branch l ds)
  | kept {l : Label} {cs ds : List Node} (hl : l.kind = .block → ¬ Single cs)
      (h : List.Forall₂ Inlined cs ds) : Inlined (.branch l cs) (.branch l ds)

theorem isInlinable_iff (block : Node) : isInlinable block = true ↔ Single block.children := by
  have hcount : (block.children.filter fun c => c.is .declaration || c.is .ruleset).length =
      block.children.countP fun c => c.kind = .declaration ∨ c.kind = .ruleset := by
    rw [← List.countP_eq_length_filter]
    exact List.countP_congr fun c _ => by simp [is]
  rw [isInlinable, Bool.and_eq_true, decide_eq_true_eq, hcount, isNone_first?, Single]

theorem squeeze_true (cs : List Node) : squeeze true cs = cs.filter fun c => c.kind ≠ .space := by
  unfold squeeze
  rw [if_pos rfl]
  exact List.filter_congr fun c _ => by rw [decide_not, is, beq_eq_decide]

/-- **The walk over blocks inlines each node.** -/
theorem inlined_mapBlock (n : Node) : Inlined n (n.mapBlock inlineBlock) := by
  induction n using inductionOnChildren with
  | leaf l t =>
    rw [mapBlock_leaf]
    exact .leaf l t
  | branch l cs ih =>
    have hmap : ∀ ms : List Node, ms ⊆ cs →
        List.Forall₂ Inlined ms (ms.map (mapBlock inlineBlock)) := by
      intro ms hms
      rw [List.forall₂_map_right_iff, List.forall₂_same]
      exact fun n hn => ih n (hms hn)
    by_cases hl : l.kind = .block
    · rw [mapBlock_of_block hl]
      cases hdense : isInlinable (.branch l cs) with
      | true =>
        rw [squeeze_true]
        exact .squeezed hl ((isInlinable_iff _).1 hdense) (hmap _ (List.filter_subset_self cs))
      | false =>
        refine .kept (fun _ hs => ?_) (hmap cs (List.Subset.refl cs))
        rw [(isInlinable_iff (.branch l cs)).2 hs] at hdense
        cases hdense
    · rw [mapBlock, if_neg hl, mapBlocksOf_eq_map]
      exact .kept (fun hk => absurd hk hl) (hmap cs (List.Subset.refl cs))

/-- **The blocks of an inlined tree** are those of the tree, inlined. -/
theorem withBlocks_mapBlock {n : Node} (hn : n.All Flat) :
    (n.mapBlock inlineBlock).withBlocks = n.withBlocks.map (mapBlock inlineBlock) := by
  induction n using inductionOnChildren with
  | leaf l t =>
    rw [mapBlock_leaf, withBlocks, blocks_eq_flatMap]
    split <;> simp [children, mapBlock_leaf]
  | branch l cs ih =>
    have hcs : AllOf Flat cs := hn.children
    have hmap : ∀ ms : List Node, ms ⊆ cs → (ms.map (mapBlock inlineBlock)).flatMap withBlocks =
        (ms.flatMap withBlocks).map (mapBlock inlineBlock) := by
      intro ms hms
      rw [List.flatMap_map, List.map_flatMap]
      exact List.flatMap_congr fun n hn => ih n (hms hn) ((allOf_iff cs).1 hcs n (hms hn))
    by_cases hl : l.kind = .block
    · rw [withBlocks_of_block hl, List.map_cons, mapBlock_of_block hl, withBlocks_of_block hl,
        hmap _ (squeeze_sublist _ cs).subset, flatMap_squeeze _ hcs]
    · rw [withBlocks_of_ne hl, mapBlock, if_neg hl, mapBlocksOf_eq_map, withBlocks_of_ne hl,
        hmap cs (List.Subset.refl cs)]

theorem Inlined.kind_eq {m n : Node} (h : Inlined m n) : n.kind = m.kind := by
  cases h <;> rfl

theorem map_kind_of_inlined {cs ds : List Node} (h : List.Forall₂ Inlined cs ds) :
    ds.map Node.kind = cs.map Node.kind := by
  induction h with
  | nil => rfl
  | cons hn _ ih => rw [List.map_cons, List.map_cons, hn.kind_eq, ih]

theorem single_congr {cs ds : List Node} (h : ds.map Node.kind = cs.map Node.kind) :
    Single ds ↔ Single cs := by
  have hsingle : ∀ ns : List Node, Single ns ↔
      (ns.map Node.kind).countP (fun k => k = .declaration ∨ k = .ruleset) ≤ 1 ∧
        ∀ k ∈ ns.map Node.kind, k ≠ .singlelineComment := by
    intro ns
    rw [List.countP_map, List.forall_mem_map]
    rfl
  rw [hsingle, hsingle, h]

theorem single_filter (cs : List Node) :
    Single (cs.filter fun c => c.kind ≠ .space) ↔ Single cs := by
  have hcount : (cs.filter fun c => c.kind ≠ .space).countP
      (fun c => c.kind = .declaration ∨ c.kind = .ruleset) =
        cs.countP fun c => c.kind = .declaration ∨ c.kind = .ruleset := by
    rw [List.countP_filter]
    refine List.countP_congr fun c _ => ?_
    simp only [Bool.and_eq_true, decide_eq_true_eq, and_iff_left_iff_imp]
    rintro (hk | hk) <;> rw [hk] <;> decide
  have hcomments : (∀ c ∈ cs.filter fun c => c.kind ≠ .space, c.kind ≠ .singlelineComment) ↔
      ∀ c ∈ cs, c.kind ≠ .singlelineComment := by
    constructor
    · intro h c hc hk
      exact h c (List.mem_filter.2 ⟨hc, by rw [hk]; rfl⟩) hk
    · exact fun h c hc => h c (List.mem_filter.1 hc).1
  rw [Single, Single, hcount, hcomments]

/-- Inlining does not change which blocks can be inlined. -/
theorem Inlined.single_iff {m n : Node} (h : Inlined m n) :
    Single n.children ↔ Single m.children := by
  cases h with
  | leaf l t => exact Iff.rfl
  | @squeezed l cs ds _ _ h => exact (single_congr (map_kind_of_inlined h)).trans (single_filter cs)
  | kept _ h => exact single_congr (map_kind_of_inlined h)

/-- An inlined block has no whitespace among its children. -/
theorem Inlined.kind_ne_space {m n : Node} (h : Inlined m n) (hk : m.kind = .block)
    (hs : Single m.children) : ∀ c ∈ n.children, c.kind ≠ .space := by
  cases h with
  | leaf l t => exact fun c hc => nomatch hc
  | squeezed _ _ h =>
    intro d hd
    have hmem := List.mem_map_of_mem (f := Node.kind) hd
    rw [children, map_kind_of_inlined h] at hmem
    obtain ⟨c, hc, hcd⟩ := List.mem_map.1 hmem
    rw [← hcd]
    exact of_decide_eq_true (List.mem_filter.1 hc).2
  | kept hl _ => exact absurd hs (hl hk)

theorem children_reshape (tree : Node) :
    (reshape tree).children = tree.children.map (mapBlock inlineBlock) := by
  cases tree with
  | leaf l t => rfl
  | branch l cs => exact mapBlocksOf_eq_map inlineBlock cs

theorem blocks_reshape {tree : Node} (hs : tree.All Flat) :
    (reshape tree).blocks = tree.blocks.map (mapBlock inlineBlock) := by
  rw [blocks_eq_flatMap, blocks_eq_flatMap, children_reshape, List.flatMap_map, List.map_flatMap]
  exact List.flatMap_congr fun n hn => withBlocks_mapBlock ((allOf_iff _).1 hs.children n hn)

/-- Inlining leaves no block with whitespace to take out. -/
theorem not_squeezes_of_mem {tree : Node} (hs : tree.All Flat) :
    ∀ block ∈ (reshape tree).blocks, ¬ Squeezes block := by
  rw [blocks_reshape hs, List.forall_mem_map]
  rintro block hblock ⟨hinlinable, s, hmem, hspace⟩
  have h := inlined_mapBlock block
  rw [isInlinable_iff, h.single_iff] at hinlinable
  exact h.kind_ne_space (kind_of_mem_blocks hblock) hinlinable s hmem hspace

/-- **Inlining twice changes nothing more.** -/
theorem reshape_reshape {tree : Node} (hs : tree.All Flat) :
    reshape (reshape tree) = reshape tree := by
  have hblocks : AllOf (fun m => m.kind = .block → inlineBlock m = m) (reshape tree).children := by
    rw [← forall_mem_blocks]
    exact fun block hblock => inlineBlock_eq_self (not_squeezes_of_mem hs block hblock)
  generalize reshape tree = out at hblocks ⊢
  rw [reshape, mapBlocks, mapBlocksOf_eq_self _ hblocks]
  cases out <;> rfl

/-- **Inlining turns the votes into votes for it.** -/
theorem votes_reshape {tree : Node} (hs : tree.All Flat) :
    votes (reshape tree) = List.replicate (votes tree).length true := by
  rw [List.eq_replicate_iff]
  constructor
  · have hsame : isInlinable ∘ mapBlock inlineBlock = isInlinable := by
      funext block
      rw [Function.comp, Bool.eq_iff_iff, isInlinable_iff, isInlinable_iff,
        (inlined_mapBlock block).single_iff]
    rw [votes, votes, List.length_map, List.length_map, blocks_reshape hs, List.filter_map,
      List.length_map, hsame]
  · intro vote hvote
    obtain ⟨block, hblock, rfl⟩ := List.mem_map.1 hvote
    obtain ⟨hmem, hinlinable⟩ := List.mem_filter.1 hblock
    have hnone := not_squeezes_of_mem hs block hmem
    rw [isNone_first?]
    intro c hc hspace
    exact hnone ⟨hinlinable, c, hc, hspace⟩

theorem forall₂_votes (tree : Node) :
    List.Forall₂ (fun block vote => vote = true ↔ ∀ c ∈ block.children, c.kind ≠ .space)
      (tree.blocks.filter fun block => Single block.children) (votes tree) := by
  have hfilter : tree.blocks.filter (fun block => Single block.children) =
      tree.blocks.filter isInlinable :=
    List.filter_congr fun block _ => by rw [Bool.eq_iff_iff, decide_eq_true_eq, isInlinable_iff]
  rw [hfilter, votes, List.forall₂_map_right_iff, List.forall₂_same]
  exact fun block _ => isNone_first? .space block

/-- **Inlining does its job and no more**, on any tree whose whitespace holds text: each block with
one statement loses the whitespace among its children, all else stays as it is, and no block becomes
or ceases to be such a block. The votes are on these blocks; behind a run they are as many, all for
the rule, and a second run changes nothing. The run can be done on a walk downward, which meets each
block as it was in the tree. -/
theorem process_exact (tree : Node) (hd : tree.dialect ≠ .sass) (hs : tree.All Flat) :
    ∃ out ballot, rule.process tree = .ok out ∧ rule.detect tree = .ok ballot ∧
      (out.label = tree.label ∧ out.text? = tree.text? ∧
        List.Forall₂ Inlined tree.children out.children) ∧
      List.Forall₂ (fun block block' => Inlined block block' ∧
        (Single block'.children ↔ Single block.children)) tree.blocks out.blocks ∧
      List.Forall₂ (fun block vote => vote = true ↔ ∀ c ∈ block.children, c.kind ≠ .space)
        (tree.blocks.filter fun block => Single block.children) ballot ∧
      rule.detect out = .ok (List.replicate ballot.length true) ∧ rule.process out = .ok out ∧
      tree.reshapeWithin .block (editor inlineBlock) tree.depth [] = some (out, tree.blocks) := by
  have hlabel : (reshape tree).label = tree.label := label_mapBlocks inlineBlock tree
  have hdout : (reshape tree).dialect ≠ .sass := by rwa [dialect, hlabel]
  refine ⟨reshape tree, votes tree, process_of_ne hd, detect_of_ne hd,
    ⟨hlabel, ?_, ?_⟩, ?_, forall₂_votes tree, ?_, ?_, ?_⟩
  · cases tree <;> rfl
  · rw [children_reshape, List.forall₂_map_right_iff, List.forall₂_same]
    exact fun n _ => inlined_mapBlock n
  · rw [blocks_reshape hs, List.forall₂_map_right_iff, List.forall₂_same]
    exact fun block _ => ⟨inlined_mapBlock block, (inlined_mapBlock block).single_iff⟩
  · rw [detect_of_ne hdout, votes_reshape hs]
  · rw [process_of_ne hdout, reshape_reshape hs]
  · exact downward_inlineBlock.reshapeWithin_eq hs.children

/-- A block with one nested ruleset. The block of that has two declarations and a ruleset, and the
innermost block has one declaration again. -/
def nestedTree : Node :=
  let space := Node.ofSpace .scss [' ']
  let declaration (name : Char) := Node.ofChildren .declaration .scss
    [.ofText .property .scss [name], .ofText .propertyDelimiter .scss [':'],
      .ofText .value .scss ['0']]
  let ruleset (cs : List Node) := Node.ofChildren .ruleset .scss [.ofChildren .block .scss cs]
  .ofChildren .stylesheet .scss [ruleset [space, ruleset [declaration 'x', space, declaration 'y',
    space, ruleset [space, declaration 'z', space]], space]]

theorem process_exact_nested : nestedTree.dialect ≠ .sass ∧ nestedTree.All Flat ∧
    ∃ out, rule.process nestedTree = .ok out ∧ rule.detect nestedTree = .ok [false, false] ∧
      out.blocks.length = 3 ∧ rule.detect out = .ok [true, true] ∧ rule.process out = .ok out := by
  have hd : nestedTree.dialect ≠ .sass := by decide
  have hs : nestedTree.All Flat := by
    simp [nestedTree, ofChildren, ofSpace, ofText, Flat, kind, label, text?]
  have hdetect : rule.detect nestedTree = .ok [false, false] := by decide +kernel
  obtain ⟨out, ballot, hprocess, hballot, -, hblocks, -, hout, hagain, -⟩ :=
    process_exact nestedTree hd hs
  rw [hdetect] at hballot
  cases hballot
  refine ⟨hd, hs, out, hprocess, hdetect, ?_, hout, hagain⟩
  rw [← hblocks.length_eq]
  decide +kernel

end Inlining

end TidySheet
