import TidySheet.Proofs.ColonAlignment
import TidySheet.Proofs.BlockWalks

/-!
# Inlining blocks with aligned colons

The alignment of a block changes each of its declarations on its own, and nothing that inlining
looks at. So an aligned sheet, inlined, prints as the inlined sheet with the blanks before its
colons.

* `Colons.alignBlock_eq_map` — alignment moves the colon of each declaration;
* `Inlining.isInlinable_map` — inlining looks at the kinds of nodes;
* `Inlining.chars_reshape_aligned` — what an aligned sheet prints once it is inlined.
-/

set_option autoImplicit false

namespace TidySheet

open Node

namespace Colons

/-! ## Moving colons -/

/-- A declaration with blanks before its colon. -/
def moveColon (w : Position → Nat) (n : Node) : Node :=
  match colon? n with
  | some p => padColon (w p) n
  | none => n

theorem moveColon_of_none {n : Node} (h : colon? n = none) (w : Position → Nat) :
    moveColon w n = n := by
  rw [moveColon, h]

theorem moveColon_of_zero {n : Node} {w : Position → Nat} (h : ∀ p, colon? n = some p → w p = 0) :
    moveColon w n = n := by
  unfold moveColon
  split
  · rename_i p hp
    rw [h p hp, padColon, if_pos rfl]
  · rfl

theorem kind_padColon (k : Nat) (n : Node) : (padColon k n).kind = n.kind := by
  unfold padColon
  split
  · rfl
  · split
    · rfl
    · cases n <;> rfl

theorem kind_moveColon (w : Position → Nat) (n : Node) : (moveColon w n).kind = n.kind := by
  unfold moveColon
  split
  · exact kind_padColon _ n
  · rfl

/-- Padding the leading colons moves each of them on its own. -/
theorem padAll_eq_map (target : Nat) (line : Option Nat) {ns : List Node}
    (h : (colons ns).Nodup) :
    padAll target ns (columns line ns) = ns.map (moveColon fun p =>
      if p ∈ leading line (colons ns) then target - p.column else 0) := by
  induction ns generalizing line with
  | nil => rfl
  | cons n ns ih =>
    rw [columns, List.map_cons]
    cases hc : colon? n with
    | none =>
      rw [colons_cons, hc] at h ⊢
      rw [moveColon_of_none hc]
      exact congrArg _ (ih line h)
    | some p =>
      rw [colons_cons, hc] at h ⊢
      obtain ⟨hp, hnodup⟩ := List.nodup_cons.1 h
      have hnot : p ∉ leading (some p.line) (colons ns) := fun hm => hp (mem_of_mem_leading hm)
      have hrest := ih (some p.line) hnodup
      simp only [Option.toList_some, List.singleton_append, leading]
      by_cases hline : line = some p.line
      · simp only [hline, if_true, padAll]
        rw [moveColon_of_zero fun q hq => ?_]
        · exact congrArg _ hrest
        · rw [hc, Option.some.injEq] at hq
          rw [← hq, if_neg hnot]
      · simp only [hline, if_false, padAll]
        rw [hrest, moveColon, hc]
        simp only [List.mem_cons, true_or, if_true]
        refine congrArg _ (List.map_congr_left fun m hm => ?_)
        -- another colon of the block is not the first one
        unfold moveColon
        split
        · rename_i q hq
          have hne : q ≠ p := by
            rintro rfl
            exact hp (List.mem_filterMap.2 ⟨m, hm, hq⟩)
          simp [hne]
        · rfl

/-- **Alignment moves the colon of each declaration** of a block. -/
theorem alignBlock_eq_map {l : Label} {cs : List Node} (h : (colons cs).Nodup) :
    alignBlock (.branch l cs) = .branch l (cs.map (moveColon (ownWidth (colons cs)))) := by
  rw [alignBlock_branch]
  split
  · rename_i hnil
    refine congrArg _ ((List.map_congr_left fun n hn => ?_).trans (List.map_id _)).symm
    refine moveColon_of_zero fun p _ => ?_
    rw [ownWidth, hnil, if_neg (by simp)]
  · rw [padAll_eq_map _ _ h]
    rfl

theorem allOf_padEnd {P : Node → Prop} {d : Dialect} {padding : List Char} {ns : List Node}
    (hs : ∀ l t, l.kind = .space → P (.leaf l t)) (h : AllOf P ns) :
    AllOf P (padEnd d padding ns) := by
  rcases padEnd_eq d padding ns with ⟨ms, l, t, hk, rfl, hpad⟩ | hpad
  · rw [allOf_append] at h
    rw [hpad, allOf_append, allOf_cons, all_leaf]
    exact ⟨h.1, hs l _ hk, allOf_nil⟩
  · rw [hpad, allOf_append, allOf_cons, ofSpace, ofText, all_leaf]
    exact ⟨h, hs _ _ rfl, allOf_nil⟩

/-- A declaration holds no block, however far its colon is moved. -/
theorem no_block_padColon {n : Node} (h : n.All fun m => m.kind ≠ .block) (k : Nat) :
    (padColon k n).All fun m => m.kind ≠ .block := by
  unfold padColon
  split
  · exact h
  · split
    · exact h
    · rename_i before colon behind hcut
      cases n with
      | leaf l t => exact h
      | branch l cs =>
        have hcs : cs = before ++ colon :: behind := eq_of_cutFirst? hcut
        rw [all_branch, hcs, allOf_append] at h
        rw [withChildren, all_branch, allOf_append]
        refine ⟨h.1, allOf_padEnd (fun m t hm hk => ?_) h.2.1, h.2.2⟩
        rw [show m.kind = .block from hk] at hm
        cases hm

end Colons

/-! ## Kinds of nodes -/

namespace Inlining

open Colons

theorem kind_inlineBlock (block : Node) : (inlineBlock block).kind = block.kind := by
  unfold inlineBlock
  split
  · cases block <;> rfl
  · rfl

theorem supports_of_ne {d : Dialect} (hd : d ≠ .sass) : rule.supports d = true := by
  cases d with
  | sass => exact absurd rfl hd
  | css | less | scss => rfl

theorem process_of_ne {tree : Node} (hd : tree.dialect ≠ .sass) :
    rule.process tree = .ok (reshape tree) := by
  rw [Rule.process, if_pos (supports_of_ne hd)]
  rfl

theorem detect_of_ne {tree : Node} (hd : tree.dialect ≠ .sass) :
    rule.detect tree = .ok (votes tree) := by
  rw [Rule.detect, if_pos (supports_of_ne hd)]
  rfl

/-- The number of declarations and nested rulesets among siblings. -/
def statements (ns : List Node) : Nat :=
  (ns.filter fun n => n.is .declaration || n.is .ruleset).length

theorem isInlinable_branch (l : Label) (cs : List Node) : isInlinable (.branch l cs) =
    (decide (statements cs ≤ 1) && cs.all fun n => n.kind != .singlelineComment) := by
  have hfirst : ((Node.branch l cs).first? .singlelineComment).isNone =
      cs.all fun n => n.kind != .singlelineComment := by
    rw [Bool.eq_iff_iff, Option.isNone_iff_eq_none, first?, List.find?_eq_none, List.all_eq_true]
    simp [is, children]
  rw [isInlinable, hfirst]
  rfl

variable {f g : Node → Node} {ns : List Node}

theorem statements_map (hf : ∀ n ∈ ns, (f n).kind = n.kind) :
    statements (ns.map f) = statements ns := by
  induction ns with
  | nil => rfl
  | cons n ns ih =>
    have hrest := ih fun m hm => hf m (by simp [hm])
    have hn := hf n (by simp)
    unfold statements at hrest ⊢
    simp only [is] at hrest ⊢
    rw [List.map_cons, List.filter_cons, List.filter_cons, hn]
    split
    · rw [List.length_cons, List.length_cons, hrest]
    · exact hrest

/-- Whether a block is inlined depends on the kinds of its children. -/
theorem isInlinable_map (l : Label) (hf : ∀ n ∈ ns, (f n).kind = n.kind) :
    isInlinable (.branch l (ns.map f)) = isInlinable (.branch l ns) := by
  have hall : (ns.map f).all (fun n => n.kind != .singlelineComment) =
      ns.all fun n => n.kind != .singlelineComment := by
    rw [List.all_map, Bool.eq_iff_iff, List.all_eq_true, List.all_eq_true]
    refine forall₂_congr fun n hn => ?_
    rw [Function.comp, hf n hn]
  rw [isInlinable_branch, isInlinable_branch, statements_map hf, hall]

/-- Squeezed nodes print as their likes do with blanks. -/
theorem charsOf_squeeze_map {w : Position → Nat} (dense : Bool)
    (hf : ∀ n ∈ ns, (f n).kind = n.kind) (hg : ∀ n ∈ ns, (g n).kind = n.kind)
    (hc : ∀ n ∈ ns, (f n).chars = paddedChars w (g n)) :
    charsOf (squeeze dense (ns.map f)) = paddedCharsOf w (squeeze dense (ns.map g)) := by
  induction ns with
  | nil => cases dense <;> simp [squeeze]
  | cons n ns ih =>
    have hrest := ih (fun m hm => hf m (by simp [hm])) (fun m hm => hg m (by simp [hm]))
      fun m hm => hc m (by simp [hm])
    have hfn := hf n (by simp)
    have hgn := hg n (by simp)
    rw [List.map_cons, List.map_cons]
    by_cases hdrop : dense = true ∧ n.kind = .space
    · obtain ⟨rfl, hk⟩ := hdrop
      rw [squeeze_of_space (by rw [hfn, hk]), squeeze_of_space (by rw [hgn, hk]), hrest]
    · have hkeep : ∀ {m : Node} (ms : List Node), m.kind = n.kind →
          squeeze dense (m :: ms) = m :: squeeze dense ms := by
        intro m ms hm
        cases dense with
        | false => rfl
        | true => exact squeeze_cons (fun hk => hdrop ⟨rfl, by rw [← hm, hk]⟩) ms
      rw [hkeep _ hfn, hkeep _ hgn, charsOf_cons, paddedCharsOf_cons, hc n (by simp), hrest]

/-! ## Aligned sheets -/

variable {w : Position → Nat} {d : Dialect}

theorem kind_mapBlock_inlineBlock (n : Node) : (n.mapBlock inlineBlock).kind = n.kind :=
  kind_mapBlock kind_inlineBlock n

theorem kind_inlined_aligned (n : Node) :
    ((mapBlock inlineBlock ∘ mapBlock alignBlock) n).kind = n.kind := by
  rw [Function.comp, kind_mapBlock_inlineBlock, kind_mapBlock kind_alignBlock]

/-- **A block with aligned colons, inlined.** -/
theorem chars_block {l : Label} {cs : List Node} (hl : l.kind = .block) (hcs : AllOf (Sound d) cs)
    (hnodup : (colonPlacesOf cs).Nodup)
    (hw : ∀ p ∈ colonPlacesOf cs, w p = widthIn (groups (.branch l cs)) p)
    (hmem : ∀ n ∈ cs, (∀ p ∈ colonPlaces n, w p = widthIn (groups n) p) →
      ((n.mapBlock alignBlock).mapBlock inlineBlock).chars =
        paddedChars w (n.mapBlock inlineBlock)) :
    ((alignBlock (.branch l (cs.map (mapBlock alignBlock)))).mapBlock inlineBlock).chars =
      paddedChars w ((Node.branch l cs).mapBlock inlineBlock) := by
  have hsound := (allOf_iff cs).1 hcs
  have hcolons : colons (cs.map (mapBlock alignBlock)) = colons cs :=
    colons_map fun n hn => colon?_mapBlock (formed_of_sound (hsound n hn))
  have haligned : alignBlock (.branch l (cs.map (mapBlock alignBlock))) =
      .branch l (cs.map (moveColon (ownWidth (colons cs)) ∘ mapBlock alignBlock)) := by
    rw [alignBlock_eq_map (by rw [hcolons]; exact (colons_sublist hcs).nodup hnodup), hcolons,
      List.map_map]
  have hkind : ∀ n ∈ cs, ((moveColon (ownWidth (colons cs)) ∘ mapBlock alignBlock) n).kind =
      n.kind := by
    intro n _
    rw [Function.comp, kind_moveColon, kind_mapBlock kind_alignBlock]
  have hchars : ∀ n ∈ cs, (((moveColon (ownWidth (colons cs)) ∘ mapBlock alignBlock) n).mapBlock
      inlineBlock).chars = paddedChars w (n.mapBlock inlineBlock) := by
    intro n hn
    have hcolon := colon?_mapBlock (formed_of_sound (hsound n hn))
    cases hc : colon? n with
    | none =>
      rw [hc] at hcolon
      rw [Function.comp, moveColon_of_none hcolon]
      exact hmem n hn fun p hp => width_eq_widthIn hl hcs hnodup hw hn hc hp
    | some p =>
      have hk := kind_of_colon? hc
      have hformed := formed_of_sound (hsound n hn)
      have hwidth : ownWidth (colons cs) p = w p := (width_eq_own hl hcs hnodup hw hn hc).symm
      rw [Function.comp, mapBlock_declaration hformed hk, mapBlock_declaration hformed hk,
        moveColon, hc]
      show ((padColon (ownWidth (colons cs) p) n).mapBlock inlineBlock).chars = _
      rw [mapBlock_of_no_block _ (no_block_padColon (hformed.no_block hk) _), hwidth]
      exact chars_padColon (hsound n hn) hc
  have hinlined : ∀ n ∈ cs, ((mapBlock inlineBlock ∘ moveColon (ownWidth (colons cs)) ∘
      mapBlock alignBlock) n).kind = n.kind := by
    intro n hn
    rw [Function.comp, kind_mapBlock_inlineBlock]
    exact hkind n hn
  have htext := charsOf_squeeze_map (isInlinable (.branch l cs)) hinlined
    (fun n _ => kind_mapBlock_inlineBlock n) hchars
  rw [haligned, Braces.mapBlock_block l hl, Braces.mapBlock_block l hl, List.map_map, chars,
    paddedChars, isInlinable_map l hinlined,
    isInlinable_map l fun n _ => kind_mapBlock_inlineBlock n, htext]

/-- **Aligned nodes, inlined, print with the blanks of all their blocks.** -/
theorem chars_mapBlock_mapBlock (n : Node) (hn : n.All (Sound d)) (hnodup : (colonPlaces n).Nodup)
    (hw : ∀ p ∈ colonPlaces n, w p = widthIn (groups n) p) :
    ((n.mapBlock alignBlock).mapBlock inlineBlock).chars =
      paddedChars w (n.mapBlock inlineBlock) := by
  induction n using inductionOnChildren with
  | leaf l t =>
    have hl : l.kind.isLeaf = true := hn.self.kindFits
    have hchars := chars_mapBlock (.leaf l t) hn hnodup hw
    rw [mapBlock_leaf hl] at hchars
    rw [mapBlock_leaf hl, mapBlock_leaf hl, hchars]
  | branch l cs ih =>
    have hcs : AllOf (Sound d) cs := hn.children
    rw [colonPlaces] at hnodup hw
    have hmem : ∀ n ∈ cs, (∀ p ∈ colonPlaces n, w p = widthIn (groups n) p) →
        ((n.mapBlock alignBlock).mapBlock inlineBlock).chars =
          paddedChars w (n.mapBlock inlineBlock) := fun n hm =>
      ih n hm ((allOf_iff cs).1 hcs n hm) (nodup_colonPlaces hnodup hm)
    by_cases hl : l.kind = .block
    · rw [mapBlock, if_pos hl, mapBlocksOf_eq_map]
      exact chars_block hl hcs hnodup hw hmem
    · rw [groups, if_neg hl] at hw
      have hchars : ∀ n ∈ cs, ((n.mapBlock alignBlock).mapBlock inlineBlock).chars =
          paddedChars w (n.mapBlock inlineBlock) := by
        intro n hm
        refine hmem n hm fun p hp => ?_
        rw [hw p (mem_colonPlacesOf hm hp), widthIn_groupsOf hcs hnodup hm hp]
      have htext := charsOf_squeeze_map false (fun n _ => kind_inlined_aligned n)
        (fun n _ => kind_mapBlock_inlineBlock n) hchars
      rw [mapBlock, if_neg hl, mapBlock, if_neg hl, mapBlock, if_neg hl, mapBlocksOf_eq_map,
        mapBlocksOf_eq_map, mapBlocksOf_eq_map, List.map_map, chars, paddedChars]
      exact congrArg (fun text => (branchMarks l).1 ++ text ++ (branchMarks l).2) htext

/-- **What an aligned sheet prints once it is inlined**: the inlined sheet with the blanks of its
alignment. -/
theorem chars_reshape_aligned {source : List Char} {tree : Node} {ts : List Token}
    {ns : List Node} (hp : Parsed d source tree ts ns) :
    (reshape (tree.mapBlocks alignBlock)).chars =
      paddedCharsOf (width tree) (ns.map (mapBlock inlineBlock)) := by
  have hsound := hp.reading.sound hp.spelled
  have htext := charsOf_squeeze_map false (fun n _ => kind_inlined_aligned n)
    (fun n _ => kind_mapBlock_inlineBlock n) fun n hn =>
      chars_mapBlock_mapBlock (w := width tree) n ((allOf_iff ns).1 hsound n hn)
        (nodup_colonPlaces (nodup_places hp) hn) fun p hp' => by
          rw [width_tree hp, widthIn_groupsOf hsound (nodup_places hp) hn hp']
  have hchildren : (reshape (tree.mapBlocks alignBlock)).chars =
      charsOf (ns.map (mapBlock inlineBlock ∘ mapBlock alignBlock)) := by
    rw [hp.tree_eq, reshape, mapBlocks, mapBlocks, mapBlocksOf_eq_map, mapBlocksOf_eq_map]
    simp [withChildren, ofChildren, children, Node.chars, branchMarks]
  rw [hchildren]
  exact htext

end Inlining

end TidySheet
