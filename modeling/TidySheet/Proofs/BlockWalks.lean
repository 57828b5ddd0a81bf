import TidySheet.Proofs.Openings
import TidySheet.Rule.Inlining

/-!
# Blocks, taken apart

* `Node.squeeze` — what inlining leaves of the children of a block;
* `Statement.Opener.exists_parts` — a statement with a block, where any other block may stand in its
  place;
* `Statement.Opener.mapBlock` — a walk over blocks goes through the statement to its block.
-/

set_option autoImplicit false

namespace TidySheet

open Token

/-! ## Without whitespace -/

namespace Node

/-- Nodes without whitespace if they are to be `dense`, and all of them if not. -/
def squeeze (dense : Bool) (ns : List Node) : List Node :=
  if dense then ns.filter fun n => !n.is .space else ns

variable {dense : Bool}

theorem squeeze_append (ms ns : List Node) :
    squeeze dense (ms ++ ns) = squeeze dense ms ++ squeeze dense ns := by
  cases dense with
  | false => rfl
  | true => exact List.filter_append ms ns

theorem squeeze_cons {n : Node} (h : n.kind ≠ .space) (ns : List Node) :
    squeeze dense (n :: ns) = n :: squeeze dense ns := by
  cases dense with
  | false => rfl
  | true =>
    unfold squeeze
    rw [if_pos rfl, if_pos rfl, List.filter_cons_of_pos (by simpa [is] using h)]

theorem squeeze_of_space {n : Node} (h : n.kind = .space) (ns : List Node) :
    squeeze true (n :: ns) = squeeze true ns := by
  unfold squeeze
  rw [if_pos rfl, if_pos rfl, List.filter_cons_of_neg (by simpa [is] using h)]

theorem squeeze_of_ne {ns : List Node} (h : ∀ n ∈ ns, n.kind ≠ .space) :
    squeeze dense ns = ns := by
  cases dense with
  | false => rfl
  | true => exact List.filter_eq_self.2 fun n hn => by simpa [is] using h n hn

theorem squeeze_sublist (dense : Bool) (ns : List Node) : (squeeze dense ns).Sublist ns := by
  cases dense with
  | false => exact .refl ns
  | true => exact List.filter_sublist

theorem ofChildren_inj {k k' : Kind} {d d' : Dialect} {cs cs' : List Node}
    (h : ofChildren k d cs = ofChildren k' d' cs') : (k = k' ∧ d = d') ∧ cs = cs' := by
  obtain ⟨hl, hcs⟩ := Node.branch.inj h
  obtain ⟨hk, hd, -⟩ := Label.mk.inj hl
  exact ⟨⟨hk, hd⟩, hcs⟩

end Node

open Node

variable {d : Dialect}

/-! ## Statements -/

namespace Statement

/-- **The parts of a statement with a block**: what its head is read into, and the block, in place
of which any other may stand. -/
theorem Opener.exists_parts {head : List Token} {block n : Node} (h : Opener d block head n) :
    ∃ k init, (k = .ruleset ∨ k = .atrule) ∧ n = .ofChildren k d (init ++ [block]) ∧
      Reading d head init ∧ AllOf (fun m => m.kind ≠ .block) init ∧
        ∀ b, Opener d b head (.ofChildren k d (init ++ [b])) := by
  have hk := h.kind_mem
  obtain ⟨k, init, hn, hread, hinit, -⟩ := h.exists_init
  refine ⟨k, init, by rw [hn] at hk; exact hk, hn, hread, hinit, fun b => ?_⟩
  cases h with
  | ruleset hat =>
    obtain ⟨⟨rfl, -⟩, hcs⟩ := ofChildren_inj hn
    rw [← (List.append_inj' hcs rfl).1]
    exact .ruleset hat
  | @atrule keyword params value hat hv =>
    obtain ⟨⟨rfl, -⟩, hcs⟩ := ofChildren_inj hn
    rw [← List.append_assoc, ← List.cons_append] at hcs
    rw [← (List.append_inj' hcs rfl).1, List.cons_append, List.append_assoc]
    exact .atrule hat hv

/-- The text of a statement with a block. -/
theorem Opener.chars_eq {head : List Token} {block n : Node} (h : Opener d block head n)
    (hs : ∀ t ∈ head, t.Spelled) : n.chars = textOf head ++ block.chars := by
  obtain ⟨k, init, hk, rfl, hread, -, -⟩ := h.exists_parts
  have hmarks : branchMarks ⟨k, d, spanOf (init ++ [block])⟩ = ([], []) := by
    rcases hk with rfl | rfl <;> rfl
  rw [ofChildren, Node.chars, hmarks, charsOf_append, hread.charsOf_eq hs]
  simp

theorem spanOf_concat {init : List Node} {b b' : Node} (h : b'.span = b.span) :
    Node.spanOf (init ++ [b']) = Node.spanOf (init ++ [b]) := by
  cases init with
  | nil => simp [Node.spanOf, h]
  | cons m init => simp [Node.spanOf, List.getLast?_cons, h]

/-- A walk over blocks goes through a statement with a block to the block. -/
theorem Opener.mapBlock {f : Node → Node} {head : List Token} {block n : Node}
    (h : Opener d block head n) (hs : (block.mapBlock f).span = block.span) :
    Opener d (block.mapBlock f) head (n.mapBlock f) := by
  obtain ⟨k, init, hk, rfl, -, hinit, hopen⟩ := h.exists_parts
  have hne : k ≠ .block := by rcases hk with rfl | rfl <;> exact Kind.noConfusion
  have hn := hopen (block.mapBlock f)
  rw [Node.ofChildren, spanOf_concat hs] at hn
  rw [Node.ofChildren, Node.mapBlock, if_neg hne, mapBlocksOf_eq_map, List.map_append,
    ← mapBlocksOf_eq_map, mapBlocksOf_of_no_block init hinit]
  exact hn

end Statement

/-! ## Blocks -/

namespace Braces

open Statement Inlining

theorem inlineBlock_branch (l : Label) (cs : List Node) :
    inlineBlock (.branch l cs) = .branch l (squeeze (isInlinable (.branch l cs)) cs) := by
  unfold inlineBlock squeeze
  split <;> rfl

theorem mapBlock_plain {f : Node → Node} {head : List Token} {own : List Node}
    (h : Plain d head own) : own.map (mapBlock f) = own := by
  rw [← mapBlocksOf_eq_map, mapBlocksOf_of_no_block own h.no_block]

theorem mapBlock_block (l : Label) (hl : l.kind = .block) (cs : List Node) :
    (Node.branch l cs).mapBlock inlineBlock =
      .branch l (squeeze (isInlinable (.branch l (cs.map (mapBlock inlineBlock))))
        (cs.map (mapBlock inlineBlock))) := by
  rw [mapBlock, if_pos hl, mapBlocksOf_eq_map, inlineBlock_branch]

end Braces

end TidySheet
