import TidySheet.Proofs.Ink
import TidySheet.Proofs.Places
import TidySheet.Rule.VendorAlign

/-!
# Vendor alignment does not look at places

Alignment measures the texts of nodes and their kinds. Trees that differ in their places alone are
aligned alike.

* `VendorBlock.occurrences_unplace`, `VendorBlock.isOneLine_unplace` — what is read off a block;
* `VendorAlign.alignBlock_unplace` — one block; `VendorAlign.reshape_unplace` — a whole tree.
-/

set_option autoImplicit false

namespace TidySheet

namespace Node

mutual

/-- A walk that changes blocks without looking at places. -/
theorem mapBlock_unplace {f : Node → Node} (hf : ∀ n, (f n).unplace = f n.unplace) :
    ∀ n : Node, (n.mapBlock f).unplace = n.unplace.mapBlock f
  | .leaf l t => by
    rw [unplace_leaf, mapBlock, mapBlock, Label.unplace]
    split
    · rw [hf, unplace_leaf, Label.unplace]
    · rw [unplace_leaf, Label.unplace]
  | .branch l cs => by
    have hcs := mapBlocksOf_unplace hf cs
    rw [unplace_branch, mapBlock, mapBlock, Label.unplace]
    split
    · rw [hf, unplace_branch, Label.unplace, hcs]
    · rw [unplace_branch, Label.unplace, hcs]

theorem mapBlocksOf_unplace {f : Node → Node} (hf : ∀ n, (f n).unplace = f n.unplace) :
    ∀ ns : List Node, (mapBlocksOf f ns).map unplace = mapBlocksOf f (ns.map unplace)
  | [] => by rw [mapBlocksOf, List.map_nil, mapBlocksOf]
  | n :: ns => by
    rw [mapBlocksOf, List.map_cons, List.map_cons, mapBlocksOf, mapBlock_unplace hf n,
      mapBlocksOf_unplace hf ns]

end

theorem first?_unplace (k : Kind) (n : Node) : n.unplace.first? k = (n.first? k).map unplace := by
  have hk : (fun m : Node => m.is k) ∘ unplace = fun m => m.is k := funext fun m => is_unplace m k
  rw [first?, children_unplace, List.find?_map, hk]
  rfl

theorem cutLast?_unplace (k : Kind) (ns : List Node) :
    cutLast? (·.is k) (ns.map unplace) = (cutLast? (·.is k) ns).map
      fun (before, found, behind) => (before.map unplace, found.unplace, behind.map unplace) := by
  induction ns with
  | nil => rfl
  | cons n ns ih =>
    rw [List.map_cons, cutLast?, cutLast?, ih, is_unplace]
    cases cutLast? (·.is k) ns with
    | some cut => rfl
    | none =>
      simp only [Option.map_none]
      split <;> rfl

theorem unplace_withChildren (n : Node) (cs : List Node) :
    (n.withChildren cs).unplace = n.unplace.withChildren (cs.map unplace) := by
  cases n <;> simp [withChildren]

theorem unplace_ofSpace (d : Dialect) (t : List Char) : (ofSpace d t).unplace = ofSpace d t := by
  rw [ofSpace, ofText, unplace_leaf]
  rfl

end Node

namespace Indent

theorem measureBack_unplace (ns : List Node) :
    measureBack (ns.map Node.unplace) = measureBack ns := by
  induction ns with
  | nil => rfl
  | cons n ns ih =>
    cases n with
    | leaf l t => simp only [List.map_cons, Node.unplace_leaf, measureBack, Label.unplace, ih]
    | branch l cs => simp only [List.map_cons, Node.unplace_branch, measureBack, ih]

theorem measure_unplace (ns : List Node) : measure (ns.map Node.unplace) = measure ns := by
  rw [measure, measure, ← List.map_reverse, measureBack_unplace]

end Indent

namespace VendorBlock

open Node

variable (n : Node) (cs : List Node)

theorem head?_text?_unplace (ns : List Node) :
    (ns.map unplace).head?.bind text? = ns.head?.bind text? := by
  cases ns with
  | nil => rfl
  | cons n ns => exact text?_unplace n

theorem propertyName?_unplace : propertyName? n.unplace = propertyName? n := by
  rw [propertyName?, propertyName?, is_unplace, first?_unplace]
  split
  · cases n.first? .property with
    | none => rfl
    | some p =>
      simp only [Option.map_some, Option.bind_some, children_unplace, head?_text?_unplace]
  · rfl

theorem valueName?_unplace : valueName? n.unplace = valueName? n := by
  rw [valueName?, valueName?, is_unplace, first?_unplace]
  split
  · cases n.first? .value with
    | none => rfl
    | some v =>
      simp only [Option.map_some, Option.bind_some, children_unplace]
      cases v.children with
      | nil => rfl
      | cons first rest =>
        simp only [List.map_cons, List.head?_cons, Option.bind_some, kind_unplace, text?_unplace,
          children_unplace, head?_text?_unplace]
  · rfl

theorem valueLead?_unplace : valueLead? n.unplace = (valueLead? n).map (List.map unplace) := by
  rw [valueLead?, valueLead?, children_unplace, cutLast?_unplace]
  cases cutLast? (·.is .value) n.children with
  | none => rfl
  | some cut =>
    obtain ⟨before, value, behind⟩ := cut
    show (cutLast? (·.is .propertyDelimiter) (before.map unplace)).bind _ = Option.map _
      ((cutLast? (·.is .propertyDelimiter) before).bind _)
    rw [cutLast?_unplace]
    cases cutLast? (·.is .propertyDelimiter) before <;> rfl

theorem valueIndent_unplace : valueIndent n.unplace = valueIndent n := by
  rw [valueIndent, valueIndent, valueLead?_unplace]
  cases valueLead? n with
  | none => rfl
  | some lead => exact Indent.measure_unplace lead

theorem valueOccurrence?_unplace : valueOccurrence? n.unplace = valueOccurrence? n := by
  rw [valueOccurrence?, valueOccurrence?, valueName?_unplace, propertyName?_unplace,
    valueIndent_unplace]

theorem withLead_unplace (before : List Node) :
    withLead (before.map unplace) (cs.map unplace) =
      (withLead before cs).map fun (b, m) => (b.map unplace, m.unplace) := by
  induction cs generalizing before with
  | nil => rfl
  | cons n cs ih =>
    rw [List.map_cons, withLead, withLead, List.map_cons, ← ih, is_unplace]
    split <;> rfl

theorem properties_unplace : properties (cs.map unplace) = properties cs := by
  have hlead := withLead_unplace cs []
  rw [List.map_nil] at hlead
  rw [properties, properties, hlead, List.map_map]
  refine List.map_congr_left fun p _ => ?_
  simp only [Function.comp, propertyOccurrence?, propertyName?_unplace, Indent.measureBack_unplace]

theorem values_unplace : values (cs.map unplace) = values cs := by
  rw [values, values, List.map_map]
  exact List.map_congr_left fun n _ => valueOccurrence?_unplace n

theorem occurrences_unplace : occurrences (cs.map unplace) = occurrences cs := by
  rw [occurrences, occurrences, properties_unplace, values_unplace]

theorem isOneLine_unplace : isOneLine (cs.map unplace) = isOneLine cs := by
  have hlead := withLead_unplace cs []
  rw [List.map_nil] at hlead
  rw [isOneLine, isOneLine, hlead, List.all_map, List.all_map]
  congr 1
  · refine congrArg (fun p => (withLead [] cs).all p) (funext fun p => ?_)
    simp only [Function.comp, Indent.measureBack_unplace]
  · refine congrArg (fun p => cs.all p) (funext fun n => ?_)
    simp only [Function.comp, is_unplace, valueIndent_unplace]

end VendorBlock

namespace VendorAlign

open Node VendorBlock

variable (os : List Occurrence) (o : Occurrence) (d : Dialect)

theorem resize_unplace (n : Node) : (resize os o n).unplace = resize os o n.unplace := by
  cases n <;> simp [resize]

theorem gap_unplace : ((gap? os o).map (ofSpace d)).toList.map unplace =
    ((gap? os o).map (ofSpace d)).toList := by
  cases gap? os o with
  | none => rfl
  | some t => simp [unplace_ofSpace]

theorem padLead_unplace (ns : List Node) :
    (padLead os o d ns).map unplace = padLead os o d (ns.map unplace) := by
  fun_induction padLead os o d ns with
  | case1 => exact gap_unplace os o d
  | case2 n hk => simp only [List.map_cons, List.map_nil, padLead, is_unplace, hk, if_true, resize_unplace]
  | case3 n hk =>
    simp only [List.map_cons, List.map_nil, padLead, is_unplace, hk, gap_unplace]
    rfl
  | case4 n ns hne ih =>
    cases ns with
    | nil => exact absurd rfl hne
    | cons m ns =>
      simp only [List.map_cons, padLead] at ih ⊢
      rw [ih]

theorem padValue_unplace (n : Node) : (padValue os o n).unplace = padValue os o n.unplace := by
  rw [padValue, padValue, children_unplace, cutLast?_unplace]
  cases cutLast? (·.is .value) n.children with
  | none => rfl
  | some cut =>
    obtain ⟨before, value, behind⟩ := cut
    simp only [Option.map_some, unplace_withChildren, List.map_append, List.map_cons,
      padLead_unplace, dialect_unplace]

theorem padValues_unplace (cs : List Node) :
    (padValues os cs).map unplace = padValues os (cs.map unplace) := by
  rw [padValues, padValues, List.map_map, List.map_map]
  refine List.map_congr_left fun n _ => ?_
  simp only [Function.comp, valueOccurrence?_unplace]
  split
  · rename_i o _
    exact padValue_unplace os o n
  · rfl

theorem padSibling_unplace (n : Node) :
    (padSibling os o d n).map unplace = padSibling os o d n.unplace := by
  rw [padSibling, padSibling, is_unplace, is_unplace]
  split
  · rw [List.map_singleton, resize_unplace]
  split
  · rw [List.map_append, gap_unplace, List.map_singleton]
  · rw [List.map_cons, gap_unplace]

theorem padProperties_unplace (ps : List (Node × Option Occurrence)) :
    (padProperties os d ps).map unplace =
      padProperties os d (ps.map fun (n, o) => (n.unplace, o)) := by
  fun_induction padProperties os d ps with
  | case1 => rfl
  | case2 n o => rfl
  | case3 n o' m o rest ih =>
    simp only [List.map_cons] at ih ⊢
    rw [List.map_append, ih]
    cases o with
    | none => rfl
    | some o =>
      rw [padSibling_unplace]
      rfl

theorem alignBlock_unplace (block : Node) :
    (alignBlock d block).unplace = alignBlock d block.unplace := by
  have hzip : ∀ (ms : List Node) (ps : List (Option Occurrence)),
      (ms.zip ps).map (fun (n, o) => (n.unplace, o)) = (ms.map unplace).zip ps := by
    intro ms ps
    rw [List.zip_map_left]
    rfl
  unfold alignBlock
  simp only [children_unplace, isOneLine_unplace, occurrences_unplace, properties_unplace,
    dialect_unplace]
  split
  · rfl
  split
  · rw [unplace_withChildren, padValues_unplace]
  · rw [unplace_withChildren, padProperties_unplace, hzip, padValues_unplace]

/-- **Trees that differ in their places alone are aligned alike.** -/
theorem reshape_unplace (tree : Node) : (reshape tree).unplace = reshape tree.unplace := by
  rw [reshape, reshape, mapBlocks, mapBlocks, unplace_withChildren, children_unplace,
    dialect_unplace, mapBlocksOf_unplace (alignBlock_unplace tree.dialect)]

end VendorAlign

end TidySheet
