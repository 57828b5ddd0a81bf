import TidySheet.Proofs.ColonMoves
import TidySheet.Proofs.Settling

/-!
# How much longer the rules make a block

Vendor alignment makes a block longer by what its names fall short of their targets, and colon
alignment by the widths before its colons. Only inlining makes a block shorter. This holds for the
length of a block's text, and for the length of what is in the block itself and not in a block
inside it: all that counts is how whitespace and declarations are weighed.

* `Node.Weight` — measures of nodes by length, `Node.weight_chars`, `Node.weight_outside`;
* `VendorAlign.weigh_alignChildren` — vendor alignment;
* `Colons.weigh_alignBlock` — colon alignment;
* `Inlining.weigh_squeeze_lt` — inlining.
-/

set_option autoImplicit false

namespace TidySheet

namespace Node

/-- A measure of nodes that weighs whitespace by its length, and a declaration by its parts. -/
structure Weight (μ : Node → Nat) : Prop where
  space : ∀ l t, l.kind = .space → μ (.leaf l t) = t.length
  declaration : ∀ l cs, l.kind = .declaration → μ (.branch l cs) = (cs.map μ).sum

/-- The weight of siblings. -/
def weigh (μ : Node → Nat) (ns : List Node) : Nat := (ns.map μ).sum

variable {μ : Node → Nat}

@[simp] theorem weigh_nil : weigh μ [] = 0 := rfl

@[simp] theorem weigh_cons (n : Node) (ns : List Node) :
    weigh μ (n :: ns) = μ n + weigh μ ns := by
  simp [weigh]

@[simp] theorem weigh_append (ms ns : List Node) :
    weigh μ (ms ++ ns) = weigh μ ms + weigh μ ns := by
  simp [weigh]

theorem Weight.ofSpace (hμ : Weight μ) (d : Dialect) (t : List Char) :
    μ (.ofSpace d t) = t.length :=
  hμ.space _ t rfl

/-! ## Two measures -/

theorem weigh_chars (ns : List Node) : weigh (fun n => n.chars.length) ns = (charsOf ns).length := by
  induction ns with
  | nil => rfl
  | cons n ns ih => rw [weigh_cons, ih, charsOf_cons, List.length_append]

theorem weight_chars : Weight fun n => n.chars.length where
  space l t hl := by simp [chars, leafMarks, hl]
  declaration l cs hl := by
    have hcs : (cs.map fun n => n.chars.length).sum = (charsOf cs).length := weigh_chars cs
    simp [chars, branchMarks, hl, hcs]

mutual

/-- The number of characters of a node that are not in a block. -/
def outside : Node → Nat
  | .leaf l t => (Node.leaf l t).chars.length
  | .branch l cs =>
    if l.kind = .block then 0
    else (branchMarks l).1.length + outsideOf cs + (branchMarks l).2.length

def outsideOf : List Node → Nat
  | [] => 0
  | n :: ns => outside n + outsideOf ns

end

theorem outsideOf_eq (ns : List Node) : outsideOf ns = weigh outside ns := by
  induction ns with
  | nil => rw [outsideOf, weigh_nil]
  | cons n ns ih => rw [outsideOf, weigh_cons, ih]

theorem weight_outside : Weight outside where
  space l t hl := by simp [outside, chars, leafMarks, hl]
  declaration l cs hl := by
    have hcs : (cs.map outside).sum = outsideOf cs := (outsideOf_eq cs).symm
    simp [outside, branchMarks, hl, hcs]

end Node

/-! ## Vendor alignment -/

namespace VendorAlign

open Node VendorBlock

variable {μ : Node → Nat} {os : List Occurrence} {o : Occurrence} {d k : Dialect} {mark : Nat}
  {ns cs : List Node}

/-- How far a name falls short of its target. -/
def lack (os : List Occurrence) (o : Occurrence) : Nat := reach os o.id - o.total

theorem weigh_gapNodes (hμ : Weight μ) : weigh μ (gapNodes os o d) = lack os o := by
  unfold lack
  by_cases hlt : o.total < reach os o.id
  · rw [gapNodes_of_lt hlt, weigh_cons, hμ.ofSpace, List.length_replicate, weigh_nil]
    omega
  · rw [gapNodes_of_le (by omega), weigh_nil]
    omega

theorem weight_resize (hμ : Weight μ) {l : Label} {t : List Char} (hl : l.kind = .space)
    (hle : o.total ≤ reach os o.id) (ht : (splitFinalLine t).2.length ≤ o.total) :
    μ (resize os o (.leaf l t)) = μ (.leaf l t) + lack os o := by
  have hsplit := congrArg List.length (splitFinalLine_append t)
  rw [List.length_append] at hsplit
  rw [resize, hμ.space l _ hl, hμ.space l t hl, getD_padded? hle ht, List.length_append,
    List.length_replicate, lack]
  omega

theorem weigh_padLead (hμ : Weight μ) (hns : ∀ n ∈ ns, n.KindFits)
    (ho : o.total = mark + (Indent.measure ns).width) (hle : o.total ≤ reach os o.id) :
    weigh μ (padLead os o d ns) = weigh μ ns + lack os o := by
  rcases List.eq_nil_or_concat' ns with rfl | ⟨ms, n, rfl⟩
  · rw [weigh_nil, Nat.zero_add]
    exact weigh_gapNodes hμ
  rw [padLead_concat, weigh_append, weigh_append]
  split
  · rename_i hk
    have hk := is_eq_true.1 hk
    obtain ⟨l, t, rfl⟩ := (hns n (by simp)).eq_leaf (by rw [hk]; rfl)
    have hl : l.kind = .space := hk
    rw [Indent.measure_concat] at ho
    have hfinal := Indent.length_final_le_width hl t ms.reverse
    rw [weigh_cons, weight_resize hμ hl hle (by omega), weigh_cons]
    omega
  · rw [weigh_cons, weigh_cons, weigh_gapNodes hμ, weigh_nil]
    omega

/-- A declaration gets longer by what its value lacks. -/
theorem weight_padOwn (hμ : Weight μ) {n : Node} (hn : n.Formed) (hr : InReach os n) :
    μ (padOwn os n) = μ n + ((valueOccurrence? n).map (lack os)).getD 0 := by
  cases hv : valueOccurrence? n with
  | none => rw [padOwn, hv]; rfl
  | some o =>
    have hk := kind_of_valueOccurrence? hv
    obtain ⟨l, cs, rfl⟩ := hn.fits.eq_branch (by rw [hk]; rfl)
    obtain ⟨property, gap, colon, lead, value, hf, hfits⟩ := hn.declaration hk
    have hf : DeclarationForm cs property gap colon lead value := hf
    have hchildren : cs = property :: (gap ++ colon :: (lead ++ [value])) := hf.children
    have hlead : ∀ m ∈ lead, m.KindFits := fun m hm => hfits m (by
      show m ∈ cs
      rw [hchildren]
      simp [hm])
    have htotal : ∃ mark, o.total = mark + (Indent.measure lead).width := by
      rw [valueOccurrence?_of_form hf] at hv
      obtain ⟨name, -, rfl⟩ := Option.map_eq_some_iff.1 hv
      exact ⟨_, rfl⟩
    obtain ⟨mark, htotal⟩ := htotal
    have hpad : padOwn os (.branch l cs) = padValue os o (.branch l cs) := by rw [padOwn, hv]
    rw [hpad, padValue_of_form hf, hμ.declaration l _ hk, hμ.declaration l _ hk, hchildren]
    show weigh μ _ = weigh μ _ + lack os o
    simp only [weigh_cons, weigh_append, weigh_padLead hμ hlead htotal (hr o hv)]
    omega

theorem weigh_padValues (hμ : Weight μ) (hcs : ∀ n ∈ cs, n.Formed) (hr : ∀ n ∈ cs, InReach os n) :
    weigh μ (padValues os cs) = weigh μ cs + ((cs.filterMap valueOccurrence?).map (lack os)).sum := by
  rw [padValues_eq_map]
  induction cs with
  | nil => rfl
  | cons n cs ih =>
    rw [List.map_cons, weigh_cons, weigh_cons, weight_padOwn hμ (hcs n (by simp)) (hr n (by simp)),
      ih (fun m hm => hcs m (by simp [hm])) fun m hm => hr m (by simp [hm]), List.filterMap_cons]
    cases valueOccurrence? n with
    | none => simp only [Option.map_none, Option.getD_none]; omega
    | some o => simp only [Option.map_some, Option.getD_some, List.map_cons, List.sum_cons]; omega

/-- What stands before a property gets longer by what the property lacks. -/
theorem weigh_padSibling (hμ : Weight μ) {before : List Node} {n m : Node} (hn : n.KindFits)
    (ho : propertyOccurrence? (leadPast before n) m = some o) (hle : o.total ≤ reach os o.id) :
    weigh μ (padSibling os o d n) = μ n + lack os o := by
  rw [padSibling_eq]
  split
  · rename_i hk
    have hk := is_eq_true.1 hk
    obtain ⟨l, t, rfl⟩ := hn.eq_leaf (by rw [hk]; rfl)
    have hl : l.kind = .space := hk
    rw [weigh_cons, weigh_nil, weight_resize hμ hl hle (length_final_le_total hl ho), Nat.add_zero]
  split
  · rw [weigh_append, weigh_gapNodes hμ, weigh_cons, weigh_nil]
    omega
  · rw [weigh_cons, weigh_gapNodes hμ]

theorem weigh_padFrom (hμ : Weight μ) {before : List Node} {n : Node}
    (hfits : ∀ m ∈ n :: ns, m.KindFits)
    (hle : ∀ o ∈ (propertiesFrom (leadPast before n) ns).filterMap id, o.total ≤ reach os o.id) :
    weigh μ (padFrom os d before (n :: ns)) = weigh μ (n :: ns) +
      (((propertiesFrom (leadPast before n) ns).filterMap id).map (lack os)).sum := by
  induction ns generalizing before n with
  | nil => rfl
  | cons m ns ih =>
    rw [filterMap_propertiesFrom_cons] at hle ⊢
    have hrest := ih (fun k hk => hfits k (List.mem_cons_of_mem _ hk)) fun o ho =>
      hle o (List.mem_append_right _ ho)
    rw [padFrom_cons_cons, weigh_append, hrest]
    cases ho : propertyOccurrence? (leadPast before n) m with
    | none =>
      simp only [emit, Option.toList_none, List.nil_append, weigh_cons, weigh_nil]
      omega
    | some o =>
      have hlack := hle o (by rw [ho]; simp)
      rw [emit, weigh_padSibling hμ (hfits n (by simp)) ho hlack]
      simp only [Option.toList_some, List.singleton_append, List.map_cons, List.sum_cons, weigh_cons]
      omega

/-- **What the names of a block fall short of their targets**, those that are moved. -/
def shortfall (d : Dialect) (cs : List Node) : Nat :=
  if isOneLine cs && d != .sass then 0
  else
    (((values cs).filterMap id).map (lack (occurrences cs))).sum +
      if d = .sass then 0
      else ((((properties cs).drop 1).filterMap id).map (lack (occurrences cs))).sum

/-- **Vendor alignment makes a block longer by what its names lack.** -/
theorem weigh_alignChildren (hμ : Weight μ) (hcs : ∀ n ∈ cs, n.Formed) :
    weigh μ (alignChildren d k cs) = weigh μ cs + shortfall d cs := by
  have hvalues := weigh_padValues hμ hcs fun n hn => inReach_of_mem hn
  rw [← filterMap_values] at hvalues
  unfold shortfall
  by_cases hd : d = .sass
  · subst hd
    rw [alignChildren_of_sass, hvalues]
    simp
  cases hl : isOneLine cs with
  | true =>
    rw [alignChildren_of_oneLine hd hl, bne_iff_ne.2 hd]
    rfl
  | false =>
    rw [alignChildren_of_braces hcs hd hl, Bool.false_and, if_neg Bool.false_ne_true, if_neg hd,
      ← Nat.add_assoc, ← hvalues, ← properties_padValues hcs]
    cases hv : padValues (occurrences cs) cs with
    | nil => rfl
    | cons n ns =>
      have hfits : ∀ m ∈ n :: ns, m.KindFits := by
        rw [← hv, padValues_eq_map]
        intro m hm
        obtain ⟨c, hc, rfl⟩ := List.mem_map.1 hm
        exact (padded_padOwn (hcs c hc) (inReach_of_mem hc)).formed.fits
      rw [properties_eq, propertiesFrom_cons, List.drop_one, List.tail_cons]
      refine weigh_padFrom hμ hfits fun o ho => total_le_reach ?_
      refine List.mem_append_left _ ?_
      rw [← properties_padValues hcs, hv, properties_eq, filterMap_propertiesFrom_cons]
      exact List.mem_append_right _ ho

end VendorAlign

/-! ## Colon alignment -/

namespace Colons

open Node

variable {μ : Node → Nat} {ns : List Node}

theorem weigh_padEnd (hμ : Weight μ) (d : Dialect) (padding : List Char) (ns : List Node) :
    weigh μ (padEnd d padding ns) = weigh μ ns + padding.length := by
  rcases padEnd_eq d padding ns with ⟨ms, l, t, hk, rfl, hpad⟩ | hpad
  · rw [hpad, weigh_append, weigh_append, weigh_cons, weigh_cons, hμ.space l _ hk, hμ.space l t hk,
      List.length_append, weigh_nil]
    omega
  · rw [hpad, weigh_append, weigh_cons, hμ.ofSpace, weigh_nil, Nat.add_zero]

/-- A declaration with blanks before its colon. -/
theorem padColon_of_form {cs gap lead : List Node} {property colon value : Node} {l : Label}
    (hf : DeclarationForm cs property gap colon lead value) {k : Nat} (hk : k ≠ 0) :
    padColon k (.branch l cs) = .branch l (padEnd l.dialect (List.replicate k ' ')
      (property :: gap) ++ colon :: (lead ++ [value])) := by
  have hcut : cutFirst? (·.is .propertyDelimiter) cs =
      some (property :: gap, colon, lead ++ [value]) := by
    rw [hf.children, ← List.cons_append]
    refine cutFirst?_eq (is_eq_true.2 hf.colon_kind) fun m hm => is_eq_false.2 fun h => ?_
    rcases List.mem_cons.1 hm with rfl | hm
    · rw [hf.property_kind] at h
      cases h
    · rcases isTrivia_iff.1 (hf.gap_trivia m hm) with ht | ht | ht <;> rw [ht] at h <;> cases h
  rw [padColon, if_neg hk]
  simp only [children, hcut]
  rfl

theorem weight_padColon (hμ : Weight μ) {n : Node} (hn : n.Formed) (hd : n.kind = .declaration)
    (k : Nat) : μ (padColon k n) = μ n + k := by
  by_cases hk : k = 0
  · rw [hk, padColon, if_pos rfl, Nat.add_zero]
  obtain ⟨l, cs, rfl⟩ := hn.fits.eq_branch (by rw [hd]; rfl)
  obtain ⟨property, gap, colon, lead, value, hf, -⟩ := hn.declaration hd
  have hf : DeclarationForm cs property gap colon lead value := hf
  rw [padColon_of_form hf hk, hμ.declaration l _ hd, hμ.declaration l _ hd, hf.children]
  show weigh μ _ = weigh μ _ + k
  rw [weigh_append, weigh_padEnd hμ, List.length_replicate]
  simp only [weigh_cons, weigh_append]
  omega

theorem weigh_padAll (hμ : Weight μ) (target : Nat) (line : Option Nat)
    (hns : ∀ n ∈ ns, n.Formed) :
    weigh μ (padAll target ns (columns line ns)) =
      weigh μ ns + (((columns line ns).filterMap id).map (target - ·)).sum := by
  induction ns generalizing line with
  | nil => rfl
  | cons n ns ih =>
    have hrest := fun line => ih line fun m hm => hns m (List.mem_cons_of_mem _ hm)
    rw [columns]
    cases hc : colon? n with
    | none =>
      simp only [padAll, weigh_cons, List.filterMap_cons, id_eq, hrest]
      omega
    | some p =>
      have hpad := weight_padColon hμ (hns n List.mem_cons_self) (kind_of_colon? hc)
      simp only
      split
      · simp only [padAll, weigh_cons, List.filterMap_cons, id_eq, hrest]
        omega
      · simp only [padAll, weigh_cons, List.filterMap_cons, id_eq, hrest, hpad, List.map_cons,
          List.sum_cons]
        omega

/-- **What the colons of a block fall short of its target.** -/
def slack (block : Node) : Nat :=
  ((colonColumns block).map (((colonColumns block).max?.getD 0) - ·)).sum

/-- **Colon alignment makes a block longer by what its colons lack.** -/
theorem weigh_alignBlock (hμ : Weight μ) {l : Label} {cs : List Node} (hcs : ∀ n ∈ cs, n.Formed) :
    weigh μ (alignBlock (.branch l cs)).children = weigh μ cs + slack (.branch l cs) := by
  unfold alignBlock slack
  split
  · rename_i hmax
    rw [List.max?_eq_none_iff] at hmax
    rw [hmax]
    rfl
  · rename_i target hmax
    rw [hmax, Option.getD_some]
    exact weigh_padAll hμ target none hcs

/-- A block lacks nothing exactly if it is aligned. -/
theorem slack_eq_zero_iff (block : Node) : slack block = 0 ↔ isAligned block = true := by
  rw [isAligned_iff, slack, colonColumns_eq, List.map_map,
    List.sum_eq_zero_iff_forall_eq_nat, List.forall_mem_map]
  constructor
  · intro h p hp q hq
    have hpt : target _ - p.column = 0 := h p hp
    have hqt : target _ - q.column = 0 := h q hq
    have hple := column_le_target hp
    have hqle := column_le_target hq
    omega
  · intro h p hp
    obtain ⟨q, hq, hcolumn⟩ := exists_column_eq_target hp
    show target _ - p.column = 0
    rw [h p hp q hq, hcolumn, Nat.sub_self]

end Colons

/-! ## Inlining -/

namespace Inlining

open Node

variable {μ : Node → Nat} {ns : List Node}

theorem weigh_squeeze_le (dense : Bool) (ns : List Node) :
    weigh μ (squeeze dense ns) ≤ weigh μ ns := by
  cases dense with
  | false => exact Nat.le_refl _
  | true =>
    induction ns with
    | nil => exact Nat.le_refl _
    | cons n ns ih =>
      by_cases hn : n.kind = .space
      · rw [squeeze_of_space hn, weigh_cons]
        omega
      · rw [squeeze_cons hn, weigh_cons, weigh_cons]
        omega

/-- **Inlining makes a block with whitespace shorter.** -/
theorem weigh_squeeze_lt {s : Node} (hs : s ∈ ns) (hk : s.kind = .space) (hpos : 0 < μ s) :
    weigh μ (squeeze true ns) < weigh μ ns := by
  induction ns with
  | nil => cases hs
  | cons n ns ih =>
    by_cases hn : n.kind = .space
    · rw [squeeze_of_space hn, weigh_cons]
      rcases List.mem_cons.1 hs with rfl | hs
      · have hle := weigh_squeeze_le (μ := μ) true ns
        omega
      · have hlt := ih hs
        omega
    · rw [squeeze_cons hn, weigh_cons, weigh_cons]
      rcases List.mem_cons.1 hs with rfl | hs
      · exact absurd hk hn
      · have hlt := ih hs
        omega

end Inlining

end TidySheet
