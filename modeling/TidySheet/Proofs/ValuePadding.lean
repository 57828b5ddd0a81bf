import TidySheet.Proofs.Forms
import TidySheet.Proofs.Offsets

/-!
# Padding the values of a block

Padding brings the value of a declaration to its target, leaves the declaration in its form and
changes nothing when it is done again.

* `width_measure_padLead` — the value stands at its target;
* `padLead_eq_self` — a lead that brings its value to the target is left alone;
* `padded_padOwn` — what padding does to one declaration;
* `allRaised_padValues`, `padValues_eq_self` — and to all declarations of a block.
-/

set_option autoImplicit false

namespace TidySheet

namespace Node

theorem cutLast?_eq_none {p : Node → Bool} {ns : List Node} (h : ∀ n ∈ ns, p n = false) :
    cutLast? p ns = none := by
  induction ns with
  | nil => rfl
  | cons n ns ih =>
    have hn := h n List.mem_cons_self
    simp [cutLast?, ih fun m hm => h m (List.mem_cons_of_mem _ hm), hn]

theorem cutLast?_eq {p : Node → Bool} {before behind : List Node} {n : Node} (hn : p n = true)
    (hb : ∀ m ∈ behind, p m = false) :
    cutLast? p (before ++ n :: behind) = some (before, n, behind) := by
  induction before with
  | nil => simp [cutLast?, cutLast?_eq_none hb, hn]
  | cons b before ih => simp [cutLast?, ih]

/-! ## Declarations -/

namespace DeclarationForm

variable {cs gap lead : List Node} {property colon value : Node} {l : Label}

theorem first?_property (h : DeclarationForm cs property gap colon lead value) :
    (Node.branch l cs).first? .property = some property := by
  have hp : property.is .property = true := is_eq_true.2 h.property_kind
  rw [first?, Node.children, h.children, List.find?_cons_of_pos hp]

theorem first?_value (h : DeclarationForm cs property gap colon lead value) :
    (Node.branch l cs).first? .value = some value := by
  have htrivia : ∀ ns : List Node, (∀ n ∈ ns, n.isTrivia = true) →
      ns.find? (·.is .value) = none := by
    intro ns hns
    rw [List.find?_eq_none]
    intro n hn
    rcases isTrivia_iff.1 (hns n hn) with hk | hk | hk <;> simp [is, hk]
  have hv : value.is .value = true := is_eq_true.2 h.value_kind
  have hp : ¬ property.is .value = true := by simp [is, h.property_kind]
  have hc : ¬ colon.is .value = true := by simp [is, h.colon_kind]
  rw [first?, Node.children, h.children, List.find?_cons_of_neg hp, List.find?_append,
    htrivia gap h.gap_trivia, Option.none_or, List.find?_cons_of_neg hc, List.find?_append,
    htrivia lead h.lead_trivia, Option.none_or, List.find?_cons_of_pos hv]

theorem cutLast?_value (h : DeclarationForm cs property gap colon lead value) :
    cutLast? (·.is .value) cs = some ((property :: gap) ++ colon :: lead, value, []) := by
  have hcs : cs = ((property :: gap) ++ colon :: lead) ++ value :: [] := by simp [h.children]
  rw [hcs]
  exact cutLast?_eq (is_eq_true.2 h.value_kind) fun m hm => nomatch hm

theorem cutLast?_colon (h : DeclarationForm cs property gap colon lead value) :
    cutLast? (·.is .propertyDelimiter) ((property :: gap) ++ colon :: lead) =
      some (property :: gap, colon, lead) := by
  refine cutLast?_eq (is_eq_true.2 h.colon_kind) fun m hm => is_eq_false.2 ?_
  rcases isTrivia_iff.1 (h.lead_trivia m hm) with hk | hk | hk <;> simp [hk]

theorem valueLead? (h : DeclarationForm cs property gap colon lead value) :
    VendorBlock.valueLead? (.branch l cs) = some lead := by
  have hcs : (Node.branch l cs).children = cs := rfl
  simp only [VendorBlock.valueLead?, hcs, h.cutLast?_value, h.cutLast?_colon, Option.bind_eq_bind,
    Option.bind_some]
  rfl

theorem valueIndent (h : DeclarationForm cs property gap colon lead value) :
    VendorBlock.valueIndent (.branch l cs) = Indent.measure lead := by
  rw [VendorBlock.valueIndent, h.valueLead?]

/-- The form with other whitespace and comments before the value. -/
theorem withLead {lead' : List Node} (h : DeclarationForm cs property gap colon lead value)
    (hl : ∀ n ∈ lead', n.isTrivia = true) :
    DeclarationForm (property :: (gap ++ colon :: (lead' ++ [value]))) property gap colon lead'
      value :=
  { h with children := rfl, lead_trivia := hl }

/-- The names in a declaration do not depend on its whitespace. -/
theorem names_eq {cs' gap' lead' : List Node} {colon' : Node}
    (h : DeclarationForm cs property gap colon lead value)
    (h' : DeclarationForm cs' property gap' colon' lead' value) :
    VendorBlock.propertyName? (.branch l cs') = VendorBlock.propertyName? (.branch l cs) ∧
      VendorBlock.valueName? (.branch l cs') = VendorBlock.valueName? (.branch l cs) := by
  have hkind : (Node.branch l cs').is .declaration = (Node.branch l cs).is .declaration := rfl
  constructor
  · rw [VendorBlock.propertyName?, VendorBlock.propertyName?, h.first?_property,
      h'.first?_property, hkind]
  · rw [VendorBlock.valueName?, VendorBlock.valueName?, h.first?_value, h'.first?_value, hkind]

end DeclarationForm

end Node

/-! ## Whitespace that a name asks for -/

/-- Whitespace with nothing but spaces on its final line. -/
def Node.Even : Node → Prop
  | .leaf l t => l.kind = .space → ∀ c ∈ (splitFinalLine t).2, c = ' '
  | .branch _ _ => True

namespace VendorAlign

open Node VendorBlock

variable {os : List Occurrence} {o : Occurrence} {d : Dialect}

/-- The whitespace put before a name that has none. -/
def gapNodes (os : List Occurrence) (o : Occurrence) (d : Dialect) : List Node :=
  ((gap? os o).map (Node.ofSpace d)).toList

theorem gapNodes_of_lt (h : o.total < reach os o.id) :
    gapNodes os o d = [.ofSpace d (List.replicate (reach os o.id - o.total) ' ')] := by
  rw [gapNodes, gap?_eq, if_pos h]
  rfl

theorem gapNodes_of_le (h : reach os o.id ≤ o.total) : gapNodes os o d = [] := by
  rw [gapNodes, gap?_eq, if_neg (by omega)]
  rfl

theorem eq_ofSpace_of_mem_gapNodes {n : Node} (h : n ∈ gapNodes os o d) :
    ∃ k, n = .ofSpace d (List.replicate k ' ') := by
  by_cases hlt : o.total < reach os o.id
  · rw [gapNodes_of_lt hlt] at h
    exact ⟨_, List.mem_singleton.1 h⟩
  · rw [gapNodes_of_le (by omega)] at h
    cases h

theorem width_measureBack_gapNodes (h : o.total ≤ reach os o.id) (ns : List Node) :
    (Indent.measureBack (gapNodes os o d ++ ns)).width + o.total =
      (Indent.measureBack ns).width + reach os o.id := by
  by_cases hlt : o.total < reach os o.id
  · rw [gapNodes_of_lt hlt, List.singleton_append, Indent.width_measureBack_ofSpace]
    omega
  · rw [gapNodes_of_le (by omega), List.nil_append]
    omega

theorem reverse_gapNodes : (gapNodes os o d).reverse = gapNodes os o d := by
  by_cases hlt : o.total < reach os o.id
  · rw [gapNodes_of_lt hlt]
    rfl
  · rw [gapNodes_of_le (by omega)]
    rfl

variable {l : Label} {t : List Char} {ns : List Node} {mark : Nat}

/-- Resized whitespace brings the name behind it to its target. -/
theorem width_measureBack_resize (hl : l.kind = .space)
    (ho : o.total = mark + (Indent.measureBack (.leaf l t :: ns)).width)
    (hle : o.total ≤ reach os o.id) :
    mark + (Indent.measureBack (resize os o (.leaf l t) :: ns)).width = reach os o.id := by
  have hfinal := Indent.length_final_le_width hl t ns
  have hw := Indent.width_measureBack_resized hl t
    (reach os o.id + (splitFinalLine t).2.length - o.total) ns
  rw [resize, getD_padded? hle (by omega)]
  omega

theorem even_resize (hle : o.total ≤ reach os o.id)
    (ht : (splitFinalLine t).2.length ≤ o.total) : (resize os o (.leaf l t)).Even := by
  intro _ c hc
  rw [getD_padded? hle ht, splitFinalLine_head_append _ _ (any_isBreak_replicate _)] at hc
  exact (List.mem_replicate.1 hc).2

theorem hasBreak_resize (n : Node) : (resize os o n).hasBreak = n.hasBreak := by
  cases n with
  | branch l cs => rfl
  | leaf l t =>
    cases hp : padded? os o t with
    | none => simp [resize, hp, hasBreak]
    | some t' =>
      have h := isEmpty_splitFinalLine t'
      rw [padded?_eq_some hp, splitFinalLine_head_append _ _ (any_isBreak_replicate _),
        isEmpty_splitFinalLine, ← padded?_eq_some hp] at h
      simp only [resize, hp, hasBreak, Option.getD_some]
      cases ht : t.any isBreak <;> cases ht' : t'.any isBreak <;> rw [ht, ht'] at h <;> simp_all

theorem kind_resize (n : Node) : (resize os o n).kind = n.kind := by
  cases n <;> rfl

/-- Whitespace before a name at its target stays as it is. -/
theorem resize_eq_self (he : (Node.leaf l t).Even) (hl : l.kind = .space)
    (ho : o.total = reach os o.id) (ht : (splitFinalLine t).2.length ≤ o.total) :
    resize os o (.leaf l t) = .leaf l t := by
  have hlength : reach os o.id + (splitFinalLine t).2.length - o.total =
      (splitFinalLine t).2.length := by omega
  have hspaces : (splitFinalLine t).2 = List.replicate (splitFinalLine t).2.length ' ' :=
    List.eq_replicate_iff.2 ⟨rfl, he hl⟩
  rw [resize, getD_padded? (by omega) ht, hlength, ← hspaces, splitFinalLine_append]

/-! ## The lead of a value -/

theorem padLead_concat (ns : List Node) (n : Node) :
    padLead os o d (ns ++ [n]) =
      ns ++ if n.is .space then [resize os o n] else n :: gapNodes os o d := by
  induction ns with
  | nil => rfl
  | cons m ns ih =>
    cases ns with
    | nil =>
      rw [List.cons_append, List.nil_append, padLead]
      · rfl
      · simp
    | cons k ns =>
      rw [List.cons_append, List.cons_append, padLead, ← List.cons_append, ih]
      · rfl
      · simp

/-- Only the end of a list is padded. -/
theorem padLead_append_cons (ms ns : List Node) {n : Node} (hn : n.is .space = false) :
    padLead os o d (ms ++ n :: ns) = ms ++ n :: padLead os o d ns := by
  rcases List.eq_nil_or_concat ns with rfl | ⟨ks, k, rfl⟩
  · rw [padLead_concat, hn, if_neg (by decide)]
    rfl
  · rw [List.concat_eq_append, padLead_concat]
    have happend : ms ++ n :: (ks ++ [k]) = (ms ++ n :: ks) ++ [k] := by simp
    rw [happend, padLead_concat]
    simp

/-- **The value stands at its target.** -/
theorem width_measure_padLead (hns : ∀ n ∈ ns, n.KindFits)
    (ho : o.total = mark + (Indent.measure ns).width) (hle : o.total ≤ reach os o.id) :
    mark + (Indent.measure (padLead os o d ns)).width = reach os o.id := by
  rcases List.eq_nil_or_concat ns with rfl | ⟨ms, n, rfl⟩
  · have hgap := width_measureBack_gapNodes (d := d) hle []
    rw [List.append_nil, ← reverse_gapNodes] at hgap
    rw [Indent.measure, List.reverse_nil] at ho
    show mark + (Indent.measureBack (gapNodes os o d).reverse).width = _
    omega
  · rw [List.concat_eq_append] at ho hns ⊢
    rw [Indent.measure_concat] at ho
    rw [padLead_concat, Indent.measure, List.reverse_append]
    split
    · rename_i hk
      have hk := is_eq_true.1 hk
      obtain ⟨l, t, rfl⟩ := (hns n (by simp)).eq_leaf (by rw [hk]; rfl)
      exact width_measureBack_resize hk ho hle
    · have hgap := width_measureBack_gapNodes (d := d) hle (n :: ms.reverse)
      rw [List.reverse_cons, reverse_gapNodes, List.append_assoc, List.singleton_append]
      omega

/-- The whitespace before a value, as padding leaves it. -/
def EvenEnd (ns : List Node) : Prop := ∀ ms n, ns = ms ++ [n] → n.Even

theorem evenEnd_padLead (hns : ∀ n ∈ ns, n.KindFits)
    (ho : o.total = mark + (Indent.measure ns).width) (hle : o.total ≤ reach os o.id) :
    EvenEnd (padLead os o d ns) := by
  have hgap : ∀ n ∈ gapNodes os o d, n.Even := by
    intro n hn
    obtain ⟨k, rfl⟩ := eq_ofSpace_of_mem_gapNodes hn
    intro _ c hc
    rw [splitFinalLine_of_noBreak (any_isBreak_replicate k)] at hc
    exact (List.mem_replicate.1 hc).2
  intro ms n h
  have hlast : (padLead os o d ns).getLast? = some n := by rw [h, List.getLast?_concat]
  rcases List.eq_nil_or_concat ns with rfl | ⟨ks, k, rfl⟩
  · exact hgap n (List.mem_of_getLast? hlast)
  · rw [List.concat_eq_append] at ho hns hlast
    rw [padLead_concat, List.getLast?_append] at hlast
    split at hlast
    · rename_i hk
      have hk := is_eq_true.1 hk
      obtain ⟨l, t, rfl⟩ := (hns k (by simp)).eq_leaf (by rw [hk]; rfl)
      simp only [List.getLast?_singleton, Option.some_or, Option.some.injEq] at hlast
      rw [← hlast]
      rw [Indent.measure_concat] at ho
      have hl : l.kind = .space := hk
      have hfinal := Indent.length_final_le_width hl t ks.reverse
      exact even_resize hle (by omega)
    · rename_i hk
      rw [List.getLast?_cons, Option.some_or, Option.some.injEq] at hlast
      cases hg : (gapNodes os o d).getLast? with
      | some g =>
        rw [hg, Option.getD_some] at hlast
        rw [← hlast]
        exact hgap g (List.mem_of_getLast? hg)
      | none =>
        rw [hg, Option.getD_none] at hlast
        rw [← hlast]
        cases k with
        | leaf l t =>
          intro (hl : (Node.leaf l t).kind = .space)
          exact absurd (is_eq_true.2 hl) hk
        | branch l cs => exact True.intro

/-- A lead that brings its value to the target is left alone. -/
theorem padLead_eq_self (hns : ∀ n ∈ ns, n.KindFits) (he : EvenEnd ns)
    (ho : o.total = mark + (Indent.measure ns).width) (ht : o.total = reach os o.id) :
    padLead os o d ns = ns := by
  rcases List.eq_nil_or_concat ns with rfl | ⟨ms, n, rfl⟩
  · exact gapNodes_of_le (by omega)
  · rw [List.concat_eq_append] at ho hns he ⊢
    rw [Indent.measure_concat] at ho
    rw [padLead_concat]
    split
    · rename_i hk
      have hk := is_eq_true.1 hk
      obtain ⟨l, t, rfl⟩ := (hns n (by simp)).eq_leaf (by rw [hk]; rfl)
      have hl : l.kind = .space := hk
      have hfinal := Indent.length_final_le_width hl t ms.reverse
      rw [resize_eq_self (he ms _ rfl) hl ht (by omega)]
    · rw [gapNodes_of_le (by omega)]

/-! ## Values -/

theorem mem_padLead {n : Node} (h : n ∈ padLead os o d ns) :
    n ∈ ns ∨ ∃ l t, n = .leaf l t ∧ l.kind = .space := by
  have hgap : ∀ m ∈ gapNodes os o d, ∃ l t, m = .leaf l t ∧ l.kind = .space := by
    intro m hm
    obtain ⟨k, rfl⟩ := eq_ofSpace_of_mem_gapNodes hm
    exact ⟨_, _, rfl, rfl⟩
  rcases List.eq_nil_or_concat ns with rfl | ⟨ms, m, rfl⟩
  · exact .inr (hgap n h)
  · rw [List.concat_eq_append] at h ⊢
    rw [padLead_concat] at h
    rcases List.mem_append.1 h with h | h
    · exact .inl (List.mem_append_left _ h)
    split at h
    · rename_i hk
      rw [List.mem_singleton.1 h]
      cases m with
      | leaf l t => exact .inr ⟨l, _, rfl, is_eq_true.1 hk⟩
      | branch l cs => exact .inl (by simp [resize])
    · rcases List.mem_cons.1 h with rfl | h
      · exact .inl (by simp)
      · exact .inr (hgap n h)

theorem isTrivia_padLead (hns : ∀ n ∈ ns, n.isTrivia = true) :
    ∀ n ∈ padLead os o d ns, n.isTrivia = true := by
  intro n hn
  rcases mem_padLead hn with h | ⟨l, t, rfl, hl⟩
  · exact hns n h
  · exact isTrivia_iff.2 (.inl hl)

theorem kindFits_padLead (hns : ∀ n ∈ ns, n.KindFits) : ∀ n ∈ padLead os o d ns, n.KindFits := by
  intro n hn
  rcases mem_padLead hn with h | ⟨l, t, rfl, hl⟩
  · exact hns n h
  · rw [KindFits, hl]
    rfl

variable {cs gap lead : List Node} {property colon value : Node}

theorem padValue_of_form (h : DeclarationForm cs property gap colon lead value) :
    padValue os o (.branch l cs) =
      .branch l (property :: (gap ++ colon :: (padLead os o l.dialect lead ++ [value]))) := by
  have hcs : (Node.branch l cs).children = cs := rfl
  have hcolon : colon.is .space = false := is_eq_false.2 (by rw [h.colon_kind]; decide)
  rw [padValue, hcs, h.cutLast?_value]
  show Node.branch l (padLead os o l.dialect _ ++ [value]) = _
  rw [padLead_append_cons _ _ hcolon]
  simp

/-- A declaration with its value padded, if the value has a name. -/
def padOwn (os : List Occurrence) (n : Node) : Node :=
  match valueOccurrence? n with
  | some o => padValue os o n
  | none => n

theorem padValues_eq_map (os : List Occurrence) (cs : List Node) :
    padValues os cs = cs.map (padOwn os) := rfl

/-- No name stands further to the right than its like are moved. -/
def InReach (os : List Occurrence) (n : Node) : Prop :=
  ∀ o, valueOccurrence? n = some o → o.total ≤ reach os o.id

theorem valueOccurrence?_of_kind_ne {n : Node} (hn : n.kind ≠ .declaration) :
    valueOccurrence? n = none := by
  rw [valueOccurrence?, valueName?, is_eq_false.2 hn, if_neg (by decide)]
  rfl

theorem kind_of_valueOccurrence? {n : Node} {o : Occurrence} (h : valueOccurrence? n = some o) :
    n.kind = .declaration := Decidable.byContradiction fun hne => by
  rw [valueOccurrence?_of_kind_ne hne] at h
  cases h

theorem padOwn_of_kind_ne {n : Node} (hn : n.kind ≠ .declaration) : padOwn os n = n := by
  rw [padOwn, valueOccurrence?_of_kind_ne hn]

/-- **Padding a value leaves its declaration in form and its name at its target.** -/
structure Padded (os : List Occurrence) (n n' : Node) : Prop where
  label_eq : n'.label = n.label
  formed : n'.Formed
  hasBreak_eq : n'.hasBreak = n.hasBreak
  property_eq : propertyName? n' = propertyName? n
  value_eq : valueName? n' = valueName? n
  lineBreak_eq : (valueIndent n').lineBreak = (valueIndent n).lineBreak
  noName : valueOccurrence? n = none → valueOccurrence? n' = none
  name : ∀ o, valueOccurrence? n = some o →
    ∃ o', valueOccurrence? n' = some o' ∧ o'.id = o.id ∧ o'.total = reach os o.id
  settled : ∀ os', (∀ id, reach os' id = reach os id) → padOwn os' n' = n'

theorem padded_of_noName {n : Node} (hn : n.Formed) (hv : valueOccurrence? n = none) :
    Padded os n n where
  label_eq := rfl
  formed := hn
  hasBreak_eq := rfl
  property_eq := rfl
  value_eq := rfl
  lineBreak_eq := rfl
  noName h := h
  name o ho := by rw [hv] at ho; cases ho
  settled os' _ := by rw [padOwn, hv]

theorem any_hasBreak_gapNodes : (gapNodes os o d).any hasBreak = false := by
  rw [List.any_eq_false]
  intro n hn
  obtain ⟨k, rfl⟩ := eq_ofSpace_of_mem_gapNodes hn
  rw [ofSpace, ofText, hasBreak, any_isBreak_replicate]
  decide

theorem lineBreak_measure_padLead : (Indent.measure (padLead os o d ns)).lineBreak =
    (Indent.measure ns).lineBreak := by
  rw [Indent.measure, Indent.measure, Indent.lineBreak_measureBack, Indent.lineBreak_measureBack,
    List.any_reverse, List.any_reverse]
  rcases List.eq_nil_or_concat ns with rfl | ⟨ms, n, rfl⟩
  · exact any_hasBreak_gapNodes
  · rw [List.concat_eq_append, padLead_concat, List.any_append, List.any_append]
    split
    · simp [hasBreak_resize]
    · simp [any_hasBreak_gapNodes]

/-- The namespace of a declaration's value. -/
def valueSpace (n : Node) : List Char :=
  match propertyName? n with
  | some property => (stripVendor property).1
  | none => []

theorem valueOccurrence?_of_form (h : DeclarationForm cs property gap colon lead value) :
    valueOccurrence? (.branch l cs) = (valueName? (.branch l cs)).map fun name =>
      .ofName name (valueSpace (.branch l cs)) (Indent.measure lead).width := by
  rw [valueOccurrence?, h.valueIndent]
  rfl

theorem padded_of_form {lead' : List Node} (hl : l.kind = .declaration)
    (hf : DeclarationForm cs property gap colon lead value) (hfits : ∀ c ∈ cs, c.KindFits)
    (hv : valueOccurrence? (.branch l cs) = some o) (hle : o.total ≤ reach os o.id)
    (hlead' : padLead os o l.dialect lead = lead') :
    Padded os (.branch l cs) (.branch l (property :: (gap ++ colon :: (lead' ++ [value])))) := by
  have hlead : ∀ m ∈ lead, m.KindFits := fun m hm => hfits m (by rw [hf.children]; simp [hm])
  have htrivia : ∀ m ∈ lead', m.isTrivia = true := by
    rw [← hlead']
    exact isTrivia_padLead hf.lead_trivia
  have hfits' : ∀ m ∈ lead', m.KindFits := by
    rw [← hlead']
    exact kindFits_padLead hlead
  have hf' := hf.withLead htrivia
  obtain ⟨hproperty, hvalue⟩ := hf.names_eq (l := l) hf'
  -- The occurrence behind the new lead differs in its indent only.
  rw [valueOccurrence?_of_form hf] at hv
  obtain ⟨name, hname, ho⟩ := Option.map_eq_some_iff.1 hv
  have hmark : o.total = (stripVendor name).2 + (Indent.measure lead).width := by rw [← ho]; rfl
  have hwidth := width_measure_padLead (d := l.dialect) hlead hmark hle
  have heven := evenEnd_padLead (d := l.dialect) hlead hmark hle
  rw [hlead'] at hwidth heven
  have hv' := valueOccurrence?_of_form (l := l) hf'
  rw [hvalue, hname, Option.map_some, valueSpace, hproperty] at hv'
  refine ⟨rfl, ⟨?_, fun _ => ⟨property, gap, colon, lead', value, hf', ?_⟩⟩, rfl, hproperty, hvalue,
    ?_, ?_, ?_, ?_⟩
  · rw [KindFits, hl]
    rfl
  · intro c hc
    by_cases hm : c ∈ lead'
    · exact hfits' c hm
    · apply hfits c
      rw [hf.children]
      simp only [Node.children, List.mem_cons, List.mem_append] at hc ⊢
      grind
  · rw [hf.valueIndent, hf'.valueIndent, ← hlead', lineBreak_measure_padLead]
  · intro hn
    rw [valueOccurrence?_of_form hf, hname] at hn
    cases hn
  · intro p hp
    rw [valueOccurrence?_of_form hf, hv, Option.some.injEq] at hp
    refine ⟨_, hv', ?_, ?_⟩
    · rw [← hp, ← ho]
      rfl
    · rw [← hp]
      exact hwidth
  · intro os' hr
    rw [padOwn, hv']
    show padValue os' _ _ = _
    rw [padValue_of_form hf', padLead_eq_self hfits' heven rfl]
    rw [hr, Occurrence.total_ofName, hwidth, ← ho]
    rfl

theorem padded_padOwn {n : Node} (hn : n.Formed) (hr : InReach os n) :
    Padded os n (padOwn os n) := by
  cases hv : valueOccurrence? n with
  | none =>
    rw [padOwn, hv]
    exact padded_of_noName hn hv
  | some o =>
    have hk := kind_of_valueOccurrence? hv
    obtain ⟨l, cs, rfl⟩ := hn.fits.eq_branch (by rw [hk]; rfl)
    obtain ⟨property, gap, colon, lead, value, hf, hfits⟩ := hn.declaration hk
    have hf : DeclarationForm cs property gap colon lead value := hf
    have hpad : padOwn os (.branch l cs) = padValue os o (.branch l cs) := by rw [padOwn, hv]
    rw [hpad, padValue_of_form hf]
    exact padded_of_form hk hf hfits hv (hr o hv) rfl

/-! ## All values of a block -/

theorem filterMap_values (cs : List Node) :
    (values cs).filterMap id = cs.filterMap valueOccurrence? := by
  rw [values, List.filterMap_map]
  rfl

theorem allRaised_padValues (hcs : ∀ n ∈ cs, n.Formed) (hr : ∀ n ∈ cs, InReach os n) :
    AllRaised os (cs.filterMap valueOccurrence?)
      ((padValues os cs).filterMap valueOccurrence?) := by
  induction cs with
  | nil => exact .refl fun o ho => nomatch ho
  | cons n cs ih =>
    have hn := padded_padOwn (hcs n List.mem_cons_self) (hr n List.mem_cons_self)
    have htail := ih (fun m hm => hcs m (List.mem_cons_of_mem _ hm))
      (fun m hm => hr m (List.mem_cons_of_mem _ hm))
    rw [padValues_eq_map] at htail ⊢
    rw [List.map_cons]
    cases hv : valueOccurrence? n with
    | none => rwa [List.filterMap_cons_none hv, List.filterMap_cons_none (hn.noName hv)]
    | some o =>
      obtain ⟨o', ho', hid, ht⟩ := hn.name o hv
      have hle := hr n List.mem_cons_self o hv
      rw [List.filterMap_cons_some hv, List.filterMap_cons_some ho']
      exact .cons ⟨hid, by omega, by omega⟩ htail

/-- Values at their targets stay where they are. -/
theorem padValues_eq_self {os' : List Occurrence} (hcs : ∀ n ∈ cs, n.Formed)
    (hr : ∀ n ∈ cs, InReach os n) (hreach : ∀ id, reach os' id = reach os id) :
    padValues os' (padValues os cs) = padValues os cs := by
  rw [padValues_eq_map, padValues_eq_map, List.map_map]
  apply List.map_congr_left
  intro n hn
  exact (padded_padOwn (hcs n hn) (hr n hn)).settled os' hreach

end VendorAlign

end TidySheet
