import TidySheet.Proofs.Growth
import TidySheet.Proofs.Targets
import TidySheet.Proofs.VendorPlaces

/-!
# What decides the whitespace before a value

The name of a value is meant to be aligned with the same names behind the same property. But it is
looked up by its id, the two names in one text with nothing in between, so that other properties and
values can have that id too. Here the values that are meant, the kin of a declaration, are told from
the strangers that share its id.

* `reach_valueId` — a value is moved to the largest offset among its kin and the strangers;
* `map_valueGap?_alignChildren` — the whitespace before the values of an aligned block;
* `movedGap_inj` — values that are moved to other targets get other whitespace;
* `settledGap_process` — the values of all blocks of a parsed tree, and when a value gets the same
  whitespace in two blocks that have the same kin for it.
-/

set_option autoImplicit false

namespace TidySheet

namespace VendorBlock

open Node

/-! ## Kin and strangers -/

/-- What the name of a value is meant to be aligned by: the base name of the property, if there is
one, and its own. -/
def valueKey? (n : Node) : Option (Option (List Char) × List Char) :=
  (valueName? n).map fun name =>
    ((propertyName? n).map fun property => (stripVendor property).1, (stripVendor name).1)

/-- The declarations of a block with the key of `n`. -/
def kin (cs : List Node) (n : Node) : List Node := cs.filter fun m => valueKey? m == valueKey? n

/-- The names of a block but for those of the kin's values. -/
def others (cs : List Node) (n : Node) : List Occurrence :=
  (properties cs).filterMap id ++
    (cs.filter fun m => valueKey? m != valueKey? n).filterMap valueOccurrence?

/-- What the name of a value is aligned by. -/
def valueId (n : Node) : List Char := ((valueOccurrence? n).map Occurrence.id).getD []

/-- The largest offset among the kin of a declaration. -/
def kinReach (cs : List Node) (n : Node) : Nat :=
  furthest ((kin cs n).filterMap valueOccurrence?) (valueId n)

/-- The largest offset among the strangers, the other names with the id of a declaration. -/
def strangerReach (cs : List Node) (n : Node) : Nat := furthest (others cs n) (valueId n)

variable {os as bs : List Occurrence} {id : List Char} {cs : List Node} {n : Node}

theorem furthest_le {k : Nat} (h : ∀ o ∈ os, o.id = id → o.total ≤ k) : furthest os id ≤ k := by
  by_cases hz : furthest os id = 0
  · omega
  · obtain ⟨o, ho, hid, ht⟩ := exists_total_eq_furthest hz
    rw [← ht]
    exact h o ho hid

theorem furthest_eq_max (h : ∀ o, o ∈ os ↔ o ∈ as ∨ o ∈ bs) :
    furthest os id = max (furthest as id) (furthest bs id) := by
  apply Nat.le_antisymm
  · refine furthest_le fun o ho hid => ?_
    rcases (h o).1 ho with ha | hb
    · have hle := total_le_furthest ha
      rw [hid] at hle
      omega
    · have hle := total_le_furthest hb
      rw [hid] at hle
      omega
  · have hpart : ∀ {cs : List Occurrence}, (∀ o ∈ cs, o ∈ os) → furthest cs id ≤ furthest os id := by
      intro cs hcs
      refine furthest_le fun o ho hid => ?_
      rw [← hid]
      exact total_le_furthest (hcs o ho)
    exact Nat.max_le.2 ⟨hpart fun o ho => (h o).2 (.inl ho), hpart fun o ho => (h o).2 (.inr ho)⟩

/-- **The target of a value** is the largest offset among its kin and the strangers. -/
theorem reach_valueId (cs : List Node) (n : Node) :
    reach (occurrences cs) (valueId n) = max (kinReach cs n) (strangerReach cs n) := by
  rw [reach_eq_furthest, kinReach, strangerReach]
  refine furthest_eq_max fun o => ?_
  rw [occurrences, VendorAlign.filterMap_values, others]
  simp only [kin, List.mem_append, List.mem_filterMap, List.mem_filter, beq_iff_eq, bne_iff_ne]
  constructor
  · rintro (ho | ⟨m, hm, ho⟩)
    · exact .inr (.inl ho)
    · by_cases hk : valueKey? m = valueKey? n
      · exact .inl ⟨m, ⟨hm, hk⟩, ho⟩
      · exact .inr (.inr ⟨m, ⟨hm, hk⟩, ho⟩)
  · rintro (⟨m, ⟨hm, -⟩, ho⟩ | ho | ⟨m, ⟨hm, -⟩, ho⟩)
    · exact .inr ⟨m, hm, ho⟩
    · exact .inl ho
    · exact .inr ⟨m, hm, ho⟩

theorem valueId_eq {o : Occurrence} (h : valueOccurrence? n = some o) : valueId n = o.id := by
  rw [valueId, h]
  rfl

theorem total_le_kinReach {o : Occurrence} (hn : n ∈ cs) (h : valueOccurrence? n = some o) :
    o.total ≤ kinReach cs n := by
  rw [kinReach, valueId_eq h]
  apply total_le_furthest
  exact List.mem_filterMap.2 ⟨n, List.mem_filter.2 ⟨hn, by simp⟩, h⟩

/-! ### Places do not matter -/

theorem valueId_unplace (n : Node) : valueId n.unplace = valueId n := by
  rw [valueId, valueId, valueOccurrence?_unplace]

/-- Kin reach as far whatever else is in their block and wherever they stand. -/
theorem kinReach_congr {ds : List Node} {m : Node} (hn : m.unplace = n.unplace)
    (hk : (kin ds m).map unplace = (kin cs n).map unplace) : kinReach ds m = kinReach cs n := by
  have hvalues : ∀ ms : List Node,
      ms.filterMap valueOccurrence? = (ms.map unplace).filterMap valueOccurrence? := by
    intro ms
    rw [List.filterMap_map]
    exact List.filterMap_congr fun m _ => (valueOccurrence?_unplace m).symm
  rw [kinReach, kinReach, hvalues, hk, ← hvalues, ← valueId_unplace m, hn, valueId_unplace]

/-- The declarations among the children of a block. -/
def declarations (cs : List Node) : List Node := cs.filter (·.is .declaration)

/-- The text between the colon of a declaration and its value. -/
def valueGap? (n : Node) : Option (List Char) := (valueLead? n).map charsOf

theorem valueGap?_unplace (n : Node) : valueGap? n.unplace = valueGap? n := by
  rw [valueGap?, valueGap?, valueLead?_unplace, Option.map_map]
  exact congrArg (fun f => (valueLead? n).map f) (funext charsOf_unplace)

theorem map_declarations {α : Type} (f : Node → α) (cs : List Node) :
    (declarations cs).map f = cs.flatMap fun n => if n.is .declaration then [f n] else [] := by
  induction cs with
  | nil => rfl
  | cons n cs ih =>
    rw [declarations, List.filter_cons, List.flatMap_cons, ← ih]
    split <;> rfl

end VendorBlock

namespace VendorAlign

open Node VendorBlock

variable {os os' : List Occurrence} {o : Occurrence} {d k : Dialect} {cs : List Node} {n : Node}

/-! ## Padding depends on the target alone -/

theorem target?_eq (os : List Occurrence) (id : List Char) :
    target? os id = if reach os id = 0 then none else some (reach os id) := by
  cases ht : target? os id with
  | none => rw [if_pos (target?_eq_none ht)]
  | some k =>
    obtain ⟨hk, hne⟩ := target?_eq_some ht
    rw [← hk, if_neg hne]

theorem padded?_congr (h : reach os o.id = reach os' o.id) : padded? os o = padded? os' o := by
  funext t
  rw [padded?, padded?, target?_eq, target?_eq, h]

theorem padLead_congr (h : reach os o.id = reach os' o.id) (ns : List Node) :
    padLead os o d ns = padLead os' o d ns := by
  have hpadded := padded?_congr h
  have hgap : gapNodes os o d = gapNodes os' o d := by
    rw [gapNodes, gapNodes, gap?, gap?, hpadded]
  have hresize : resize os o = resize os' o := by
    funext n
    cases n with
    | leaf l t => rw [resize, resize, hpadded]
    | branch l cs => rfl
  rcases List.eq_nil_or_concat' ns with rfl | ⟨ms, n, rfl⟩
  · exact hgap
  · rw [padLead_concat, padLead_concat, hgap, hresize]

theorem padOwn_congr (h : ∀ o, valueOccurrence? n = some o → reach os o.id = reach os' o.id) :
    padOwn os n = padOwn os' n := by
  unfold padOwn
  split
  · rename_i o ho
    unfold padValue
    split
    · rfl
    · rw [padLead_congr (h o ho)]
  · rfl

/-- The text before the value of a declaration, once it is padded for names with its id that reach
as far as `target`. -/
def movedGap (target : Nat) (n : Node) : Option (List Char) :=
  valueGap? (padOwn [⟨valueId n, [], target, 0⟩] n)

theorem reach_single (id : List Char) (target : Nat) : reach [⟨id, [], target, 0⟩] id = target := by
  rw [reach_eq_furthest]
  simp [furthest, Occurrence.total]

theorem valueGap?_padOwn (n : Node) :
    valueGap? (padOwn os n) = movedGap (reach os (valueId n)) n := by
  rw [movedGap, padOwn_congr fun o ho => ?_]
  rw [← valueId_eq ho, reach_single]

theorem movedGap_of_noName (h : valueName? n = none) (target : Nat) :
    movedGap target n = valueGap? n := by
  have ho : valueOccurrence? n = none := by rw [valueOccurrence?, h]; rfl
  rw [movedGap, padOwn, ho]

theorem movedGap_unplace (target : Nat) (n : Node) :
    movedGap target n.unplace = movedGap target n := by
  rw [movedGap, movedGap, valueId_unplace, ← valueGap?_unplace (padOwn _ n)]
  apply congrArg
  unfold padOwn
  rw [valueOccurrence?_unplace]
  split
  · exact (padValue_unplace _ _ n).symm
  · rfl

/-- The text before a value is longer by what the value lacks. -/
theorem length_movedGap (hn : n.Formed) (ho : valueOccurrence? n = some o) {target : Nat}
    (hle : o.total ≤ target) : ∃ lead gap, valueLead? n = some lead ∧
      movedGap target n = some gap ∧ gap.length = (charsOf lead).length + (target - o.total) := by
  have hk := kind_of_valueOccurrence? ho
  obtain ⟨l, ds, rfl⟩ := hn.fits.eq_branch (by rw [hk]; rfl)
  obtain ⟨property, gap, colon, lead, value, hf, hfits⟩ := hn.declaration hk
  have hf : DeclarationForm ds property gap colon lead value := hf
  have hlead : ∀ m ∈ lead, m.KindFits := fun m hm => hfits m (by
    show m ∈ ds
    rw [hf.children]
    simp [hm])
  rw [movedGap, padOwn, ho, valueId_eq ho]
  have hreach := reach_single o.id target
  have htrivia : ∀ m ∈ padLead [⟨o.id, [], target, 0⟩] o l.dialect lead, m.isTrivia = true :=
    isTrivia_padLead hf.lead_trivia
  have hform := hf.withLead htrivia
  have htotal : ∃ mark, o.total = mark + (Indent.measure lead).width := by
    rw [valueOccurrence?_of_form hf] at ho
    obtain ⟨name, -, rfl⟩ := Option.map_eq_some_iff.1 ho
    exact ⟨_, rfl⟩
  obtain ⟨mark, hmark⟩ := htotal
  have hlength : weigh (fun n => n.chars.length)
      (padLead [⟨o.id, [], target, 0⟩] o l.dialect lead) =
        weigh (fun n => n.chars.length) lead + lack [⟨o.id, [], target, 0⟩] o :=
    weigh_padLead weight_chars hlead hmark (by rw [hreach]; exact hle)
  rw [weigh_chars, weigh_chars, lack, hreach] at hlength
  refine ⟨lead, _, hf.valueLead?, ?_, hlength⟩
  show valueGap? (padValue _ o (.branch l ds)) = _
  rw [padValue_of_form hf, valueGap?, hform.valueLead?]
  rfl

/-- **Values that are moved to other targets get other whitespace.** -/
theorem movedGap_inj (hn : n.Formed) (ho : valueOccurrence? n = some o) {s t : Nat}
    (hs : o.total ≤ s) (ht : o.total ≤ t) : movedGap s n = movedGap t n ↔ s = t := by
  constructor
  · intro h
    obtain ⟨lead, gap, hlead, hgap, hlength⟩ := length_movedGap hn ho hs
    obtain ⟨lead', gap', hlead', hgap', hlength'⟩ := length_movedGap hn ho ht
    rw [hlead, Option.some.injEq] at hlead'
    rw [hgap, hgap', Option.some.injEq] at h
    rw [h, hlead'] at hlength
    omega
  · rintro rfl
    rfl

/-! ## Blocks -/

/-- The text before the value of a declaration in an aligned block. -/
def settledGap (d : Dialect) (cs : List Node) (n : Node) : Option (List Char) :=
  if isOneLine cs && d != .sass then valueGap? n
  else movedGap (max (kinReach cs n) (strangerReach cs n)) n

theorem kind_padOwn_of_formed (hn : n.Formed) (hm : n ∈ cs) :
    (padOwn (occurrences cs) n).is .declaration = n.is .declaration := by
  rw [is, is, Node.kind, Node.kind, (padded_padOwn hn (inReach_of_mem hm)).label_eq]

theorem map_valueGap?_padValues (hcs : ∀ n ∈ cs, n.Formed) :
    (declarations (padValues (occurrences cs) cs)).map valueGap? =
      (declarations cs).map fun n => movedGap (max (kinReach cs n) (strangerReach cs n)) n := by
  rw [map_declarations, map_declarations, padValues_eq_map, List.flatMap_map]
  apply List.flatMap_congr
  intro n hn
  rw [kind_padOwn_of_formed (hcs n hn) hn, valueGap?_padOwn, reach_valueId]

/-- **The whitespace before the values of an aligned block.** -/
theorem map_valueGap?_alignChildren (hcs : ∀ n ∈ cs, n.Formed) :
    (declarations (alignChildren d k cs)).map valueGap? =
      (declarations cs).map (settledGap d cs) := by
  unfold settledGap
  by_cases hd : d = .sass
  · rw [hd, alignChildren_of_sass, map_valueGap?_padValues hcs]
    simp
  cases hl : isOneLine cs with
  | true =>
    rw [alignChildren_of_oneLine hd hl]
    simp [hd]
  | false =>
    have hspace : ∀ l t, l.kind = .space →
        (if (Node.leaf l t).is .declaration then [valueGap? (.leaf l t)] else []) = [] := by
      intro l t hl
      rw [if_neg]
      rw [is_eq_true]
      show l.kind ≠ _
      rw [hl]
      decide
    rw [alignChildren_of_braces hcs hd hl, map_declarations, flatMap_padFrom hspace,
      ← map_declarations, map_valueGap?_padValues hcs]
    simp

/-- Aligning the blocks below changes no declaration. -/
theorem declarations_map (hcs : ∀ n ∈ cs, n.Formed) :
    declarations (cs.map (mapBlock (alignBlock d))) = declarations cs := by
  rw [declarations, declarations, List.filter_map]
  have hkind : ∀ n ∈ cs, ((fun n : Node => n.is .declaration) ∘ mapBlock (alignBlock d)) n =
      n.is .declaration := by
    intro n hn
    rw [Function.comp_apply, is, is, (alike_mapBlock (hcs n hn)).kind_eq]
  rw [List.filter_congr hkind]
  have hself : ∀ n ∈ cs.filter (·.is .declaration), n.mapBlock (alignBlock d) = id n := by
    intro n hn
    obtain ⟨hn, hk⟩ := List.mem_filter.1 hn
    exact mapBlock_declaration (hcs n hn) (is_eq_true.1 hk)
  rw [List.map_congr_left hself, List.map_id]

theorem settledGap_map (hcs : ∀ n ∈ cs, n.Formed) (n : Node) :
    settledGap d (cs.map (mapBlock (alignBlock d))) n = settledGap d cs n := by
  rw [settledGap, settledGap, ← reach_valueId, ← reach_valueId, occurrences_map hcs,
    isOneLine_map hcs]

/-- The whitespace before the values of a block does not depend on the blocks below it. -/
theorem map_valueGap?_mapBlock {block : Node} (h : block.All (Sound d)) (hk : block.kind = .block) :
    (declarations (block.mapBlock (alignBlock d)).children).map valueGap? =
      (declarations block.children).map (settledGap d block.children) := by
  obtain ⟨l, cs, rfl⟩ := h.self.kindFits.eq_branch (by rw [hk]; rfl)
  have hk : l.kind = .block := hk
  obtain ⟨hcs, hcs'⟩ := formed_children h
  rw [mapBlock_alignBlock_of_block hk]
  show (declarations (alignChildren d l.dialect _)).map valueGap? =
    (declarations cs).map (settledGap d cs)
  rw [map_valueGap?_alignChildren hcs', declarations_map hcs]
  exact List.map_congr_left fun n _ => settledGap_map hcs n

/-! ## Two blocks with the same kin -/

/-- **The whitespace before a value in two blocks with the same kin for it** is the same exactly if
the strangers make no difference to its target. -/
theorem settledGap_eq_iff {ds : List Node} {m : Node} (hn : n.Formed) (hmem : n ∈ cs)
    (hm : m.unplace = n.unplace) (hline : isOneLine ds = isOneLine cs)
    (hkin : (kin ds m).map unplace = (kin cs n).map unplace) :
    settledGap d ds m = settledGap d cs n ↔
      (isOneLine cs && d != .sass) = true ∨ valueName? n = none ∨
        max (kinReach cs n) (strangerReach ds m) = max (kinReach cs n) (strangerReach cs n) := by
  have hgap : valueGap? m = valueGap? n := by
    rw [← valueGap?_unplace m, hm, valueGap?_unplace]
  have hmoved : ∀ target, movedGap target m = movedGap target n := by
    intro target
    rw [← movedGap_unplace target m, hm, movedGap_unplace]
  rw [settledGap, settledGap, hline, kinReach_congr hm hkin, hgap, hmoved]
  split
  · rename_i hone
    exact ⟨fun _ => .inl hone, fun _ => rfl⟩
  rename_i hone
  cases hname : valueName? n with
  | none =>
    rw [movedGap_of_noName hname, movedGap_of_noName hname]
    exact ⟨fun _ => .inr (.inl rfl), fun _ => rfl⟩
  | some name =>
    have ho : ∃ o, valueOccurrence? n = some o := ⟨_, by rw [valueOccurrence?, hname]; rfl⟩
    obtain ⟨o, ho⟩ := ho
    have hle := total_le_kinReach hmem ho
    rw [movedGap_inj hn ho (by omega) (by omega)]
    constructor
    · exact fun h => .inr (.inr h)
    · rintro (h | h | h)
      · exact absurd h hone
      · cases h
      · exact h

/-- **What decides the whitespace before a value.** In every parsed tree and every block of it, the
text before the value of a declaration is, once the block is aligned, `settledGap`: in a block on one
line, but for sass, it stays, and else the value is padded for the largest offset of its kin and of
the strangers with its id. In another block that has the same declaration and the same kin for it,
and is on one line as this one is or is not, the text is the same exactly if the strangers of the
two blocks make no difference to that offset. -/
theorem settledGap_process (d : Dialect) (source : String) (tree : Node)
    (h : parse d source = .ok tree) :
    ∃ once, rule.process tree = .ok once ∧
      (once.blocks.map fun block => (declarations block.children).map valueGap?) =
        (tree.blocks.map fun block =>
          (declarations block.children).map (settledGap d block.children)) ∧
      ∀ block ∈ tree.blocks, ∀ n ∈ declarations block.children, ∀ (ds : List Node) (m : Node),
        m.unplace = n.unplace → isOneLine ds = isOneLine block.children →
        (kin ds m).map unplace = (kin block.children n).map unplace →
        (settledGap d ds m = settledGap d block.children n ↔
          (isOneLine block.children && d != .sass) = true ∨ valueName? n = none ∨
            max (kinReach block.children n) (strangerReach ds m) =
              max (kinReach block.children n) (strangerReach block.children n)) := by
  obtain ⟨ts, ns, hp⟩ := parsed_of_parseChars h
  have hsound := sound_of_parseChars h
  rw [hp.tree_eq] at hsound ⊢
  have hns : AllOf (Sound d) ns := hsound.children
  refine ⟨_, process_eq _ ns, ?_, ?_⟩
  · show ((Node.branch _ (ns.map (mapBlock (alignBlock d)))).blocks.map fun block =>
        (declarations block.children).map valueGap?) =
      ((Node.branch _ ns).blocks.map fun block =>
        (declarations block.children).map (settledGap d block.children))
    rw [blocks_aligned hns, List.map_map]
    refine List.map_congr_left (forall_mem_blocks.2 ?_)
    exact AllOf.imp (fun n hn hk => map_valueGap?_mapBlock hn hk) _ (AllOf.below _ hns)
  · refine forall_mem_blocks.2 (AllOf.imp (fun block hblock hk => ?_) _ (AllOf.below _ hns))
    intro n hn ds m hm hline hkin
    obtain ⟨l, cs, rfl⟩ := hblock.self.kindFits.eq_branch (by rw [hk]; rfl)
    have hn : n ∈ cs := (List.mem_filter.1 hn).1
    exact settledGap_eq_iff ((formed_children hblock).1 n hn) hn hm hline hkin

/-- The value of `bc` and its kin are the same in both blocks, but in the first one a value behind
another property has its id. -/
def strangeSheet : String :=
  "a \x7b\n  b: -webkit-cd;\n  bc: d\n\x7d\ne \x7b\n  f: -webkit-g;\n  bc: d\n\x7d"

theorem settledGap_process_strange : ∃ tree once, parse .css strangeSheet = .ok tree ∧
    rule.process tree = .ok once ∧
    (once.blocks.map fun block => (declarations block.children).map fun n =>
      (valueGap? n).map List.length) = [[some 1, some 9], [some 1, some 1]] ∧
    ∃ block ∈ tree.blocks, ∃ n ∈ declarations block.children,
      ∃ other ∈ tree.blocks, ∃ m ∈ declarations other.children,
        m.unplace = n.unplace ∧ isOneLine other.children = isOneLine block.children ∧
        (kin other.children m).map unplace = (kin block.children n).map unplace ∧
        settledGap .css other.children m ≠ settledGap .css block.children n := by
  have hgaps : ((parse .css strangeSheet).toOption.map fun tree => tree.blocks.map fun block =>
      (declarations block.children).map fun n =>
        (settledGap .css block.children n).map List.length) =
      some [[some 1, some 9], [some 1, some 1]] := by
    decide +kernel
  have hpair : ((parse .css strangeSheet).toOption.map fun tree => decide (
      ∃ block ∈ tree.blocks, ∃ n ∈ declarations block.children,
        ∃ other ∈ tree.blocks, ∃ m ∈ declarations other.children,
          m.unplace = n.unplace ∧ isOneLine other.children = isOneLine block.children ∧
          (kin other.children m).map unplace = (kin block.children n).map unplace ∧
          ¬ ((isOneLine block.children && Dialect.css != .sass) = true ∨ valueName? n = none ∨
            max (kinReach block.children n) (strangerReach other.children m) =
              max (kinReach block.children n) (strangerReach block.children n)))) =
      some true := by
    decide +kernel
  cases h : parse .css strangeSheet with
  | error e => rw [h] at hgaps; cases hgaps
  | ok tree =>
    obtain ⟨once, honce, hsettled, hiff⟩ := settledGap_process .css _ _ h
    rw [h] at hgaps hpair
    refine ⟨tree, once, rfl, honce, ?_, ?_⟩
    · have hlength := congrArg (List.map (List.map (Option.map List.length))) hsettled
      simp only [List.map_map, Function.comp_def] at hlength
      rw [hlength]
      simpa [List.map_map, Function.comp_def] using Option.some.inj hgaps
    · obtain ⟨block, hb, n, hn, other, ho, m, hm, hsame, hline, hkin, hfar⟩ :=
        of_decide_eq_true (Option.some.inj hpair)
      refine ⟨block, hb, n, hn, other, ho, m, hm, hsame, hline, hkin, ?_⟩
      exact mt (hiff block hb n hn other.children m hsame hline hkin).1 hfar

end VendorAlign

end TidySheet
