import Mathlib.Data.List.Basic
import TidySheet.Proofs.Realignment
import TidySheet.Proofs.Votes

/-!
# What an aligned block votes

Alignment moves names with one id to one column, and detection asks for one column among neighbours
with one base name. The id of a property is its base name, but that of a value has the base name of
its property in front; so detection also compares values that are aligned apart from each other.

* `votingProperties_alignChildren`, `votingValues_alignChildren` — the names that vote in an aligned
  block, in terms of the block before;
* `voteBlock_alignChildren` — an aligned block votes for alignment if no property is held back in it
  and no values are compared that have different ids;
* `withBlocks_mapBlock` — the blocks of an aligned tree;
* `detect_process` — what detection finds in an aligned tree.
-/

set_option autoImplicit false

namespace TidySheet

/-- The occurrence, moved so that its base name stands at a column offset. -/
def Occurrence.movedTo (o : Occurrence) (offset : Nat) : Occurrence :=
  { o with extra := offset - o.mark }

theorem Occurrence.eq_movedTo {o o' : Occurrence} (hid : o'.id = o.id) (hbase : o'.base = o.base)
    (hmark : o'.mark = o.mark) : o' = o.movedTo o'.total := by
  obtain ⟨id, base, mark, extra⟩ := o'
  obtain ⟨id', base', mark', extra'⟩ := o
  cases hid
  cases hbase
  cases hmark
  simp [movedTo, total]

theorem Occurrence.total_movedTo {o : Occurrence} {offset : Nat} (h : o.mark ≤ offset) :
    (o.movedTo offset).total = offset := by
  show o.mark + (offset - o.mark) = offset
  omega

theorem Occurrence.mark_le_total (o : Occurrence) : o.mark ≤ o.total := by
  unfold total
  omega

namespace VendorAlign

open Node VendorBlock

variable {os : List Occurrence} {o o' : Occurrence} {d k : Dialect}

/-! ## Properties -/

section

variable {seen : Bool} {before before' ns : List Node} {n : Node}

theorem eq_movedTo_of_propertyOccurrence? (ho : propertyOccurrence? before n = some o)
    (ho' : propertyOccurrence? before' n = some o') : o' = o.movedTo o'.total := by
  obtain ⟨name, hname, rfl⟩ := Option.map_eq_some_iff.1 ho
  rw [propertyOccurrence?, hname, Option.map_some, Option.some.injEq] at ho'
  apply Occurrence.eq_movedTo
  · rw [← ho']
    rfl
  · rw [← ho']
    rfl
  · rw [← ho']
    rfl

/-- Where padding leaves the properties behind the first sibling, given the occurrence of each. -/
def settled (os : List Occurrence) : List (Node × Option Occurrence) → List Occurrence
  | [] => []
  | [_] => []
  | (n, _) :: (m, o) :: rest =>
    (o.map fun o => o.movedTo (if hides n then o.total else reach os o.id)).toList ++
      settled os ((m, o) :: rest)

/-- The properties after padding: the first sibling has its own where it was, and the others are
settled. -/
theorem filterMap_propertiesFrom_padFrom (hw : Walk os seen before before' n ns) :
    (propertiesFrom before' (padFrom os d before (n :: ns))).filterMap id =
      (propertyOccurrence? before' n).toList ++
        settled os ((n :: ns).zip (propertiesFrom before (n :: ns))) := by
  induction ns generalizing seen before before' n with
  | nil =>
    rw [padFrom_singleton, filterMap_propertiesFrom_cons]
    rfl
  | cons m ns ih =>
    rw [padFrom_cons_cons, propertiesFrom_append, List.filterMap_append,
      filterMap_propertiesFrom_emit, ih hw.next]
    apply congrArg
    simp only [propertiesFrom_cons, List.zip_cons_cons, settled]
    apply congrArg (· ++ _)
    cases ho : propertyOccurrence? (leadPast before n) m with
    | none =>
      rw [propertyOccurrence?_eq_none ho]
      rfl
    | some o =>
      obtain ⟨o', ho', -, ht⟩ := hw.occurrence (d := d) ho
      rw [emit, ho', Option.map_some, ← ht, ← eq_movedTo_of_propertyOccurrence? ho ho']

theorem settled_eq (os : List Occurrence) (ps : List (Node × Option Occurrence)) :
    settled os ps = (followers ps).flatMap fun (hidden, p) =>
      (p.map fun o => o.movedTo (if hidden then o.total else reach os o.id)).toList := by
  fun_induction settled os ps with
  | case1 => rfl
  | case2 => rfl
  | case3 n q m p rest ih =>
    rw [ih]
    rfl

theorem settled_map {f : Node → Node} {cs : List Node} (ps : List (Option Occurrence))
    (hf : ∀ n ∈ cs, Alike n (f n)) : settled os ((cs.map f).zip ps) = settled os (cs.zip ps) := by
  rw [settled_eq, settled_eq, followers_map ps hf]

/-- A property that is not held back settles at its target. -/
theorem mem_settled {ps : List (Node × Option Occurrence)} (h : o' ∈ settled os ps)
    (hps : ∀ o, some o ∈ ps.map Prod.snd → o.total ≤ reach os o.id)
    (hstuck : hasStuck os ps = false) :
    ∃ o, some o ∈ ps.map Prod.snd ∧ o' = o.movedTo (reach os o.id) := by
  fun_induction settled os ps with
  | case1 => cases h
  | case2 p => cases h
  | case3 n q m p rest ih =>
    have htail : hasStuck os ((m, p) :: rest) = false → o' ∈ settled os ((m, p) :: rest) →
        ∃ o, some o ∈ ((n, q) :: (m, p) :: rest).map Prod.snd ∧ o' = o.movedTo (reach os o.id) := by
      intro hstuck h
      obtain ⟨o, ho, heq⟩ := ih h (fun o ho => hps o (List.mem_cons_of_mem _ ho)) hstuck
      exact ⟨o, List.mem_cons_of_mem _ ho, heq⟩
    cases p with
    | none =>
      simp only [hasStuck, Bool.false_or] at hstuck
      exact htail hstuck h
    | some o =>
      simp only [hasStuck, any_target?, Bool.or_eq_false_iff] at hstuck
      rcases List.mem_append.1 h with h | h
      · have hle := hps o (by simp)
        have hoffset : (if hides n then o.total else reach os o.id) = reach os o.id := by
          split
          · rename_i hh
            have hlt := hstuck.1
            rw [hh, Bool.true_and, decide_eq_false_iff_not] at hlt
            omega
          · rfl
        rw [Option.map_some, Option.toList_some, List.mem_singleton, hoffset] at h
        exact ⟨o, by simp, h⟩
      · exact htail hstuck.2 h

end

/-! ## Values -/

section

variable {cs : List Node}

theorem eq_movedTo_of_valueOccurrence? {n n' : Node} (hname : valueName? n' = valueName? n)
    (hid : o'.id = o.id) (ho : valueOccurrence? n = some o) (ho' : valueOccurrence? n' = some o') :
    o' = o.movedTo o'.total := by
  obtain ⟨name, hn, rfl⟩ := Option.map_eq_some_iff.1 ho
  rw [valueOccurrence?, hname, hn, Option.map_some, Option.some.injEq] at ho'
  apply Occurrence.eq_movedTo hid
  · rw [← ho']
    rfl
  · rw [← ho']
    rfl

theorem valueOccurrence?_padOwn {n : Node} (hn : n.Formed) (hr : InReach os n) :
    valueOccurrence? (padOwn os n) =
      (valueOccurrence? n).map fun o => o.movedTo (reach os o.id) := by
  have hp := padded_padOwn hn hr
  cases hv : valueOccurrence? n with
  | none => exact hp.noName hv
  | some o =>
    obtain ⟨o', ho', hid, ht⟩ := hp.name o hv
    rw [ho', Option.map_some, ← ht, ← eq_movedTo_of_valueOccurrence? hp.value_eq hid hv ho']

/-- All values of well-formed declarations vote. -/
theorem votingValues_eq (hcs : ∀ n ∈ cs, n.Formed) :
    votingValues cs = cs.filterMap valueOccurrence? := by
  apply List.filterMap_congr
  intro n hn
  by_cases hk : n.kind = .declaration
  · obtain ⟨l, ds, rfl⟩ := (hcs n hn).fits.eq_branch (by rw [hk]; rfl)
    obtain ⟨property, gap, colon, lead, value, hf, -⟩ := (hcs _ hn).declaration hk
    have hlead : valueLead? (.branch l ds) = some lead := hf.valueLead?
    rw [hlead]
    rfl
  · rw [valueOccurrence?_of_kind_ne hk]
    split <;> rfl

/-- What a list of nodes collects from its members is not changed by padding, unless it collects
from whitespace. -/
theorem flatMap_padFrom {α : Type} {g : Node → List α} {before ns : List Node}
    (hg : ∀ l t, l.kind = .space → g (.leaf l t) = []) :
    (padFrom os d before ns).flatMap g = ns.flatMap g := by
  have hgap : ∀ o, (gapNodes os o d).flatMap g = [] := by
    intro o
    rw [List.flatMap_eq_nil_iff]
    intro n hn
    obtain ⟨j, rfl⟩ := eq_ofSpace_of_mem_gapNodes hn
    exact hg _ _ rfl
  have hemit : ∀ (p : Option Occurrence) (n : Node), (emit os d p n).flatMap g = g n := by
    intro p n
    cases p with
    | none => simp [emit]
    | some o =>
      rw [emit, padSibling_eq]
      split
      · rename_i hk
        cases n with
        | branch l cs => simp [resize]
        | leaf l t =>
          have hl : l.kind = .space := is_eq_true.1 hk
          rw [List.flatMap_singleton, resize, hg l t hl, hg l _ hl]
      split
      · simp [hgap]
      · simp [hgap]
  induction ns generalizing before with
  | nil => rfl
  | cons n ns ih =>
    cases ns with
    | nil => rfl
    | cons m ns => rw [padFrom_cons_cons, List.flatMap_append, hemit, ih]; rfl

end

/-! ## Names that vote in an aligned block -/

section

variable {cs : List Node}

/-- Where alignment leaves the properties of a block that vote. -/
def settledProperties (cs : List Node) : List Occurrence :=
  settled (occurrences cs) (cs.zip (properties cs))

/-- Where alignment leaves the values of a block that vote. -/
def settledValues (cs : List Node) : List Occurrence :=
  (votingValues cs).map fun o => o.movedTo (reach (occurrences cs) o.id)

theorem votingProperties_alignChildren (hcs : ∀ n ∈ cs, n.Formed) (hs : Separated false cs)
    (hd : d ≠ .sass) (hl : isOneLine cs = false) :
    votingProperties (alignChildren d k cs) = settledProperties cs := by
  rw [alignChildren_of_braces hcs hd hl, votingProperties, settledProperties,
    ← settled_map (properties cs) (alike_padValues hcs), ← padValues_eq_map,
    ← properties_padValues hcs]
  cases hv : padValues (occurrences cs) cs with
  | nil => rfl
  | cons n ns =>
    have hall := filterMap_propertiesFrom_padFrom (d := k) (walk_padValues hcs hs hv)
    obtain ⟨f, fs, hfs, hf⟩ := exists_padFrom_cons (occurrences cs) k [] n ns
    -- Padding leaves the first property, if there is one, at the head of the list.
    have hfirst : propertyOccurrence? [] f = propertyOccurrence? [] n := by
      rcases hf with rfl | ⟨hn, hf⟩
      · rfl
      · rw [propertyOccurrence?_of_kind_ne hn, propertyOccurrence?_of_kind_ne hf]
    rw [hfs, filterMap_propertiesFrom_cons, hfirst] at hall
    rw [hfs, properties_eq, properties_eq, propertiesFrom_cons, List.drop_one, List.tail_cons]
    exact List.append_cancel_left hall

theorem votingValues_alignChildren (hcs : ∀ n ∈ cs, n.Formed) (hd : d ≠ .sass)
    (hl : isOneLine cs = false) :
    votingValues (alignChildren d k cs) = settledValues cs := by
  have hspace : ∀ (l : Label) (t : List Char), l.kind = .space →
      (valueOccurrence? (.leaf l t)).toList = [] := by
    intro l t hl
    have hk : (Node.leaf l t).kind ≠ .declaration := by
      show l.kind ≠ _
      rw [hl]
      decide
    rw [valueOccurrence?_of_kind_ne hk]
    rfl
  rw [settledValues, votingValues_eq (formed_alignChildren hcs), votingValues_eq hcs,
    alignChildren_of_braces hcs hd hl, List.filterMap_eq_flatMap_toList, flatMap_padFrom hspace,
    ← List.filterMap_eq_flatMap_toList, padValues_eq_map, List.filterMap_map, List.map_filterMap]
  apply List.filterMap_congr
  intro n hn
  rw [Function.comp_apply, valueOccurrence?_padOwn (hcs n hn) (inReach_of_mem hn)]

/-! ## Groups of an aligned block -/

theorem total_movedTo_reach (ho : o ∈ os) : (o.movedTo (reach os o.id)).total = reach os o.id := by
  have hle := total_le_reach ho
  have hmark := o.mark_le_total
  exact Occurrence.total_movedTo (by omega)

/-- A property has no namespace, so the targets of properties go by their base names. -/
theorem total_of_mem_settledProperties (hd : d ≠ .sass) (hl : isOneLine cs = false)
    (hheld : isHeld d cs = false) (ho : o ∈ settledProperties cs) :
    o.total = reach (occurrences cs) o.base := by
  have hstuck : hasStuck (occurrences cs) (cs.zip (properties cs)) = false := by
    rwa [isHeld, bne_iff_ne.2 hd, hl, Bool.not_false, Bool.true_and, Bool.true_and] at hheld
  have hmap : (cs.zip (properties cs)).map Prod.snd = properties cs :=
    List.map_snd_zip (Nat.le_of_eq (length_properties cs))
  have hin : ∀ o, some o ∈ (cs.zip (properties cs)).map Prod.snd → o ∈ occurrences cs := by
    intro o ho
    rw [hmap] at ho
    exact List.mem_append_left _ (List.mem_filterMap.2 ⟨_, ho, rfl⟩)
  obtain ⟨p, hp, rfl⟩ := mem_settled ho (fun o ho => total_le_reach (hin o ho)) hstuck
  rw [total_movedTo_reach (hin p hp)]
  rw [hmap] at hp
  obtain ⟨⟨before, n⟩, -, hn⟩ := List.mem_map.1 hp
  obtain ⟨name, -, rfl⟩ := Option.map_eq_some_iff.1 hn
  rfl

theorem groupVote_of_mem_properties (hd : d ≠ .sass) (hl : isOneLine cs = false)
    (hheld : isHeld d cs = false) {g : List Occurrence} (hg : g ∈ groups (settledProperties cs)) :
    groupVote g ≠ some false := by
  apply groupVote_ne_false
  intro p o hpo
  obtain ⟨hmem, hbase, -⟩ := mem_neighbours_of_mem_rivals hg hpo
  obtain ⟨hp, ho⟩ := List.of_mem_zip hmem
  rw [total_of_mem_settledProperties hd hl hheld hp,
    total_of_mem_settledProperties hd hl hheld (List.mem_of_mem_tail ho), hbase]

/-- Values that detection compares share their id. -/
def SharesIds (cs : List Node) : Prop :=
  ∀ po ∈ (votingValues cs).zip (votingValues cs).tail, po.1.base = po.2.base →
    po.1.mark ≠ po.2.mark → po.1.id = po.2.id

instance (cs : List Node) : Decidable (SharesIds cs) :=
  inferInstanceAs (Decidable (∀ po ∈ (votingValues cs).zip (votingValues cs).tail, _))

theorem groupVote_of_mem_values (hcs : ∀ n ∈ cs, n.Formed) (hids : SharesIds cs)
    {g : List Occurrence} (hg : g ∈ groups (settledValues cs)) : groupVote g ≠ some false := by
  have hin : ∀ o ∈ votingValues cs, o ∈ occurrences cs := by
    intro o ho
    rw [votingValues_eq hcs, ← filterMap_values] at ho
    exact List.mem_append_right _ ho
  apply groupVote_ne_false
  intro p' o' hpo'
  obtain ⟨hmem, hbase, hmark⟩ := mem_neighbours_of_mem_rivals hg hpo'
  rw [settledValues, ← List.map_tail, List.zip_map, List.mem_map] at hmem
  obtain ⟨⟨p, o⟩, hpo, heq⟩ := hmem
  obtain ⟨rfl, rfl⟩ := Prod.mk.injEq .. ▸ heq
  obtain ⟨hp, ho⟩ := List.of_mem_zip hpo
  have hid : p.id = o.id := hids _ hpo hbase hmark
  show (p.movedTo (reach (occurrences cs) p.id)).total =
    (o.movedTo (reach (occurrences cs) o.id)).total
  rw [total_movedTo_reach (hin p hp), total_movedTo_reach (hin o (List.mem_of_mem_tail ho)), hid]

/-- The groups of an aligned block, by their vote. -/
def settledVotes (cs : List Node) (vote : Bool) : Nat :=
  (groups (settledProperties cs) ++ groups (settledValues cs)).countP (groupVote · == some vote)

/-- **A block votes for alignment once it is aligned**, if no property is held back in it and the
values that are compared share their id. -/
theorem settledVotes_false (hcs : ∀ n ∈ cs, n.Formed) (hd : d ≠ .sass) (hl : isOneLine cs = false)
    (hheld : isHeld d cs = false) (hids : SharesIds cs) : settledVotes cs false = 0 := by
  rw [settledVotes, List.countP_eq_zero]
  intro g hg
  rw [beq_iff_eq]
  rcases List.mem_append.1 hg with hg | hg
  · exact groupVote_of_mem_properties hd hl hheld hg
  · exact groupVote_of_mem_values hcs hids hg

theorem voteBlock_alignChildren (hcs : ∀ n ∈ cs, n.Formed) (hs : Separated false cs)
    (hd : d ≠ .sass) (hl : isOneLine cs = false) (l : Label) :
    voteBlock (.branch l (alignChildren d k cs)) ≠ some false ↔
      settledVotes cs false ≤ settledVotes cs true := by
  rw [voteBlock_ne_false, settledVotes, settledVotes, ← votingProperties_alignChildren hcs hs hd hl,
    ← votingValues_alignChildren hcs hd hl]
  exact Iff.rfl

end

end VendorAlign

/-! ## The blocks of an aligned tree -/

namespace Node

/-- The blocks in a tree, its root included. -/
def withBlocks (n : Node) : List Node := (if n.is .block then [n] else []) ++ n.blocks

theorem blocks_branch (l : Label) (cs : List Node) :
    (Node.branch l cs).blocks = cs.flatMap withBlocks := by
  have hfrom : ∀ (parent : Node) (i : Nat), ((visitsFrom parent i cs).filter
      (·.node.is .block)).map Visit.node = cs.flatMap withBlocks := by
    intro parent i
    induction cs generalizing i with
    | nil => simp [visitsFrom]
    | cons n cs ih =>
      rw [visitsFrom, List.filter_cons, List.filter_append, List.flatMap_cons, ← ih (i + 1),
        withBlocks, blocks, visitsOfKind]
      split <;> simp
  rw [blocks, visitsOfKind, visits]
  exact hfrom _ 0

theorem forall_mem_withBlocks {P : Node → Prop} {ns : List Node} :
    (∀ block ∈ ns.flatMap withBlocks, P block) ↔ AllOf (fun m => m.kind = .block → P m) ns := by
  rw [← blocks_branch ⟨.stylesheet, .css, .unplaced⟩]
  exact forall_mem_blocks

theorem withBlocks_of_no_block {n : Node} (h : n.All fun m => m.kind ≠ .block) :
    n.withBlocks = [] := by
  have hblocks : n.blocks = [] := by
    rw [List.eq_nil_iff_forall_not_mem]
    exact forall_mem_blocks.2 (AllOf.imp (fun _ hm hk => hm hk) _ h.children)
  rw [withBlocks, is_eq_false.2 h.self, hblocks]
  rfl

/-- Whitespace holds text and has nothing below it. -/
def Flat (n : Node) : Prop := n.kind = .space → n.text?.isSome = true

theorem Flat.withBlocks_eq {n : Node} (hn : n.Flat) (hk : n.kind = .space) : n.withBlocks = [] := by
  cases n with
  | leaf l t =>
    have hl : l.kind = .space := hk
    exact withBlocks_of_no_block (no_block_leaf (by rw [hl]; rfl))
  | branch l cs => cases hn hk

end Node

namespace VendorAlign

open Node VendorBlock

variable {d k : Dialect}

theorem flatMap_alignChildren {α : Type} {g : Node → List α} {cs : List Node}
    (hcs : ∀ n ∈ cs, n.Formed) (hspace : ∀ l t, l.kind = .space → g (.leaf l t) = [])
    (hdecl : ∀ n : Node, n.Formed → n.kind = .declaration → g n = []) :
    (alignChildren d k cs).flatMap g = cs.flatMap g := by
  have hvalues : (padValues (occurrences cs) cs).flatMap g = cs.flatMap g := by
    rw [padValues_eq_map, List.flatMap_map]
    apply List.flatMap_congr
    intro n hn
    by_cases hk : n.kind = .declaration
    · have hp := padded_padOwn (hcs n hn) (inReach_of_mem hn)
      have hk' : (padOwn (occurrences cs) n).kind = .declaration := by
        rw [Node.kind, hp.label_eq]
        exact hk
      rw [hdecl n (hcs n hn) hk, hdecl _ hp.formed hk']
    · rw [padOwn_of_kind_ne hk]
  by_cases hd : d = .sass
  · rw [hd, alignChildren_of_sass, hvalues]
  cases hl : isOneLine cs with
  | true => rw [alignChildren_of_oneLine hd hl]
  | false => rw [alignChildren_of_braces hcs hd hl, flatMap_padFrom hspace, hvalues]

/-- **The blocks of an aligned tree are those of the tree, aligned.** -/
theorem withBlocks_mapBlock (n : Node) (h : n.All (Sound d)) :
    (n.mapBlock (alignBlock d)).withBlocks = n.withBlocks.map (mapBlock (alignBlock d)) := by
  induction n using inductionOnChildren with
  | leaf l t =>
    rw [mapBlock_leaf h.self.kindFits, withBlocks_of_no_block (no_block_leaf h.self.kindFits)]
    rfl
  | branch l cs ih =>
    have hin : (cs.map (mapBlock (alignBlock d))).flatMap withBlocks =
        (cs.flatMap withBlocks).map (mapBlock (alignBlock d)) := by
      rw [List.flatMap_map, List.map_flatMap]
      exact List.flatMap_congr fun c hc => ih c hc ((allOf_iff cs).1 h.children c hc)
    by_cases hl : l.kind = .block
    · have hflat := flatMap_alignChildren (d := d) (k := l.dialect) (g := withBlocks)
        (formed_children h).2
        (fun m t hm => withBlocks_of_no_block (no_block_leaf (by rw [hm]; rfl)))
        (fun n hn hk => withBlocks_of_no_block (hn.no_block hk))
      have hblock : ∀ ds, (Node.branch l ds).is .block = true := fun _ => is_eq_true.2 hl
      rw [mapBlock_alignBlock_of_block hl, withBlocks, withBlocks, hblock,
        hblock, blocks_branch, blocks_branch, hflat, hin, if_pos rfl, if_pos rfl,
        List.map_append, List.map_singleton, mapBlock_alignBlock_of_block hl]
    · have hblock : ∀ ds, (Node.branch l ds).is .block = false := fun _ => is_eq_false.2 hl
      rw [mapBlock_alignBlock_of_ne hl, withBlocks, withBlocks, hblock,
        hblock, blocks_branch, blocks_branch, hin]
      rfl

/-! What is read off a block does not depend on the blocks below it. -/

theorem votingValues_map {cs : List Node} (hcs : ∀ n ∈ cs, n.Formed) :
    votingValues (cs.map (mapBlock (alignBlock d))) = votingValues cs := by
  have hcs' : ∀ n ∈ cs.map (mapBlock (alignBlock d)), n.Formed := by
    intro n hn
    obtain ⟨c, hc, rfl⟩ := List.mem_map.1 hn
    exact formed_mapBlock (hcs c hc)
  rw [votingValues_eq hcs, votingValues_eq hcs', List.filterMap_map]
  apply List.filterMap_congr
  intro n hn
  exact valueOccurrence?_mapBlock (hcs n hn)

theorem settledVotes_map {cs : List Node} (hcs : ∀ n ∈ cs, n.Formed) (vote : Bool) :
    settledVotes (cs.map (mapBlock (alignBlock d))) vote = settledVotes cs vote := by
  have hf : ∀ n ∈ cs, Alike n (n.mapBlock (alignBlock d)) := fun n hn => alike_mapBlock (hcs n hn)
  rw [settledVotes, settledVotes, settledProperties, settledProperties, settledValues,
    settledValues, occurrences_map hcs, votingValues_map hcs, properties_map hf, settled_map _ hf]

/-- One block of a parsed tree, once it is aligned. -/
theorem voteBlock_mapBlock {block : Node} (h : block.All (Sound d)) (hk : block.kind = .block)
    (hd : d ≠ .sass) (hl : isOneLine block.children = false) :
    voteBlock (block.mapBlock (alignBlock d)) ≠ some false ↔
      settledVotes block.children false ≤ settledVotes block.children true := by
  obtain ⟨l, cs, rfl⟩ := h.self.kindFits.eq_branch (by rw [hk]; rfl)
  have hk : l.kind = .block := hk
  obtain ⟨hcs, hcs'⟩ := formed_children h
  have hsep := separated_children h hk (Dialect.usesBraces_of_ne hd)
  have hl' : isOneLine (cs.map (mapBlock (alignBlock d))) = false := by
    rw [isOneLine_map hcs]
    exact hl
  rw [mapBlock_alignBlock_of_block hk, voteBlock_alignChildren hcs' hsep hd hl',
    settledVotes_map hcs, settledVotes_map hcs]
  exact Iff.rfl

/-- **What detection finds after alignment**, in a dialect with braces. Each block of the tree votes
in turn. A block that is not on one line votes against alignment exactly if more of its groups are
spoiled than are not; no group is spoiled unless a property is held back, or values are compared
whose properties have different base names, so that they were aligned apart. -/
theorem detect_process (d : Dialect) (hd : d ≠ .sass) (source : String) (tree : Node)
    (h : parse d source = .ok tree) :
    ∃ once, rule.process tree = .ok once ∧
      rule.detect once = .ok ((tree.blocks.map (mapBlock (alignBlock d))).filterMap voteBlock) ∧
      ∀ block ∈ tree.blocks, isOneLine block.children = false →
        (voteBlock (block.mapBlock (alignBlock d)) = some false ↔
          settledVotes block.children true < settledVotes block.children false) ∧
        (isHeld d block.children = false → SharesIds block.children →
          settledVotes block.children false = 0) := by
  obtain ⟨ts, ns, hp⟩ := parsed_of_parseChars h
  have hsound := sound_of_parseChars h
  rw [hp.tree_eq] at hsound ⊢
  refine ⟨_, process_eq _ ns, ?_, ?_⟩
  · have hblocks : (ns.map (mapBlock (alignBlock d))).flatMap withBlocks =
        (ns.flatMap withBlocks).map (mapBlock (alignBlock d)) := by
      rw [List.flatMap_map, List.map_flatMap]
      exact List.flatMap_congr fun c hc =>
        withBlocks_mapBlock c ((allOf_iff ns).1 hsound.children c hc)
    show rule.detect (.branch _ (ns.map (mapBlock (alignBlock d)))) =
      .ok (((Node.branch _ ns).blocks.map (mapBlock (alignBlock d))).filterMap voteBlock)
    rw [Rule.detect, if_pos (by cases d <;> rfl), blocks_branch, ← hblocks]
    show Except.ok (votes _) = _
    rw [votes, blocks_branch]
  · rw [forall_mem_blocks]
    refine AllOf.imp (fun n hn hk hl => ⟨?_, ?_⟩) _ (AllOf.below _ hsound.children)
    · have hvote := voteBlock_mapBlock hn hk hd hl
      rw [ne_eq, ← not_iff_not, not_not] at hvote
      rw [hvote]
      omega
    · intro hheld hids
      obtain ⟨l, cs, rfl⟩ := hn.self.kindFits.eq_branch (by rw [hk]; rfl)
      exact settledVotes_false (formed_children hn).1 hd hl hheld hids

/-- A sheet with one value under two properties. -/
def apartSheet : String := "a \x7b\n  b: -webkit-x;\n  c: x\n\x7d"

theorem detect_process_apart : ∃ tree once, parse .css apartSheet = .ok tree ∧
    rule.process tree = .ok once ∧ rule.detect once = .ok [false] ∧
    tree.blocks.all (fun block => !isOneLine block.children) = true := by
  have hread : ((parse .css apartSheet).toOption.map fun tree =>
      ((tree.blocks.map (mapBlock (alignBlock .css))).filterMap voteBlock,
        tree.blocks.all fun block => !isOneLine block.children)) = some ([false], true) := by
    decide +kernel
  cases h : parse .css apartSheet with
  | error e => rw [h] at hread; cases hread
  | ok tree =>
    obtain ⟨once, honce, hdetect, -⟩ := detect_process .css (by decide) _ _ h
    rw [h] at hread
    simp only [Except.toOption, Option.map_some, Option.some.injEq, Prod.mk.injEq] at hread
    exact ⟨tree, once, rfl, honce, by rw [hdetect, hread.1], hread.2⟩

end VendorAlign

end TidySheet
