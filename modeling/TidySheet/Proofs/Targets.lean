import Mathlib.Data.List.Forall2
import TidySheet.Proofs.Settling

/-!
# Names stand at their targets

An aligned block, measured again, has every value at the largest offset that a name with its id had
before. So it has every property in a dialect with braces, but for the first child, which has nothing
before it, and for a property right behind a comment with a break, which hides what is put before it.

* `furthest` — the largest offset of the names with an id, `reach_eq_furthest` — the target;
* `filterMap_properties_alignChildren` — the properties of an aligned block;
* `reached_alignChildren` — one block; `reached_process` — all blocks of a parsed tree.
-/

set_option autoImplicit false

namespace TidySheet

namespace VendorBlock

/-- The largest offset among the occurrences with an id. -/
def furthest (os : List Occurrence) (id : List Char) : Nat :=
  ((os.filter fun o => o.id == id).map Occurrence.total).max?.getD 0

variable {os : List Occurrence} {o : Occurrence} {id : List Char}

theorem total_le_furthest (ho : o ∈ os) : o.total ≤ furthest os o.id := by
  have hmem : o.total ∈ (os.filter fun p => p.id == o.id).map Occurrence.total :=
    List.mem_map_of_mem (List.mem_filter.2 ⟨ho, by simp⟩)
  unfold furthest
  cases hmax : ((os.filter fun p => p.id == o.id).map Occurrence.total).max? with
  | none =>
    rw [List.max?_eq_none_iff] at hmax
    rw [hmax] at hmem
    cases hmem
  | some m => exact (List.max?_eq_some_iff.1 hmax).2 _ hmem

theorem exists_total_eq_furthest (h : furthest os id ≠ 0) :
    ∃ o ∈ os, o.id = id ∧ o.total = furthest os id := by
  unfold furthest at h ⊢
  cases hmax : ((os.filter fun p => p.id == id).map Occurrence.total).max? with
  | none =>
    rw [hmax] at h
    exact absurd rfl h
  | some m =>
    obtain ⟨o, ho, ht⟩ := List.mem_map.1 (List.max?_eq_some_iff.1 hmax).1
    obtain ⟨ho, hid⟩ := List.mem_filter.1 ho
    exact ⟨o, ho, beq_iff_eq.1 hid, ht⟩

/-- Names without mark and indent set no target, but they are no further than any other. -/
theorem reach_eq_furthest (os : List Occurrence) (id : List Char) :
    reach os id = furthest os id := by
  apply Nat.le_antisymm
  · by_cases h : reach os id = 0
    · omega
    · obtain ⟨o, ho, rfl, ht⟩ := exists_total_eq_reach h
      rw [← ht]
      exact total_le_furthest ho
  · by_cases h : furthest os id = 0
    · omega
    · obtain ⟨o, ho, rfl, ht⟩ := exists_total_eq_furthest h
      rw [← ht]
      exact total_le_reach ho

end VendorBlock

namespace VendorAlign

open Node VendorBlock

variable {os : List Occurrence} {o : Occurrence} {d k : Dialect} {cs : List Node}

/-- The properties of a block. Each comes with whether it cannot be moved: it stands first in the
block, or right behind a comment with a break. -/
def propertyPlaces (cs : List Node) : List (Occurrence × Bool) :=
  ((properties cs).zip (true :: cs.map hides)).filterMap fun (o, fixed) => o.map (·, fixed)

/-- **The names of a block before and after alignment.** They are the same names in the same order,
with their ids. A value stands at the largest offset of its id; so does a property that can be
moved, and the others stand where they stood. -/
structure Reached (d : Dialect) (cs cs' : List Node) : Prop where
  values : List.Forall₂
    (fun o o' => o'.id = o.id ∧ o'.total = furthest (occurrences cs) o.id)
    ((values cs).filterMap id) ((values cs').filterMap id)
  properties : List.Forall₂
    (fun (p : Occurrence × Bool) o' => o'.id = p.1.id ∧ o'.total =
      if d = .sass ∨ p.2 = true then p.1.total else furthest (occurrences cs) p.1.id)
    (propertyPlaces cs) ((properties cs').filterMap id)

/-! ## Properties -/

/-- Behind the first sibling, each property looks at the sibling before it. -/
theorem settled_cons (os : List Occurrence) (n : Node) (p : Option Occurrence) (ns : List Node)
    (ps : List (Option Occurrence)) (hlength : ps.length = ns.length) :
    settled os ((n :: ns).zip (p :: ps)) =
      (ps.zip ((n :: ns).map hides)).filterMap fun (o, fixed) =>
        o.map fun o => o.movedTo (if fixed then o.total else reach os o.id) := by
  induction ns generalizing n p ps with
  | nil =>
    rw [List.length_nil, List.length_eq_zero_iff] at hlength
    subst hlength
    rfl
  | cons m ns ih =>
    cases ps with
    | nil => simp at hlength
    | cons q ps =>
      have htail := ih m q ps (by simpa using hlength)
      simp only [List.zip_cons_cons, List.map_cons] at htail ⊢
      rw [settled, htail]
      cases q <;> rfl

theorem movedTo_total (o : Occurrence) : o.movedTo o.total = o :=
  (Occurrence.eq_movedTo rfl rfl rfl).symm

theorem map_propertyPlaces (f : Occurrence → Bool → Occurrence) (cs : List Node) :
    (propertyPlaces cs).map (fun p => f p.1 p.2) =
      ((properties cs).zip (true :: cs.map hides)).filterMap fun (o, fixed) =>
        o.map fun o => f o fixed := by
  rw [propertyPlaces, List.map_filterMap]
  apply List.filterMap_congr
  rintro ⟨o, fixed⟩ -
  cases o <;> rfl

/-- **The properties of an aligned block**, in a dialect with braces. -/
theorem filterMap_properties_alignChildren (hcs : ∀ n ∈ cs, n.Formed) (hs : Separated false cs)
    (hd : d ≠ .sass) (hl : isOneLine cs = false) :
    (properties (alignChildren d k cs)).filterMap id = (propertyPlaces cs).map fun p =>
      p.1.movedTo (if p.2 = true then p.1.total else reach (occurrences cs) p.1.id) := by
  rw [map_propertyPlaces fun o fixed =>
      o.movedTo (if fixed = true then o.total else reach (occurrences cs) o.id),
    alignChildren_of_braces hcs hd hl, ← properties_padValues hcs]
  have hhides : cs.map hides = (padValues (occurrences cs) cs).map hides := by
    rw [padValues_eq_map, List.map_map]
    exact List.map_congr_left fun n hn => (hides_eq (alike_padValues hcs n hn)).symm
  rw [hhides]
  cases hv : padValues (occurrences cs) cs with
  | nil => rfl
  | cons n ns =>
    have hlength : (propertiesFrom (leadPast [] n) ns).length = ns.length := by
      simp [propertiesFrom]
    rw [properties_eq, properties_eq,
      filterMap_propertiesFrom_padFrom (walk_padValues hcs hs hv), propertiesFrom_cons,
      settled_cons _ n _ ns _ hlength, List.zip_cons_cons, List.filterMap_cons]
    -- the first child keeps its property where it is
    cases propertyOccurrence? [] n with
    | none => rfl
    | some o => simp [movedTo_total]

/-- A property that is measured is one of the block's occurrences. -/
theorem mem_occurrences_of_propertyPlaces {p : Occurrence × Bool} (hp : p ∈ propertyPlaces cs) :
    p.1 ∈ occurrences cs := by
  obtain ⟨⟨o, fixed⟩, hmem, hmap⟩ := List.mem_filterMap.1 hp
  obtain ⟨o', rfl, rfl⟩ := Option.map_eq_some_iff.1 hmap
  exact List.mem_append_left _ (List.mem_filterMap.2 ⟨_, (List.of_mem_zip hmem).1, rfl⟩)

/-! ## Blocks -/

theorem filterMap_values_alignChildren (hcs : ∀ n ∈ cs, n.Formed)
    (hl : (isOneLine cs && d != .sass) = false) :
    (values (alignChildren d k cs)).filterMap id =
      ((values cs).filterMap id).map fun o => o.movedTo (reach (occurrences cs) o.id) := by
  have hvalues : (padValues (occurrences cs) cs).filterMap valueOccurrence? =
      (cs.filterMap valueOccurrence?).map fun o => o.movedTo (reach (occurrences cs) o.id) := by
    rw [padValues_eq_map, List.filterMap_map, List.map_filterMap]
    exact List.filterMap_congr fun n hn => valueOccurrence?_padOwn (hcs n hn) (inReach_of_mem hn)
  rw [filterMap_values, filterMap_values]
  by_cases hd : d = .sass
  · rw [hd, alignChildren_of_sass, hvalues]
  · rw [bne_iff_ne.2 hd, Bool.and_true] at hl
    rw [← votingValues_eq (formed_alignChildren hcs), votingValues_alignChildren hcs hd hl,
      settledValues, votingValues_eq hcs]

/-- **One block**, unless it is left alone since it is on one line. -/
theorem reached_alignChildren (hcs : ∀ n ∈ cs, n.Formed)
    (hs : d.usesBraces = true → Separated false cs)
    (hl : (isOneLine cs && d != .sass) = false) : Reached d cs (alignChildren d k cs) := by
  constructor
  · rw [filterMap_values_alignChildren hcs hl, List.forall₂_map_right_iff, List.forall₂_same]
    intro o ho
    have hmem : o ∈ occurrences cs := List.mem_append_right _ ho
    exact ⟨rfl, by rw [total_movedTo_reach hmem, reach_eq_furthest]⟩
  by_cases hd : d = .sass
  · have hsame : (properties (alignChildren d k cs)).filterMap id =
        (propertyPlaces cs).map fun p => p.1 := by
      rw [hd, alignChildren_of_sass, properties_padValues hcs, map_propertyPlaces fun o _ => o]
      have hfst : ((properties cs).zip (true :: cs.map hides)).map Prod.fst = properties cs :=
        List.map_fst_zip (by simp)
      rw [← hfst, List.filterMap_map, hfst]
      apply List.filterMap_congr
      rintro ⟨o, fixed⟩ -
      cases o <;> rfl
    rw [hsame, List.forall₂_map_right_iff, List.forall₂_same]
    exact fun p _ => ⟨rfl, by rw [if_pos (.inl hd)]⟩
  · rw [bne_iff_ne.2 hd, Bool.and_true] at hl
    rw [filterMap_properties_alignChildren hcs (hs (Dialect.usesBraces_of_ne hd)) hd hl,
      List.forall₂_map_right_iff, List.forall₂_same]
    intro p hp
    refine ⟨rfl, ?_⟩
    have hmem := mem_occurrences_of_propertyPlaces hp
    cases hfixed : p.2 with
    | true => rw [if_pos rfl, if_pos (.inr rfl), movedTo_total]
    | false =>
      rw [if_neg Bool.false_ne_true, if_neg (by simp [hd]), total_movedTo_reach hmem,
        reach_eq_furthest]

/-- What is reached does not depend on the blocks below a block. -/
theorem reached_mapBlock {block : Node} (h : block.All (Sound d)) (hk : block.kind = .block)
    (hl : (isOneLine block.children && d != .sass) = false) :
    Reached d block.children (block.mapBlock (alignBlock d)).children := by
  obtain ⟨l, cs, rfl⟩ := h.self.kindFits.eq_branch (by rw [hk]; rfl)
  have hk : l.kind = .block := hk
  have hl : (isOneLine cs && d != .sass) = false := hl
  obtain ⟨hcs, hcs'⟩ := formed_children h
  have hf : ∀ n ∈ cs, Alike n (n.mapBlock (alignBlock d)) := fun n hn => alike_mapBlock (hcs n hn)
  rw [← isOneLine_map (d := d) hcs] at hl
  have hreached := reached_alignChildren (k := l.dialect) hcs' (separated_children h hk) hl
  have hvalues : (values (cs.map (mapBlock (alignBlock d)))).filterMap id =
      (values cs).filterMap id := by
    rw [filterMap_values, filterMap_values, ← votingValues_eq hcs', ← votingValues_eq hcs,
      votingValues_map hcs]
  have hplaces : propertyPlaces (cs.map (mapBlock (alignBlock d))) = propertyPlaces cs := by
    rw [propertyPlaces, propertyPlaces, properties_map hf, List.map_map]
    have hhides : cs.map (hides ∘ mapBlock (alignBlock d)) = cs.map hides :=
      List.map_congr_left fun n hn => hides_eq (hf n hn)
    rw [hhides]
  obtain ⟨hv, hp⟩ := hreached
  rw [occurrences_map hcs, hvalues] at hv
  rw [occurrences_map hcs, hplaces] at hp
  rw [mapBlock_alignBlock_of_block hk]
  exact ⟨hv, hp⟩

/-- The blocks of an aligned sheet are those of the sheet, aligned. -/
theorem blocks_aligned {l : Label} {ns : List Node} (h : AllOf (Sound d) ns) :
    (Node.branch l (ns.map (mapBlock (alignBlock d)))).blocks =
      (Node.branch l ns).blocks.map (mapBlock (alignBlock d)) := by
  rw [blocks_branch, blocks_branch, List.flatMap_map, List.map_flatMap]
  exact List.flatMap_congr fun c hc => withBlocks_mapBlock c ((allOf_iff ns).1 h c hc)

/-- **Alignment reaches its targets.** In every parsed tree and every block of it that is not left
alone since it is on one line, all names stand at their targets afterwards. -/
theorem reached_process (d : Dialect) (source : String) (tree : Node)
    (h : parse d source = .ok tree) :
    ∃ once, rule.process tree = .ok once ∧ List.Forall₂
      (fun block aligned => (isOneLine block.children && d != .sass) = false →
        Reached d block.children aligned.children) tree.blocks once.blocks := by
  obtain ⟨ts, ns, hp⟩ := parsed_of_parseChars h
  have hsound := sound_of_parseChars h
  rw [hp.tree_eq] at hsound ⊢
  refine ⟨_, process_eq _ ns, ?_⟩
  show List.Forall₂ _ (Node.branch _ ns).blocks
    (Node.branch _ (ns.map (mapBlock (alignBlock d)))).blocks
  have hns : AllOf (Sound d) ns := hsound.children
  rw [blocks_aligned hns, List.forall₂_map_right_iff, List.forall₂_same,
    forall_mem_blocks]
  exact AllOf.imp (fun n hn hk hl => reached_mapBlock hn hk hl) _ (AllOf.below _ hns)

/-- A sheet with a property at the front of its block, one behind a comment with a break, and one
that is moved. -/
def unevenSheet : String :=
  "a \x7bx: b;\n -moz-x: -ms-b;/*\n*/x: b;\n x:b;\n\x7d"

theorem reached_process_uneven : ∃ tree once, parse .css unevenSheet = .ok tree ∧
    rule.process tree = .ok once ∧
    (tree.blocks.map fun block => (isOneLine block.children,
      (propertyPlaces block.children).map fun p => (p.1.total, p.2))) =
        [(false, [(0, true), (6, false), (2, true), (1, false)])] ∧
    List.Forall₂ (fun block aligned => (isOneLine block.children && Dialect.css != .sass) = false →
      Reached .css block.children aligned.children) tree.blocks once.blocks := by
  have hread : ((parse .css unevenSheet).toOption.map fun tree =>
      tree.blocks.map fun block => (isOneLine block.children,
        (propertyPlaces block.children).map fun p => (p.1.total, p.2))) =
          some [(false, [(0, true), (6, false), (2, true), (1, false)])] := by
    decide +kernel
  cases h : parse .css unevenSheet with
  | error e => rw [h] at hread; cases hread
  | ok tree =>
    obtain ⟨once, honce, hreached⟩ := reached_process .css _ _ h
    rw [h] at hread
    exact ⟨tree, once, rfl, honce, Option.some.inj hread, hreached⟩

end VendorAlign

end TidySheet
