import TidySheet.Node.Walk
import TidySheet.Proofs.Reading

/-!
# Nodes as they stand in parsed trees

What the rules rely on when they walk over the blocks of a tree: leaves and branches have kinds of
their own, a declaration has its parts and no block in it, and a fact about all blocks is one about
all nodes.

* `formed_of_sound` — the nodes of a parsed tree are formed;
* `mapBlock_declaration` — a walk over the blocks leaves declarations alone;
* `visits_induction`, `map_visitsOfKind` — what a walk meets, and what is read off it;
* `forall_mem_blocks` — a fact about all blocks of a tree.
-/

set_option autoImplicit false

namespace TidySheet.Node

/-! ## The nodes of a block -/

/-- Leaves and branches have kinds of their own. -/
def KindFits : Node → Prop
  | .leaf l _ => l.kind.isLeaf = true
  | .branch l _ => l.kind.isLeaf = false

/-- A node as it stands among the children of a parsed block. -/
structure Formed (n : Node) : Prop where
  fits : n.KindFits
  declaration : n.kind = .declaration →
    ∃ property gap colon lead value, DeclarationForm n.children property gap colon lead value ∧
      ∀ c ∈ n.children, c.KindFits

theorem Sound.kindFits {d : Dialect} : ∀ {n : Node}, n.Sound d → n.KindFits
  | .leaf _ _, h => h.2.1
  | .branch _ _, h => h.2.1

theorem formed_of_sound {d : Dialect} {n : Node} (h : n.All (Sound d)) : n.Formed := by
  refine ⟨h.self.kindFits, fun hk => ?_⟩
  cases n with
  | leaf l t =>
    have hl : l.kind = .declaration := hk
    have hleaf := h.self.kindFits
    rw [KindFits, hl] at hleaf
    cases hleaf
  | branch l cs =>
    obtain ⟨property, gap, colon, lead, value, hf⟩ := h.self.2.2.1 hk
    refine ⟨property, gap, colon, lead, value, hf, fun c hc => ?_⟩
    exact ((allOf_iff cs).1 h.children c hc).self.kindFits

theorem KindFits.eq_leaf {n : Node} (h : n.KindFits) (hk : n.kind.isLeaf = true) :
    ∃ l t, n = .leaf l t := by
  cases n with
  | leaf l t => exact ⟨l, t, rfl⟩
  | branch l cs =>
    have hl : l.kind.isLeaf = true := hk
    rw [KindFits, hl] at h
    cases h

theorem KindFits.eq_branch {n : Node} (h : n.KindFits) (hk : n.kind.isLeaf = false) :
    ∃ l cs, n = .branch l cs := by
  cases n with
  | leaf l t =>
    have hl : l.kind.isLeaf = false := hk
    rw [KindFits, hl] at h
    cases h
  | branch l cs => exact ⟨l, cs, rfl⟩

theorem is_eq_true {n : Node} {k : Kind} : n.is k = true ↔ n.kind = k := by
  simp [is]

theorem is_eq_false {n : Node} {k : Kind} : n.is k = false ↔ n.kind ≠ k := by
  simp [is]

theorem isTrivia_iff {n : Node} : n.isTrivia = true ↔
    n.kind = .space ∨ n.kind = .multilineComment ∨ n.kind = .singlelineComment := by
  simp [isTrivia, is, or_assoc]

/-! ## Walks over blocks -/

/-- A tree stays as it is if the blocks in it do. -/
theorem mapBlock_eq_self {f : Node → Node} (n : Node)
    (h : n.All fun m => m.kind = .block → f m = m) : n.mapBlock f = n := by
  induction n using inductionOnChildren with
  | leaf l t =>
    rw [mapBlock, ite_eq_right_iff]
    exact h.self
  | branch l cs ih =>
    have hcs : mapBlocksOf f cs = cs := by
      rw [mapBlocksOf_eq_map, List.map_congr_left fun c hc =>
        ih c hc ((allOf_iff cs).1 h.children c hc), List.map_id']
    rw [mapBlock, hcs, ite_eq_right_iff]
    exact h.self

theorem mapBlocksOf_eq_self {f : Node → Node} (ns : List Node)
    (h : AllOf (fun m => m.kind = .block → f m = m) ns) : mapBlocksOf f ns = ns := by
  rw [mapBlocksOf_eq_map, List.map_congr_left fun n hn =>
    mapBlock_eq_self n ((allOf_iff ns).1 h n hn), List.map_id']

theorem mapBlock_of_no_block {f : Node → Node} (n : Node) (h : n.All fun m => m.kind ≠ .block) :
    n.mapBlock f = n :=
  mapBlock_eq_self n (All.imp (fun _ hm hk => absurd hk hm) n h)

theorem mapBlocksOf_of_no_block {f : Node → Node} (ns : List Node)
    (h : AllOf (fun m => m.kind ≠ .block) ns) : mapBlocksOf f ns = ns :=
  mapBlocksOf_eq_self ns (AllOf.imp (fun _ hm hk => absurd hk hm) ns h)

theorem no_block_leaf {l : Label} {t : List Char} (h : l.kind.isLeaf = true) :
    (Node.leaf l t).All fun m => m.kind ≠ .block := by
  rw [all_leaf]
  intro (hk : l.kind = .block)
  rw [hk] at h
  cases h

theorem mapBlock_leaf {f : Node → Node} {l : Label} {t : List Char} (h : l.kind.isLeaf = true) :
    (Node.leaf l t).mapBlock f = .leaf l t :=
  mapBlock_of_no_block _ (no_block_leaf h)

/-- No block stands in a declaration. -/
theorem Formed.no_block {n : Node} (hn : n.Formed) (hk : n.kind = .declaration) :
    n.All fun m => m.kind ≠ .block := by
  obtain ⟨l, cs, rfl⟩ := hn.fits.eq_branch (by rw [hk]; rfl)
  obtain ⟨property, gap, colon, lead, value, hf, hfits⟩ := hn.declaration hk
  have hform : cs = property :: (gap ++ colon :: (lead ++ [value])) := hf.children
  have hleaf : ∀ m ∈ cs, m.kind.isLeaf = true → m.All fun m => m.kind ≠ .block := by
    intro m hm hl
    obtain ⟨l, t, rfl⟩ := (hfits m hm).eq_leaf hl
    rw [all_leaf]
    intro hb
    rw [hb] at hl
    cases hl
  have htrivia : ∀ m : Node, m.isTrivia = true → m.kind.isLeaf = true := by
    intro m hm
    rcases isTrivia_iff.1 hm with h | h | h <;> rw [h] <;> rfl
  refine (all_branch l cs).2 ⟨by rw [hk]; decide, ?_⟩
  rw [allOf_iff]
  intro m hm
  have hm' := hm
  rw [hform] at hm'
  simp only [List.mem_cons, List.mem_append, List.not_mem_nil, or_false] at hm'
  rcases hm' with rfl | hg | rfl | hg | rfl
  · exact All.imp (fun _ h => h.1) m hf.property_inline
  · exact hleaf m hm (htrivia m (hf.gap_trivia m hg))
  · exact hleaf m hm (by rw [hf.colon_kind]; rfl)
  · exact hleaf m hm (htrivia m (hf.lead_trivia m hg))
  · exact All.imp (fun _ h => h.1) m hf.value_inline

theorem mapBlock_declaration {f : Node → Node} {n : Node} (hn : n.Formed)
    (hk : n.kind = .declaration) : n.mapBlock f = n :=
  mapBlock_of_no_block n (hn.no_block hk)

/-! ## Walks over all nodes -/

theorem visits_eq (n : Node) : n.visits = visitsFrom n 0 n.children := by
  cases n with
  | leaf l t => rw [visits, children, visitsFrom]
  | branch l cs => rw [visits, children]

/-- **Induction along a walk**: below a parent, the walk meets the first sibling, then what is below
it, and then the siblings behind it with what is below them. -/
theorem visits_induction {motive : Node → List Node → List Visit → Prop}
    (nil : ∀ parent, motive parent [] [])
    (cons : ∀ parent i n ns below behind, motive n n.children below → motive parent ns behind →
      motive parent (n :: ns) (⟨n, i, parent⟩ :: (below ++ behind)))
    (n : Node) : motive n n.children n.visits := by
  have hfrom : ∀ ns : List Node, (∀ m ∈ ns, motive m m.children m.visits) → ∀ parent i,
      motive parent ns (visitsFrom parent i ns) := by
    intro ns hns parent
    induction ns with
    | nil =>
      intro i
      rw [visitsFrom]
      exact nil parent
    | cons m ns ih =>
      intro i
      obtain ⟨hm, hns⟩ := List.forall_mem_cons.1 hns
      rw [visitsFrom]
      exact cons parent i m ns _ _ hm (ih hns (i + 1))
  induction n using inductionOnChildren with
  | leaf l t =>
    rw [visits]
    exact nil _
  | branch l cs ih =>
    rw [visits]
    exact hfrom cs ih _ 0

/-- **What is read off the nodes of a kind**, if it is put together from the siblings in the same
way: for each of them, what is read off it and off what is below it. -/
theorem map_visitsOfKind {α : Type} {k : Kind} {g : Visit → α}
    (along : Node → List Node → List α) (nil : ∀ parent, along parent [] = [])
    (cons : ∀ parent i n ns, along parent (n :: ns) =
      (if n.is k then [g ⟨n, i, parent⟩] else []) ++ (along n n.children ++ along parent ns))
    (n : Node) : (n.visitsOfKind k).map g = along n n.children := by
  refine visits_induction (motive := fun parent ns vs =>
    (vs.filter (·.node.is k)).map g = along parent ns) (fun parent => (nil parent).symm) ?_ n
  intro parent i n ns below behind hbelow hbehind
  rw [cons parent i, ← hbelow, ← hbehind, List.filter_cons, List.filter_append]
  split <;> simp

/-! ## Facts about all blocks -/

variable {P : Node → Prop}

theorem all_iff (n : Node) : n.All P ↔ P n ∧ AllOf P n.children := by
  cases n with
  | leaf l t => simp [children]
  | branch l cs => exact all_branch l cs

theorem forall_visits (n : Node) : (∀ v ∈ n.visits, P v.node) ↔ AllOf P n.children := by
  refine visits_induction (motive := fun _ ns vs => (∀ v ∈ vs, P v.node) ↔ AllOf P ns) ?_ ?_ n
  · exact fun _ => by simp
  · intro parent i n ns below behind hbelow hbehind
    rw [allOf_cons, all_iff, ← hbelow, ← hbehind, List.forall_mem_cons, List.forall_mem_append,
      and_assoc]

/-- A fact about all blocks of a tree is one about all nodes below its root. -/
theorem forall_mem_blocks {n : Node} :
    (∀ b ∈ n.blocks, P b) ↔ AllOf (fun m => m.kind = .block → P m) n.children := by
  rw [← forall_visits]
  simp only [blocks, visitsOfKind, List.mem_map, List.mem_filter, is_eq_true]
  constructor
  · intro h v hv hk
    exact h v.node ⟨v, ⟨hv, hk⟩, rfl⟩
  · rintro h b ⟨v, ⟨hv, hk⟩, rfl⟩
    exact h v hv hk

end TidySheet.Node
