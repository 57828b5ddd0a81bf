import TidySheet.Proofs.BlockMarks
import TidySheet.Proofs.Locality

/-!
# Edits of blocks

A rule goes through the blocks of a tree and shifts the children of each: it changes whitespace
between them and within declarations. Such an edit keeps the blocks of the tree, their order and the
marked ink, so that the lengths of what stands in each block can be followed through it.

* `Shifted` — siblings with other whitespace, and what they keep;
* `Shifts` — edits of blocks that shift the children, `Shifts.kept` what they keep in a tree;
* `VendorAlign.ownLength_mapBlock`, `Colons.ownLength_mapBlock`, `Inlining.ownLength_mapBlock` — the
  lengths of what stands in a block, before and after.
-/

set_option autoImplicit false

namespace TidySheet

open Node

theorem Node.formed_space {l : Label} (hl : l.kind = .space) (t : List Char) :
    (Node.leaf l t).Formed := by
  refine ⟨?_, fun hk => ?_⟩
  · show l.kind.isLeaf = true
    rw [hl]
    rfl
  · rw [show l.kind = .declaration from hk] at hl
    cases hl

theorem Node.Blank.flat {n : Node} (h : n.Blank) : n.Flat := by
  cases n with
  | leaf l t => exact fun _ => rfl
  | branch l cs => exact fun hk => absurd hk h

/-- **Siblings with other whitespace**, between them and within those that hold no block. -/
inductive Shifted : List Node → List Node → Prop
  | nil : Shifted [] []
  | keep (n : Node) {ms ns : List Node} (h : Shifted ms ns) : Shifted (n :: ms) (n :: ns)
  | drop {s : Node} {ms ns : List Node} (hs : s.kind = .space) (h : Shifted ms ns) :
      Shifted (s :: ms) ns
  | put {l : Label} {t : List Char} {ms ns : List Node} (hl : l.kind = .space)
      (ht : ∀ c ∈ t, isBlank c = true) (h : Shifted ms ns) : Shifted ms (.leaf l t :: ns)
  | inside {m n : Node} {ms ns : List Node} (hm : m.All fun k => k.kind ≠ .block)
      (hn : n.All fun k => k.kind ≠ .block) (hr : Respaced [m] [n])
      (hf : m.All Formed → n.All Formed) (h : Shifted ms ns) : Shifted (m :: ms) (n :: ns)
  | trans {ks ms ns : List Node} (h : Shifted ks ms) (h' : Shifted ms ns) : Shifted ks ns

namespace Shifted

variable {ms ns : List Node}

theorem refl (ns : List Node) : Shifted ns ns := by
  induction ns with
  | nil => exact .nil
  | cons n ns ih => exact .keep n ih

/-- **What holds of all nodes** holds of them among other whitespace, if it holds of blanks and goes
on within those that hold no block. -/
theorem allOf {P : Node → Prop}
    (hspace : ∀ l t, l.kind = .space → (∀ c ∈ t, isBlank c = true) → P (.leaf l t))
    (hinside : ∀ m n : Node, (n.All fun k => k.kind ≠ .block) → Respaced [m] [n] →
      (m.All Formed → n.All Formed) → m.All P → n.All P)
    (h : Shifted ms ns) (hms : AllOf P ms) : AllOf P ns := by
  induction h with
  | nil => exact hms
  | keep n _ ih =>
    obtain ⟨hn, hms⟩ := (allOf_cons n _).1 hms
    exact (allOf_cons n _).2 ⟨hn, ih hms⟩
  | drop _ _ ih => exact ih ((allOf_cons _ _).1 hms).2
  | @put l t ms ns hl ht _ ih =>
    exact (allOf_cons _ _).2 ⟨(all_leaf l t).2 (hspace l t hl ht), ih hms⟩
  | @inside m n ms ns _ hn hr hf _ ih =>
    obtain ⟨hm, hms⟩ := (allOf_cons _ _).1 hms
    exact (allOf_cons _ _).2 ⟨hinside m n hn hr hf hm, ih hms⟩
  | trans _ _ ih ih' => exact ih' (ih hms)

theorem formed (h : Shifted ms ns) (hms : AllOf Formed ms) : AllOf Formed ns :=
  h.allOf (fun _ t hl _ => formed_space hl t) (fun _ _ _ _ hf => hf) hms

theorem braced (h : Shifted ms ns) (hms : AllOf Braced ms) : AllOf Braced ns := by
  refine h.allOf (fun l t hl _ hk => ?_) (fun _ n hn _ _ _ => ?_) hms
  · rw [show l.kind = .block from hk] at hl
    cases hl
  · exact All.imp (fun k hk hb => absurd hb hk) n hn

theorem blank (h : Shifted ms ns) (hms : AllOf Blank ms) : AllOf Blank ns := by
  refine h.allOf (fun _ _ _ ht _ => ht) (fun m n _ hr _ hm => ?_) hms
  exact ((allOf_cons n []).1 (hr ((allOf_cons m []).2 ⟨hm, allOf_nil⟩)).1).1

/-- Other whitespace keeps the marked ink. -/
theorem inked_eq (h : Shifted ms ns) (hms : AllOf Blank ms) :
    inked (markedOf ns) = inked (markedOf ms) := by
  induction h with
  | nil => rfl
  | keep n _ ih =>
    rw [markedOf_cons, markedOf_cons, inked_append, inked_append, ih ((allOf_cons n _).1 hms).2]
  | @drop s ms ns hs _ ih =>
    obtain ⟨hb, hrest⟩ := (allOf_cons _ _).1 hms
    cases s with
    | leaf l t =>
      rw [markedOf_cons, inked_append, marked, inked_unmarked, hb.self.ink_eq_nil hs, ih hrest]
      rfl
    | branch l cs => exact absurd hs hb.self
  | @put l t ms ns hl ht _ ih =>
    have hb : (Node.leaf l t).Blank := fun _ => ht
    rw [markedOf_cons, inked_append, marked, inked_unmarked, hb.ink_eq_nil hl, ih hms]
    rfl
  | @inside m n ms ns hm hn hr _ _ ih =>
    obtain ⟨hb, hms⟩ := (allOf_cons _ _).1 hms
    have hink := (hr ((allOf_cons _ _).2 ⟨hb, allOf_nil⟩)).2
    have hchars : ink n.chars = ink m.chars := by simpa using hink
    rw [markedOf_cons, markedOf_cons, inked_append, inked_append, marked_of_no_block m hm,
      marked_of_no_block n hn, inked_unmarked, inked_unmarked, hchars, ih hms]
  | trans h _ ih ih' => rw [ih' (h.blank hms), ih hms]

/-- Other whitespace keeps the blocks. -/
theorem flatMap_withBlocks (h : Shifted ms ns) (hms : AllOf Blank ms) :
    ns.flatMap withBlocks = ms.flatMap withBlocks := by
  induction h with
  | nil => rfl
  | keep n _ ih => rw [List.flatMap_cons, List.flatMap_cons, ih ((allOf_cons n _).1 hms).2]
  | drop hs _ ih =>
    obtain ⟨hb, hms⟩ := (allOf_cons _ _).1 hms
    rw [List.flatMap_cons, hb.self.flat.withBlocks_eq hs, ih hms, List.nil_append]
  | @put l t ms ns hl ht _ ih =>
    have hb : (Node.leaf l t).Blank := fun _ => ht
    rw [List.flatMap_cons, hb.flat.withBlocks_eq hl, ih hms, List.nil_append]
  | inside hm hn _ _ _ ih =>
    rw [List.flatMap_cons, List.flatMap_cons, withBlocks_of_no_block hm, withBlocks_of_no_block hn,
      ih ((allOf_cons _ _).1 hms).2]
  | trans h _ ih ih' => rw [ih' (h.blank hms), ih hms]

end Shifted

/-! ## Edits of trees -/

/-- An edit of blocks that shifts their children. -/
def Shifts (f : Node → Node) : Prop :=
  ∀ l cs, AllOf Formed cs → ∃ ds, f (.branch l cs) = .branch l ds ∧ Shifted cs ds

/-- What an edit of blocks keeps of a node. -/
structure Kept (f : Node → Node) (n : Node) : Prop where
  formed : (n.mapBlock f).All Formed
  blank : (n.mapBlock f).All Blank
  braced : n.All Braced → (n.mapBlock f).All Braced
  inked_eq : inked (n.mapBlock f).marked = inked n.marked
  blocks_eq : (n.mapBlock f).withBlocks = n.withBlocks.map (mapBlock f)
  outside_eq : (n.mapBlock f).outside = n.outside

/-- What an edit of blocks keeps of siblings. -/
structure AllKept (f : Node → Node) (ns : List Node) : Prop where
  formed : AllOf Formed (ns.map (mapBlock f))
  blank : AllOf Blank (ns.map (mapBlock f))
  braced : AllOf Braced ns → AllOf Braced (ns.map (mapBlock f))
  inked_eq : inked (markedOf (ns.map (mapBlock f))) = inked (markedOf ns)
  blocks_eq : (ns.map (mapBlock f)).flatMap withBlocks = (ns.flatMap withBlocks).map (mapBlock f)
  outside_eq : outsideOf (ns.map (mapBlock f)) = outsideOf ns

namespace Kept

variable {f : Node → Node}

theorem of_no_block {n : Node} (hf : n.All Formed) (hb : n.All Blank)
    (h : n.All fun m => m.kind ≠ .block) : Kept f n := by
  have hn := mapBlock_of_no_block (f := f) n h
  refine ⟨by rwa [hn], by rwa [hn], by rw [hn]; exact id, by rw [hn], ?_, by rw [hn]⟩
  rw [hn, withBlocks_of_no_block h, List.map_nil]

/-- A branch that is no block keeps what its children keep. -/
theorem branch {l : Label} {cs : List Node} (hl : l.kind ≠ .block) (hd : l.kind ≠ .declaration)
    (hleaf : l.kind.isLeaf = false) (hb : l.kind ≠ .space) (h : AllKept f cs) :
    Kept f (.branch l cs) := by
  have hmap : (Node.branch l cs).mapBlock f = .branch l (cs.map (mapBlock f)) := by
    rw [mapBlock, if_neg hl, mapBlocksOf_eq_map]
  refine ⟨?_, ?_, fun hbr => ?_, ?_, ?_, ?_⟩
  · rw [hmap]
    exact (all_branch _ _).2 ⟨⟨hleaf, fun hk => absurd hk hd⟩, h.formed⟩
  · rw [hmap]
    exact (all_branch _ _).2 ⟨hb, h.blank⟩
  · rw [hmap]
    exact (all_branch _ _).2 ⟨fun hk => absurd hk hl, h.braced hbr.children⟩
  · rw [hmap, marked, marked, inked_append, inked_append, inked_append, inked_append, h.inked_eq]
  · rw [hmap, withBlocks_of_ne hl, withBlocks_of_ne hl, h.blocks_eq]
  · rw [hmap, outside, outside, if_neg hl, if_neg hl, h.outside_eq]

/-- A block keeps what its children keep if they are shifted. -/
theorem block {l : Label} {cs : List Node} (hf : Shifts f) (hl : l.kind = .block)
    (h : AllKept f cs) : Kept f (.branch l cs) := by
  obtain ⟨ds, hds, hshift⟩ := hf l (cs.map (mapBlock f)) h.formed
  have hmap : (Node.branch l cs).mapBlock f = .branch l ds := by
    rw [mapBlock, if_pos hl, mapBlocksOf_eq_map, hds]
  have hblank := hshift.blank h.blank
  have hinked := hshift.inked_eq h.blank
  have hblocks := hshift.flatMap_withBlocks h.blank
  refine ⟨?_, ?_, fun hbr => ?_, ?_, ?_, ?_⟩
  · rw [hmap]
    refine (all_branch _ _).2 ⟨⟨?_, fun hk => ?_⟩, hshift.formed h.formed⟩
    · show l.kind.isLeaf = false
      rw [hl]
      rfl
    · rw [show l.kind = .declaration from hk] at hl
      cases hl
  · rw [hmap]
    refine (all_branch _ _).2 ⟨?_, hblank⟩
    show l.kind ≠ .space
    rw [hl]
    decide
  · rw [hmap]
    exact (all_branch _ _).2 ⟨fun _ => hbr.self hl, hshift.braced (h.braced hbr.children)⟩
  · rw [hmap, marked, marked, inked_append, inked_append, inked_append, inked_append, hinked,
      h.inked_eq]
  · rw [withBlocks_of_block hl, List.map_cons, hmap, withBlocks_of_block hl, hblocks, h.blocks_eq]
  · rw [hmap, outside, outside, if_pos hl, if_pos hl]

end Kept

namespace Shifts

variable {f : Node → Node}

mutual

/-- **What an edit of blocks keeps.** -/
theorem kept (hf : Shifts f) : ∀ n : Node, n.All Formed → n.All Blank → Kept f n
  | .leaf l t, hn, hb => .of_no_block hn hb (no_block_leaf hn.self.fits)
  | .branch l cs, hn, hb => by
    have hcs := allKept hf cs hn.children hb.children
    by_cases hd : l.kind = .declaration
    · exact .of_no_block hn hb (hn.self.no_block hd)
    by_cases hl : l.kind = .block
    · exact .block hf hl hcs
    · exact .branch hl hd hn.self.fits hb.self hcs

theorem allKept (hf : Shifts f) : ∀ ns : List Node, AllOf Formed ns → AllOf Blank ns → AllKept f ns
  | [], _, _ => ⟨allOf_nil, allOf_nil, fun _ => allOf_nil, rfl, rfl, rfl⟩
  | n :: ns, hn, hb => by
    obtain ⟨hn, hns⟩ := (allOf_cons n ns).1 hn
    obtain ⟨hb, hbs⟩ := (allOf_cons n ns).1 hb
    have h := kept hf n hn hb
    have hs := allKept hf ns hns hbs
    refine ⟨(allOf_cons _ _).2 ⟨h.formed, hs.formed⟩, (allOf_cons _ _).2 ⟨h.blank, hs.blank⟩,
      fun hbr => ?_, ?_, ?_, ?_⟩
    · obtain ⟨hbr, hbrs⟩ := (allOf_cons n ns).1 hbr
      exact (allOf_cons _ _).2 ⟨h.braced hbr, hs.braced hbrs⟩
    · rw [List.map_cons, markedOf_cons, markedOf_cons, inked_append, inked_append, h.inked_eq,
        hs.inked_eq]
    · rw [List.map_cons, List.flatMap_cons, List.flatMap_cons, List.map_append, h.blocks_eq,
        hs.blocks_eq]
    · rw [List.map_cons, outsideOf, outsideOf, h.outside_eq, hs.outside_eq]

end

end Shifts

/-! ## Inlining -/

namespace Inlining

open Braces

theorem shifted_squeeze (dense : Bool) (ns : List Node) : Shifted ns (squeeze dense ns) := by
  cases dense with
  | false => exact .refl ns
  | true =>
    induction ns with
    | nil => exact .nil
    | cons n ns ih =>
      by_cases hn : n.kind = .space
      · rw [squeeze_of_space hn]
        exact .drop hn ih
      · rw [squeeze_cons hn]
        exact .keep n ih

theorem shifts_inlineBlock : Shifts inlineBlock :=
  fun l cs _ => ⟨_, inlineBlock_branch l cs, shifted_squeeze _ cs⟩

theorem squeeze_map {f : Node → Node} (hf : ∀ n, (f n).kind = n.kind) (dense : Bool)
    (ns : List Node) : squeeze dense (ns.map f) = (squeeze dense ns).map f := by
  cases dense with
  | false => rfl
  | true =>
    induction ns with
    | nil => rfl
    | cons n ns ih =>
      by_cases hn : n.kind = .space
      · rw [List.map_cons, squeeze_of_space (by rw [hf, hn]), squeeze_of_space hn, ih]
      · rw [List.map_cons, squeeze_cons (by rwa [hf]), squeeze_cons hn, List.map_cons, ih]

/-- The children of an inlined block. -/
theorem mapBlock_of_block {l : Label} (hl : l.kind = .block) (cs : List Node) :
    (Node.branch l cs).mapBlock inlineBlock = .branch l
      ((squeeze (isInlinable (.branch l cs)) cs).map (mapBlock inlineBlock)) := by
  rw [mapBlock, if_pos hl, mapBlocksOf_eq_map, inlineBlock_branch,
    isInlinable_map l fun n _ => kind_mapBlock_inlineBlock n, squeeze_map kind_mapBlock_inlineBlock]

/-- **What stands in an inlined block**: the whitespace is gone if it was inlinable. -/
theorem ownLength_mapBlock {l : Label} {cs : List Node} (hl : l.kind = .block)
    (hf : AllOf Formed cs) (hb : AllOf Blank cs) :
    ownLength ((Node.branch l cs).mapBlock inlineBlock) =
      weigh outside (squeeze (isInlinable (.branch l cs)) cs) := by
  have hshift := shifted_squeeze (isInlinable (.branch l cs)) cs
  have hkept := shifts_inlineBlock.allKept _ (hshift.formed hf) (hshift.blank hb)
  rw [mapBlock_of_block hl, ← outsideOf_eq, ← hkept.outside_eq]
  rfl

end Inlining

/-! ## Colon alignment -/

namespace Colons

variable {ns : List Node}

/-- The gap of a declaration whose colon is moved is trivia still. -/
theorem exists_padEnd_cons {property : Node} (hp : property.kind = .property) {gap : List Node}
    (hg : ∀ n ∈ gap, n.isTrivia = true) (d : Dialect) (padding : List Char) :
    ∃ gap', padEnd d padding (property :: gap) = property :: gap' ∧
      ∀ n ∈ gap', n.isTrivia = true := by
  rcases padEnd_eq d padding (property :: gap) with ⟨ms, l, t, hk, hgap, hpad⟩ | hpad
  · cases ms with
    | nil =>
      obtain ⟨rfl, -⟩ := List.cons.inj hgap
      rw [show l.kind = .property from hp] at hk
      cases hk
    | cons m ms =>
      obtain ⟨rfl, rfl⟩ := List.cons.inj hgap
      refine ⟨_, hpad, fun n hn => ?_⟩
      rcases List.mem_append.1 hn with hn | hn
      · exact hg n (List.mem_append_left _ hn)
      · rw [List.mem_singleton.1 hn]
        exact isTrivia_iff.2 (.inl hk)
  · refine ⟨_, hpad, fun n hn => ?_⟩
    rcases List.mem_append.1 hn with hn | hn
    · exact hg n hn
    · rw [List.mem_singleton.1 hn]
      rfl

theorem formed_padColon {n : Node} (hn : n.All Formed) (hk : n.kind = .declaration) (k : Nat) :
    (padColon k n).All Formed := by
  by_cases h0 : k = 0
  · rwa [h0, padColon, if_pos rfl]
  obtain ⟨l, cs, rfl⟩ := hn.self.fits.eq_branch (by rw [hk]; rfl)
  obtain ⟨property, gap, colon, lead, value, hform, -⟩ := hn.self.declaration hk
  have hform : DeclarationForm cs property gap colon lead value := hform
  have hcs := hn.children
  rw [show (Node.branch l cs).children = cs from rfl, hform.children, ← List.cons_append,
    allOf_append] at hcs
  obtain ⟨gap', hgap, htrivia⟩ := exists_padEnd_cons hform.property_kind hform.gap_trivia l.dialect
    (List.replicate k ' ')
  have hall : AllOf Formed (property :: gap' ++ colon :: (lead ++ [value])) := by
    rw [← hgap]
    exact (allOf_append _ _).2 ⟨allOf_padEnd (fun _ t hm => formed_space hm t) hcs.1, hcs.2⟩
  rw [padColon_of_form hform h0, hgap]
  refine (all_branch _ _).2 ⟨⟨hn.self.fits, fun _ => ?_⟩, hall⟩
  exact ⟨property, gap', colon, lead, value,
    ⟨rfl, hform.property_kind, hform.property_inline, htrivia, hform.colon_kind, hform.colon_chars,
      hform.lead_trivia, hform.value_kind, hform.value_inline⟩,
    fun c hc => ((allOf_iff _).1 hall c hc).self.fits⟩

theorem shifted_padAll (target : Nat) (line : Option Nat) (hns : AllOf Formed ns) :
    Shifted ns (padAll target ns (columns line ns)) := by
  induction ns generalizing line with
  | nil => exact .nil
  | cons n ns ih =>
    obtain ⟨hn, hns⟩ := (allOf_cons n ns).1 hns
    rw [columns]
    cases hc : colon? n with
    | none => exact .keep n (ih line hns)
    | some p =>
      have hk := kind_of_colon? hc
      have hno := hn.self.no_block hk
      simp only
      split
      · exact .keep n (ih _ hns)
      · exact .inside hno (no_block_padColon hno _) (respaced_padColon _ n)
          (fun hn => formed_padColon hn hk _) (ih _ hns)

theorem shifts_alignBlock : Shifts alignBlock := by
  intro l cs hcs
  unfold alignBlock
  split
  · exact ⟨cs, rfl, .refl cs⟩
  · exact ⟨_, rfl, shifted_padAll _ none hcs⟩

/-- **What stands in a block with aligned colons** is longer by what the colons lacked. -/
theorem ownLength_mapBlock {d : Dialect} {l : Label} {cs : List Node} (hl : l.kind = .block)
    (h : AllOf (Sound d) cs) :
    ownLength ((Node.branch l cs).mapBlock alignBlock) =
      ownLength (.branch l cs) + slack (.branch l cs) := by
  have hf : AllOf Formed cs := AllOf.imp (fun _ => formed_of_sound) cs (AllOf.below cs h)
  have hkept := shifts_alignBlock.allKept cs hf (AllOf.imp (fun _ => Sound.blank) cs h)
  have hslack : slack (.branch l (cs.map (mapBlock alignBlock))) = slack (.branch l cs) := by
    have hcolumns : colonColumns (.branch l (cs.map (mapBlock alignBlock))) =
        colonColumns (.branch l cs) :=
      congrArg (List.filterMap id) (columns_map (fun n hn => colon?_mapBlock (formed_of_sound ((allOf_iff cs).1 h n hn)))
        none)
    rw [slack, slack, hcolumns]
  have hweigh := weigh_alignBlock weight_outside (l := l) fun n hn =>
    ((allOf_iff _).1 hkept.formed n hn).self
  rw [← outsideOf_eq, ← outsideOf_eq, hkept.outside_eq, hslack] at hweigh
  rw [mapBlock, if_pos hl, mapBlocksOf_eq_map]
  exact hweigh

end Colons

/-! ## Vendor alignment -/

namespace VendorAlign

open VendorBlock

variable {os : List Occurrence} {o : Occurrence} {d : Dialect} {ms ns cs : List Node}

theorem formed_padOwn {n : Node} (hn : n.All Formed) (hr : InReach os n) :
    (padOwn os n).All Formed := by
  have hself := (padded_padOwn hn.self hr).formed
  cases hv : valueOccurrence? n with
  | none => rwa [padOwn, hv]
  | some o =>
    have hk := kind_of_valueOccurrence? hv
    obtain ⟨l, cs, rfl⟩ := hn.self.fits.eq_branch (by rw [hk]; rfl)
    obtain ⟨property, gap, colon, lead, value, hform, -⟩ := hn.self.declaration hk
    have hform : DeclarationForm cs property gap colon lead value := hform
    have hpad : padOwn os (.branch l cs) = padValue os o (.branch l cs) := by rw [padOwn, hv]
    rw [hpad, padValue_of_form hform] at hself ⊢
    refine (all_branch _ _).2 ⟨hself, (allOf_iff _).2 fun c hc => ?_⟩
    have hcs := (allOf_iff cs).1 hn.children
    have hmem : c ∈ cs ∨ c ∈ padLead os o l.dialect lead := by
      rw [hform.children]
      simp only [List.mem_cons, List.mem_append, List.not_mem_nil, or_false] at hc ⊢
      tauto
    rcases hmem with hc | hc
    · exact hcs c hc
    rcases mem_padLead hc with hc | ⟨m, t, rfl, hm⟩
    · exact hcs c (by rw [hform.children]; simp [hc])
    · exact (all_leaf m t).2 (formed_space hm t)

theorem shifted_padValues (hcs : AllOf Formed cs) (hr : ∀ n ∈ cs, InReach os n) :
    Shifted cs (padValues os cs) := by
  rw [padValues_eq_map]
  induction cs with
  | nil => exact .nil
  | cons n cs ih =>
    obtain ⟨hn, hcs⟩ := (allOf_cons n cs).1 hcs
    have hreach := hr n List.mem_cons_self
    have hrest := ih hcs fun m hm => hr m (List.mem_cons_of_mem n hm)
    by_cases hk : n.kind = .declaration
    · have hpadded := padded_padOwn hn.self hreach
      have hk' : (padOwn os n).kind = .declaration := by rw [kind, hpadded.label_eq, ← kind, hk]
      have hres : Respaced [n] [padOwn os n] := by
        unfold padOwn
        split
        · exact respaced_padValue n
        · exact .refl _
      exact .inside (hn.self.no_block hk) (hpadded.formed.no_block hk') hres
        (fun hn => formed_padOwn hn hreach) hrest
    · rw [List.map_cons, padOwn_of_kind_ne hk]
      exact .keep n hrest

theorem shifted_gap (h : Shifted ms ns) : Shifted ms (gapNodes os o d ++ ns) := by
  by_cases hlt : o.total < reach os o.id
  · rw [gapNodes_of_lt hlt]
    exact .put rfl (fun c hc => isBlank_of_mem_replicate hc) h
  · rw [gapNodes_of_le (by omega)]
    exact h

theorem shifted_padSibling {n : Node} (hn : n.KindFits) (h : Shifted ms ns) :
    Shifted (n :: ms) (padSibling os o d n ++ ns) := by
  rw [padSibling_eq]
  split
  · rename_i hk
    have hk := is_eq_true.1 hk
    obtain ⟨l, t, rfl⟩ := hn.eq_leaf (by rw [hk]; rfl)
    have hno : ∀ t, (Node.leaf l t).All fun k => k.kind ≠ .block := fun t => by
      rw [all_leaf]
      show l.kind ≠ .block
      rw [show l.kind = .space from hk]
      decide
    exact .inside (hno t) (hno _) (respaced_resize hk) (fun _ => (all_leaf l _).2 (formed_space hk _)) h
  split
  · rw [List.append_assoc]
    exact shifted_gap (.keep n h)
  · exact .keep n (shifted_gap h)

theorem shifted_padFrom {before : List Node} (hns : ∀ n ∈ ns, n.KindFits) :
    Shifted ns (padFrom os d before ns) := by
  induction ns generalizing before with
  | nil => exact .nil
  | cons n ns ih =>
    cases ns with
    | nil =>
      rw [padFrom_singleton]
      exact .refl [n]
    | cons m ns =>
      rw [padFrom_cons_cons]
      have hrest : Shifted (m :: ns) (padFrom os d (leadPast before n) (m :: ns)) :=
        ih fun k hk => hns k (List.mem_cons_of_mem n hk)
      cases propertyOccurrence? (leadPast before n) m with
      | none => exact .keep n hrest
      | some o => exact shifted_padSibling (hns n List.mem_cons_self) hrest

theorem shifts_alignBlock (d : Dialect) : Shifts (alignBlock d) := by
  intro l cs hcs
  refine ⟨_, alignBlock_branch l cs, ?_⟩
  have hformed : ∀ n ∈ cs, n.Formed := fun n hn => ((allOf_iff cs).1 hcs n hn).self
  have hvalues := shifted_padValues hcs fun n hn => inReach_of_mem hn
  by_cases hd : d = .sass
  · rw [hd, alignChildren_of_sass]
    exact hvalues
  cases hl : isOneLine cs with
  | true =>
    rw [alignChildren_of_oneLine hd hl]
    exact .refl cs
  | false =>
    rw [alignChildren_of_braces hformed hd hl]
    refine .trans hvalues (shifted_padFrom fun n hn => ?_)
    exact ((allOf_iff _).1 (hvalues.formed hcs) n hn).self.fits

theorem shortfall_map (hcs : ∀ n ∈ cs, n.Formed) :
    shortfall d (cs.map (mapBlock (alignBlock d))) = shortfall d cs := by
  have hvalues : values (cs.map (mapBlock (alignBlock d))) = values cs := by
    rw [values, values, List.map_map]
    exact List.map_congr_left fun n hn => valueOccurrence?_mapBlock (hcs n hn)
  have hproperties := properties_map fun n hn => alike_mapBlock (d := d) (hcs n hn)
  rw [shortfall, shortfall, isOneLine_map hcs, occurrences_map hcs, hvalues, hproperties]

/-- **What stands in a block with aligned names** is longer by what the names lacked. -/
theorem ownLength_mapBlock {l : Label} (hl : l.kind = .block) (hf : AllOf Formed cs)
    (hb : AllOf Blank cs) :
    ownLength ((Node.branch l cs).mapBlock (alignBlock d)) =
      ownLength (.branch l cs) + shortfall d cs := by
  have hkept := (shifts_alignBlock d).allKept cs hf hb
  have hcs : ∀ n ∈ cs, n.Formed := fun n hn => ((allOf_iff cs).1 hf n hn).self
  have hweigh := weigh_alignChildren (d := d) (k := l.dialect) weight_outside fun n hn =>
    ((allOf_iff _).1 hkept.formed n hn).self
  rw [← outsideOf_eq, ← outsideOf_eq, hkept.outside_eq, shortfall_map hcs] at hweigh
  rw [mapBlock_alignBlock_of_block hl]
  exact hweigh

end VendorAlign

end TidySheet
