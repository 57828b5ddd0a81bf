import TidySheet.Proofs.BlockAlignment
import TidySheet.Proofs.Lossless

/-!
# When vendor alignment is idempotent

Blocks are aligned from the inside out, and what stands in a nested block is not measured in the one
around it. So a tree is aligned once and for all if no block in it holds a property back, and if one
does, every run of the rule adds a node to it.

* `mapBlock_mapBlock` — without held properties the second run changes nothing;
* `count_mapBlock_mapBlock` — no run takes a node away, and a held property costs one each time;
* `sameShape_process_process` — a second run keeps the shape of the tree exactly if no block holds a
  property back.
-/

set_option autoImplicit false

namespace TidySheet

namespace Node

/-! ## Numbers of nodes -/

mutual

/-- The number of nodes in a tree. -/
def count : Node → Nat
  | .leaf _ _ => 1
  | .branch _ cs => countOf cs + 1

def countOf : List Node → Nat
  | [] => 0
  | n :: ns => count n + countOf ns

end

@[simp] theorem countOf_nil : countOf [] = 0 := by
  simp only [countOf]

@[simp] theorem countOf_cons (n : Node) (ns : List Node) :
    countOf (n :: ns) = n.count + countOf ns := by
  simp only [countOf]

@[simp] theorem countOf_append (ms ns : List Node) :
    countOf (ms ++ ns) = countOf ms + countOf ns := by
  induction ms with
  | nil => simp
  | cons m ms ih => simp [ih, Nat.add_assoc]

mutual

theorem count_eq_of_sameShape : ∀ {a b : Node}, a.sameShape b = true → a.count = b.count
  | .leaf _ _, .leaf _ _, _ => by simp only [count]
  | .branch l as, .branch m bs, h => by
    rw [sameShape, Bool.and_eq_true] at h
    rw [count, count, countOf_eq_of_sameShapes h.2]
  | .leaf _ _, .branch _ _, h => by rw [sameShape] at h; cases h; all_goals simp
  | .branch _ _, .leaf _ _, h => by rw [sameShape] at h; cases h; all_goals simp

theorem countOf_eq_of_sameShapes :
    ∀ {as bs : List Node}, sameShapes as bs = true → countOf as = countOf bs
  | [], [], _ => rfl
  | a :: as, b :: bs, h => by
    rw [sameShapes, Bool.and_eq_true] at h
    rw [countOf_cons, countOf_cons, count_eq_of_sameShape h.1, countOf_eq_of_sameShapes h.2]
  | [], _ :: _, h => by rw [sameShapes] at h; cases h; all_goals simp
  | _ :: _, [], h => by rw [sameShapes] at h; cases h; all_goals simp

end

theorem countOf_le_map {f : Node → Node} {ns : List Node} (hf : ∀ n ∈ ns, n.count ≤ (f n).count) :
    countOf ns ≤ countOf (ns.map f) := by
  induction ns with
  | nil => simp
  | cons n ns ih =>
    have hn := hf n List.mem_cons_self
    have htail := ih fun m hm => hf m (List.mem_cons_of_mem _ hm)
    rw [List.map_cons, countOf_cons, countOf_cons]
    omega

theorem countOf_lt_map {f : Node → Node} {ns : List Node} (hf : ∀ n ∈ ns, n.count ≤ (f n).count)
    {n : Node} (hn : n ∈ ns) (hlt : n.count < (f n).count) : countOf ns < countOf (ns.map f) := by
  obtain ⟨ms, ks, rfl⟩ := List.append_of_mem hn
  have hms := countOf_le_map fun m hm => hf m (List.mem_append_left _ hm)
  have hks := countOf_le_map fun m hm =>
    hf m (List.mem_append_right _ (List.mem_cons_of_mem _ hm))
  rw [List.map_append, List.map_cons, countOf_append, countOf_append, countOf_cons, countOf_cons]
  omega

end Node

namespace VendorAlign

open Node VendorBlock

variable {os : List Occurrence} {o : Occurrence} {d k : Dialect}

theorem count_resize (n : Node) : (resize os o n).count = n.count := by
  cases n with
  | leaf l t => simp only [resize, count]
  | branch l cs => rfl

theorem countOf_padLead (os : List Occurrence) (o : Occurrence) (d : Dialect) (ns : List Node) :
    countOf ns ≤ countOf (padLead os o d ns) := by
  rcases List.eq_nil_or_concat ns with rfl | ⟨ms, n, rfl⟩
  · simp
  · rw [List.concat_eq_append, padLead_concat]
    split
    · simp [count_resize]
    · simp

theorem count_padOwn (n : Node) : n.count ≤ (padOwn os n).count := by
  unfold padOwn
  split
  · unfold padValue
    split
    · exact Nat.le_refl _
    · rename_i o _ _ before value behind hc
      cases n with
      | leaf l t => cases hc
      | branch l cs =>
        have hcs : cs = before ++ value :: behind := eq_of_cutLast? hc
        have hle := countOf_padLead os o l.dialect before
        rw [hcs, count, withChildren, count, countOf_append, countOf_append]
        show _ ≤ countOf (padLead os o l.dialect before) + _ + 1
        omega
  · exact Nat.le_refl _

theorem countOf_padSibling (os : List Occurrence) (o : Occurrence) (d : Dialect) (n : Node) :
    n.count ≤ countOf (padSibling os o d n) := by
  rw [padSibling_eq]
  split
  · simp [count_resize]
  split
  · simp
  · simp

theorem countOf_padProperties (os : List Occurrence) (d : Dialect)
    (ps : List (Node × Option Occurrence)) :
    countOf (ps.map Prod.fst) ≤ countOf (padProperties os d ps) := by
  fun_induction padProperties os d ps with
  | case1 => simp
  | case2 n p => simp
  | case3 n q m p rest ih =>
    rw [List.map_cons, countOf_cons, countOf_append]
    cases p with
    | none => simp only [countOf_cons, countOf_nil]; omega
    | some o =>
      have hn := countOf_padSibling os o d n
      simp only
      omega

/-- A property that is held back gets whitespace that does not move it. -/
theorem countOf_padProperties_of_hasStuck (ps : List (Node × Option Occurrence))
    (h : hasStuck os ps = true) : countOf (ps.map Prod.fst) < countOf (padProperties os d ps) := by
  fun_induction padProperties os d ps with
  | case1 => cases h
  | case2 n p => cases h
  | case3 n q m p rest ih =>
    rw [List.map_cons, countOf_cons, countOf_append]
    have hrest := countOf_padProperties os d ((m, p) :: rest)
    cases p with
    | none =>
      simp only [hasStuck, Bool.false_or] at h
      have hlt := ih h
      simp only [countOf_cons, countOf_nil]
      omega
    | some o =>
      have hn := countOf_padSibling os o d n
      simp only [hasStuck, any_target?, Bool.or_eq_true, Bool.and_eq_true, decide_eq_true_eq] at h
      rcases h with ⟨hh, hlt⟩ | h
      · -- The whitespace goes before the comment, and both stay.
        rw [hides, Bool.and_eq_true] at hh
        have hk := is_eq_true.1 hh.1
        have hsibling : padSibling os o d n = gapNodes os o d ++ [n] := by
          rw [padSibling_eq, is_eq_false.2 (by rw [hk]; decide), if_neg (by decide),
            hh.1, if_pos rfl]
        simp only [hsibling, gapNodes_of_lt hlt, ofSpace, ofText, countOf_append, countOf_cons,
          countOf_nil, count]
        omega
      · have hlt := ih h
        simp only
        omega

theorem countOf_alignChildren (cs : List Node) : countOf cs ≤ countOf (alignChildren d k cs) := by
  have hvalues : countOf cs ≤ countOf (padValues (occurrences cs) cs) :=
    countOf_le_map fun n _ => count_padOwn n
  unfold alignChildren
  dsimp only
  split
  · exact Nat.le_refl _
  split
  · exact hvalues
  · have hle := countOf_padProperties (occurrences cs) k
      ((padValues (occurrences cs) cs).zip (properties cs))
    rw [List.map_fst_zip (by simp [padValues])] at hle
    omega

theorem countOf_alignChildren_of_isHeld {cs : List Node} (hcs : ∀ n ∈ cs, n.Formed)
    (h : isHeld d cs = true) : countOf cs < countOf (alignChildren d k cs) := by
  rw [isHeld, Bool.and_eq_true, Bool.and_eq_true, Bool.not_eq_true'] at h
  obtain ⟨⟨hne, hl⟩, hstuck⟩ := h
  have hvalues : countOf cs ≤ countOf (padValues (occurrences cs) cs) :=
    countOf_le_map fun n _ => count_padOwn n
  rw [← hasStuck_map (properties cs) (alike_padValues hcs), ← padValues_eq_map] at hstuck
  have hlt := countOf_padProperties_of_hasStuck (d := k) _ hstuck
  rw [List.map_fst_zip (by simp [padValues])] at hlt
  rw [alignChildren, hl, Bool.false_and, if_neg (by decide), if_neg (bne_iff_ne.1 hne)]
  omega

/-! ## Blocks inside blocks -/

theorem mapBlock_alignBlock_of_block {l : Label} {cs : List Node} (hl : l.kind = .block) :
    (Node.branch l cs).mapBlock (alignBlock d) =
      .branch l (alignChildren d l.dialect (cs.map (mapBlock (alignBlock d)))) := by
  rw [mapBlock, if_pos hl, alignBlock_branch, mapBlocksOf_eq_map]

theorem mapBlock_alignBlock_of_ne {l : Label} {cs : List Node} (hl : l.kind ≠ .block) :
    (Node.branch l cs).mapBlock (alignBlock d) =
      .branch l (cs.map (mapBlock (alignBlock d))) := by
  rw [mapBlock, if_neg hl, mapBlocksOf_eq_map]

theorem exists_mapBlock_branch (l : Label) (cs : List Node) :
    ∃ ds, (Node.branch l cs).mapBlock (alignBlock d) = .branch l ds := by
  by_cases hl : l.kind = .block
  · exact ⟨_, mapBlock_alignBlock_of_block hl⟩
  · exact ⟨_, mapBlock_alignBlock_of_ne hl⟩

/-- Aligning the blocks below a node changes nothing that the block around it measures. -/
theorem alike_mapBlock {n : Node} (hn : n.Formed) : Alike n (n.mapBlock (alignBlock d)) := by
  by_cases hk : n.kind = .declaration
  · rw [mapBlock_declaration hn hk]
    exact .refl n
  cases n with
  | leaf l t =>
    rw [mapBlock_leaf hn.fits]
    exact .refl _
  | branch l cs =>
    obtain ⟨ds, hds⟩ := exists_mapBlock_branch (d := d) l cs
    rw [hds]
    refine ⟨fun m t => ⟨fun h => (by cases h), fun h => (by cases h)⟩, rfl, ?_⟩
    have hk' : (Node.branch l ds).kind ≠ .declaration := hk
    rw [propertyName?_of_kind_ne hk, propertyName?_of_kind_ne hk']

theorem formed_mapBlock {n : Node} (hn : n.Formed) : (n.mapBlock (alignBlock d)).Formed := by
  by_cases hk : n.kind = .declaration
  · rw [mapBlock_declaration hn hk]
    exact hn
  cases n with
  | leaf l t =>
    rw [mapBlock_leaf hn.fits]
    exact hn
  | branch l cs =>
    obtain ⟨ds, hds⟩ := exists_mapBlock_branch (d := d) l cs
    rw [hds]
    exact ⟨hn.fits, fun h => absurd h hk⟩

section

variable {cs : List Node}

theorem valueOccurrence?_mapBlock {n : Node} (hn : n.Formed) :
    valueOccurrence? (n.mapBlock (alignBlock d)) = valueOccurrence? n := by
  by_cases hk : n.kind = .declaration
  · rw [mapBlock_declaration hn hk]
  · have hk' := (alike_mapBlock (d := d) hn).kind_eq
    rw [valueOccurrence?_of_kind_ne hk, valueOccurrence?_of_kind_ne (by rw [hk']; exact hk)]

theorem isOneLineValue_mapBlock {n : Node} (hn : n.Formed) :
    isOneLineValue (n.mapBlock (alignBlock d)) = isOneLineValue n := by
  by_cases hk : n.kind = .declaration
  · rw [mapBlock_declaration hn hk]
  · have hk' := (alike_mapBlock (d := d) hn).kind_eq
    rw [isOneLineValue, isOneLineValue, is, is, hk', beq_eq_false_iff_ne.2 hk]
    rfl

/-! What is read off a block does not depend on the blocks below it. -/

theorem occurrences_map (hcs : ∀ n ∈ cs, n.Formed) :
    occurrences (cs.map (mapBlock (alignBlock d))) = occurrences cs := by
  have hvalues : (values (cs.map (mapBlock (alignBlock d)))).filterMap id =
      (values cs).filterMap id := by
    rw [values, values, List.map_map]
    exact congrArg _ (List.map_congr_left fun n hn => valueOccurrence?_mapBlock (hcs n hn))
  rw [occurrences, occurrences, properties_map fun n hn => alike_mapBlock (hcs n hn), hvalues]

theorem isOneLine_map (hcs : ∀ n ∈ cs, n.Formed) :
    isOneLine (cs.map (mapBlock (alignBlock d))) = isOneLine cs := by
  have hf : ∀ n ∈ cs, Alike n (n.mapBlock (alignBlock d)) := fun n hn => alike_mapBlock (hcs n hn)
  have hnil : ∀ n ∈ ([] : List Node), Alike n (n.mapBlock (alignBlock d)) :=
    fun _ hn => nomatch hn
  have hall : (cs.map (mapBlock (alignBlock d))).all isOneLineValue = cs.all isOneLineValue := by
    have hmap : (cs.map (mapBlock (alignBlock d))).map isOneLineValue = cs.map isOneLineValue := by
      rw [List.map_map]
      exact List.map_congr_left fun n hn => isOneLineValue_mapBlock (hcs n hn)
    have hids := congrArg (fun bs => bs.all id) hmap
    rw [List.all_map, List.all_map, List.all_map] at hids
    rw [List.all_map]
    exact hids
  have hlines := oneLineFrom_map hnil hf
  rw [List.map_nil] at hlines
  rw [isOneLine_eq, isOneLine_eq, hall, hlines]

theorem isHeld_map (hcs : ∀ n ∈ cs, n.Formed) :
    isHeld d (cs.map (mapBlock (alignBlock d))) = isHeld d cs := by
  have hf : ∀ n ∈ cs, Alike n (n.mapBlock (alignBlock d)) := fun n hn => alike_mapBlock (hcs n hn)
  rw [isHeld, isHeld, isOneLine_map hcs, occurrences_map hcs, properties_map hf,
    hasStuck_map _ hf]

/-- What stands in an aligned block. -/
theorem mem_alignChildren {e : Node} (hcs : ∀ n ∈ cs, n.Formed) (h : e ∈ alignChildren d k cs) :
    e ∈ cs ∨ (e.Formed ∧ e.kind = .declaration) ∨ ∃ l t, e = .leaf l t ∧ l.kind = .space := by
  have hvalues : ∀ {e}, e ∈ padValues (occurrences cs) cs →
      e ∈ cs ∨ (e.Formed ∧ e.kind = .declaration) := by
    intro e he
    obtain ⟨n, hn, rfl⟩ := List.mem_map.1 he
    show padOwn (occurrences cs) n ∈ cs ∨ _
    have hp := padded_padOwn (hcs n hn) (inReach_of_mem hn)
    by_cases hk : n.kind = .declaration
    · refine .inr ⟨hp.formed, ?_⟩
      show (padOwn (occurrences cs) n).kind = _
      rw [Node.kind, hp.label_eq]
      exact hk
    · rw [padOwn_of_kind_ne hk]
      exact .inl hn
  by_cases hd : d = .sass
  · rw [hd, alignChildren_of_sass] at h
    exact (hvalues h).imp_right .inl
  cases hl : isOneLine cs with
  | true =>
    rw [alignChildren_of_oneLine hd hl] at h
    exact .inl h
  | false =>
    rw [alignChildren_of_braces hcs hd hl] at h
    rcases mem_padFrom h with h | h
    · exact (hvalues h).imp_right .inl
    · exact .inr (.inr h)

theorem mem_alignChildren_of_mem {n : Node} (hcs : ∀ n ∈ cs, n.Formed) (h : n ∈ cs)
    (hs : n.kind ≠ .space) (hk : n.kind ≠ .declaration) : n ∈ alignChildren d k cs := by
  have hvalues : n ∈ padValues (occurrences cs) cs := by
    rw [padValues_eq_map]
    exact List.mem_map.2 ⟨n, h, padOwn_of_kind_ne hk⟩
  by_cases hd : d = .sass
  · rw [hd, alignChildren_of_sass]
    exact hvalues
  cases hl : isOneLine cs with
  | true =>
    rw [alignChildren_of_oneLine hd hl]
    exact h
  | false =>
    rw [alignChildren_of_braces hcs hd hl]
    exact mem_padFrom_of_mem hvalues hs

/-- What alignment puts into a block holds no block itself. -/
theorem mapBlock_eq_self_or_mem {e : Node} (hcs : ∀ n ∈ cs, n.Formed)
    (h : e ∈ alignChildren d k cs) : e.mapBlock (alignBlock d) = e ∨ e ∈ cs := by
  rcases mem_alignChildren hcs h with h | ⟨hf, hk⟩ | ⟨l, t, rfl, hl⟩
  · exact .inr h
  · exact .inl (mapBlock_declaration hf hk)
  · exact .inl (mapBlock_leaf (by rw [hl]; rfl))

theorem formed_alignChildren (hcs : ∀ n ∈ cs, n.Formed) :
    ∀ e ∈ alignChildren d k cs, e.Formed := by
  intro e he
  rcases mem_alignChildren hcs he with h | ⟨hf, -⟩ | ⟨l, t, rfl, hl⟩
  · exact hcs e h
  · exact hf
  · have hkind : (Node.leaf l t).kind = .space := hl
    refine ⟨by rw [KindFits, hl]; rfl, fun hk => ?_⟩
    rw [hkind] at hk
    cases hk

end

/-! ## Trees -/

/-- A node that is no block holding a property back. -/
def Free (d : Dialect) (n : Node) : Prop := n.kind = .block → isHeld d n.children = false

/-- The children of a parsed block, once the blocks below them are aligned. -/
theorem formed_children {l : Label} {cs : List Node} (h : (Node.branch l cs).All (Sound d)) :
    (∀ n ∈ cs, n.Formed) ∧ ∀ n ∈ cs.map (mapBlock (alignBlock d)), n.Formed := by
  have hcs : ∀ n ∈ cs, n.Formed := fun n hn => formed_of_sound ((allOf_iff cs).1 h.children n hn)
  refine ⟨hcs, fun n hn => ?_⟩
  obtain ⟨c, hc, rfl⟩ := List.mem_map.1 hn
  exact formed_mapBlock (hcs c hc)

theorem separated_children {l : Label} {cs : List Node} (h : (Node.branch l cs).All (Sound d))
    (hl : l.kind = .block) :
    d.usesBraces = true → Separated false (cs.map (mapBlock (alignBlock d))) := by
  intro hd
  have hcs := (formed_children h).1
  rw [separated_map fun n hn => alike_mapBlock (hcs n hn)]
  exact h.self.2.2.2.2 hl hd

/-- **Without held properties the second run changes nothing.** -/
theorem mapBlock_mapBlock (n : Node) (h : n.All (Sound d)) (hfree : n.All (Free d)) :
    (n.mapBlock (alignBlock d)).mapBlock (alignBlock d) = n.mapBlock (alignBlock d) := by
  induction n using inductionOnChildren with
  | leaf l t => rw [mapBlock_leaf h.self.kindFits, mapBlock_leaf h.self.kindFits]
  | branch l cs ih =>
    have hstill : ∀ c ∈ cs, (c.mapBlock (alignBlock d)).mapBlock (alignBlock d) =
        c.mapBlock (alignBlock d) := fun c hc =>
      ih c hc ((allOf_iff cs).1 h.children c hc) ((allOf_iff cs).1 hfree.children c hc)
    obtain ⟨hcs, hcs'⟩ := formed_children h
    by_cases hl : l.kind = .block
    · have hheld : isHeld d (cs.map (mapBlock (alignBlock d))) = false := by
        rw [isHeld_map hcs]
        exact hfree.self hl
      rw [mapBlock_alignBlock_of_block hl, mapBlock_alignBlock_of_block hl]
      have hsame : (alignChildren d l.dialect (cs.map (mapBlock (alignBlock d)))).map
          (mapBlock (alignBlock d)) =
            alignChildren d l.dialect (cs.map (mapBlock (alignBlock d))) := by
        refine (List.map_congr_left fun e he => ?_).trans (List.map_id _)
        rcases mapBlock_eq_self_or_mem hcs' he with h | h
        · exact h
        · obtain ⟨c, hc, rfl⟩ := List.mem_map.1 h
          exact hstill c hc
      rw [hsame, alignChildren_alignChildren hcs' (separated_children h hl) hheld]
    · rw [mapBlock_alignBlock_of_ne hl, mapBlock_alignBlock_of_ne hl, List.map_map]
      exact congrArg _ (List.map_congr_left hstill)

/-- How many nodes a second run leaves, compared to the first. -/
def Grows (d : Dialect) (n : Node) : Prop :=
  (n.mapBlock (alignBlock d)).count ≤ ((n.mapBlock (alignBlock d)).mapBlock (alignBlock d)).count ∧
    (¬ n.All (Free d) → (n.mapBlock (alignBlock d)).count <
      ((n.mapBlock (alignBlock d)).mapBlock (alignBlock d)).count)

theorem exists_not_all_free {cs : List Node} (h : ¬ AllOf (Free d) cs) :
    ∃ c ∈ cs, ¬ c.All (Free d) := by
  rw [allOf_iff] at h
  exact Classical.not_forall.1 h |>.imp fun c hc => by
    rw [Classical.not_imp] at hc
    exact hc

theorem grows_block {l : Label} {cs : List Node} (h : (Node.branch l cs).All (Sound d))
    (hl : l.kind = .block) (hgrows : ∀ c ∈ cs, Grows d c) : Grows d (.branch l cs) := by
  obtain ⟨hcs, hcs'⟩ := formed_children h
  have hsep := separated_children h hl
  have hY := formed_alignChildren (d := d) (k := l.dialect) hcs'
  rw [Grows, mapBlock_alignBlock_of_block hl, mapBlock_alignBlock_of_block hl, count, count]
  -- The second run goes first into the nodes of the aligned block, then over the block.
  have hinner : ∀ e ∈ alignChildren d l.dialect (cs.map (mapBlock (alignBlock d))),
      e.count ≤ (e.mapBlock (alignBlock d)).count := by
    intro e he
    rcases mapBlock_eq_self_or_mem hcs' he with hself | hmem
    · exact Nat.le_of_eq (congrArg count hself.symm)
    · obtain ⟨c, hc, rfl⟩ := List.mem_map.1 hmem
      exact (hgrows c hc).1
  have hle := countOf_le_map hinner
  have hle' := countOf_alignChildren (d := d) (k := l.dialect)
    ((alignChildren d l.dialect (cs.map (mapBlock (alignBlock d)))).map (mapBlock (alignBlock d)))
  refine ⟨by omega, fun hfree => ?_⟩
  by_cases hheld : isHeld d cs = true
  · rw [← isHeld_map hcs] at hheld
    have hagain := isHeld_alignChildren (k := l.dialect) hcs' hsep hheld
    rw [← isHeld_map hY] at hagain
    have hlt := countOf_alignChildren_of_isHeld (k := l.dialect) (fun n hn => by
      obtain ⟨e, he, rfl⟩ := List.mem_map.1 hn
      exact formed_mapBlock (hY e he)) hagain
    omega
  · have hchildren : ¬ AllOf (Free d) cs := by
      intro hall
      refine hfree ((all_branch l cs).2 ⟨fun _ => ?_, hall⟩)
      exact Bool.eq_false_iff.2 hheld
    obtain ⟨c, hc, hcfree⟩ := exists_not_all_free hchildren
    have hlt := (hgrows c hc).2 hcfree
    have hmoves : (c.mapBlock (alignBlock d)).mapBlock (alignBlock d) ≠
        c.mapBlock (alignBlock d) := by
      intro hsame
      rw [hsame] at hlt
      omega
    have hfc := formed_mapBlock (d := d) (hcs c hc)
    have hmem := mem_alignChildren_of_mem (d := d) (k := l.dialect) hcs' (List.mem_map_of_mem hc)
      (fun hk => hmoves (by
        obtain ⟨m, t, hm⟩ := hfc.fits.eq_leaf (by rw [hk]; rfl)
        rw [hm] at hfc ⊢
        exact mapBlock_leaf hfc.fits))
      (fun hk => hmoves (mapBlock_declaration hfc hk))
    have hlt' := countOf_lt_map hinner hmem hlt
    omega

/-- **No run takes a node away, and a held property costs one each time.** -/
theorem count_mapBlock_mapBlock (n : Node) (h : n.All (Sound d)) : Grows d n := by
  induction n using inductionOnChildren with
  | leaf l t =>
    rw [Grows, mapBlock_leaf h.self.kindFits, mapBlock_leaf h.self.kindFits]
    refine ⟨Nat.le_refl _, fun hfree => absurd ?_ hfree⟩
    exact All.imp (fun _ hm hk => absurd hk hm) _ (no_block_leaf h.self.kindFits)
  | branch l cs ih =>
    have hgrows : ∀ c ∈ cs, Grows d c := fun c hc => ih c hc ((allOf_iff cs).1 h.children c hc)
    by_cases hl : l.kind = .block
    · exact grows_block h hl hgrows
    · have hinner : ∀ e ∈ cs.map (mapBlock (alignBlock d)),
          e.count ≤ (e.mapBlock (alignBlock d)).count := by
        intro e he
        obtain ⟨c, hc, rfl⟩ := List.mem_map.1 he
        exact (hgrows c hc).1
      have hle := countOf_le_map hinner
      rw [Grows, mapBlock_alignBlock_of_ne hl, mapBlock_alignBlock_of_ne hl, count, count]
      refine ⟨by omega, fun hfree => ?_⟩
      have hchildren : ¬ AllOf (Free d) cs :=
        fun hall => hfree ((all_branch l cs).2 ⟨fun hk => absurd hk hl, hall⟩)
      obtain ⟨c, hc, hcfree⟩ := exists_not_all_free hchildren
      have hlt := countOf_lt_map hinner (List.mem_map_of_mem hc) ((hgrows c hc).2 hcfree)
      omega

end VendorAlign

/-! ## Runs of the rule -/

namespace VendorAlign

open Node

theorem process_eq (l : Label) (cs : List Node) :
    rule.process (.branch l cs) = .ok (.branch l (cs.map (mapBlock (alignBlock l.dialect)))) := by
  have hsupports : rule.supports (Node.branch l cs).dialect = true := by
    cases (Node.branch l cs).dialect <;> rfl
  rw [Rule.process, if_pos hsupports, ← mapBlocksOf_eq_map]
  rfl

/-- **When vendor alignment is idempotent**: a second run of the rule keeps the shape of the tree
exactly if no block of the parsed text holds a property back, that is, if no property short of its
target stands right behind a comment with a break. -/
theorem sameShape_process_process (d : Dialect) (source : String) (tree : Node)
    (h : parse d source = .ok tree) :
    ∃ once twice, rule.process tree = .ok once ∧ rule.process once = .ok twice ∧
      (twice.sameShape once = true ↔ ∀ block ∈ tree.blocks, isHeld d block.children = false) := by
  obtain ⟨ts, ns, hp⟩ := parsed_of_parseChars h
  have hsound := sound_of_parseChars h
  rw [hp.tree_eq] at hsound ⊢
  refine ⟨_, _, process_eq _ ns, process_eq _ _, ?_⟩
  rw [forall_mem_blocks]
  show Node.sameShape (.branch _ ((ns.map (mapBlock (alignBlock d))).map _))
    (.branch _ (ns.map (mapBlock (alignBlock d)))) = true ↔ AllOf (Free d) ns
  constructor
  · intro hshape
    refine Classical.byContradiction fun hfree => ?_
    obtain ⟨c, hc, hcfree⟩ := exists_not_all_free hfree
    have hgrows : ∀ n ∈ ns, Grows d n := fun n hn =>
      count_mapBlock_mapBlock n ((allOf_iff ns).1 hsound.children n hn)
    have hle : ∀ e ∈ ns.map (mapBlock (alignBlock d)),
        e.count ≤ (e.mapBlock (alignBlock d)).count := by
      intro e he
      obtain ⟨n, hn, rfl⟩ := List.mem_map.1 he
      exact (hgrows n hn).1
    have hlt := countOf_lt_map hle (List.mem_map_of_mem hc) ((hgrows c hc).2 hcfree)
    have hcount := count_eq_of_sameShape hshape
    rw [count, count] at hcount
    change countOf ((ns.map (mapBlock (alignBlock d))).map (mapBlock (alignBlock d))) + 1 = _
      at hcount
    omega
  · intro hfree
    have hsame : ∀ n ∈ ns, (n.mapBlock (alignBlock d)).mapBlock (alignBlock d) =
        n.mapBlock (alignBlock d) := fun n hn =>
      mapBlock_mapBlock n ((allOf_iff ns).1 hsound.children n hn) ((allOf_iff ns).1 hfree n hn)
    have htwice : (ns.map (mapBlock (alignBlock d))).map (mapBlock (alignBlock d)) =
        ns.map (mapBlock (alignBlock d)) := by
      rw [List.map_map]
      exact List.map_congr_left hsame
    show Node.sameShape (.branch _ ((ns.map (mapBlock (alignBlock d))).map
      (mapBlock (alignBlock d)))) _ = true
    rw [htwice]
    exact sameShape_refl _

/-- A sheet whose second property is held back. -/
def heldSheet : String := "a \x7b\n  -webkit-x: 1;/*\n*/x: 1;\n\x7d"

theorem sameShape_process_process_held : ∃ tree once twice, parse .css heldSheet = .ok tree ∧
    rule.process tree = .ok once ∧ rule.process once = .ok twice ∧
    twice.sameShape once = false := by
  have hheld : ((parse .css heldSheet).toOption.map fun tree =>
      tree.blocks.all fun block => !isHeld .css block.children) = some false := by decide +kernel
  cases h : parse .css heldSheet with
  | error e => rw [h] at hheld; cases hheld
  | ok tree =>
    obtain ⟨once, twice, honce, htwice, hiff⟩ := sameShape_process_process _ _ _ h
    refine ⟨tree, once, twice, rfl, honce, htwice, ?_⟩
    rw [h] at hheld
    simp only [Except.toOption, Option.map_some, Option.some.injEq] at hheld
    rw [← Bool.not_eq_true, hiff]
    intro hfree
    rw [List.all_eq_true.2 fun block hb => by rw [hfree block hb]; rfl] at hheld
    cases hheld

end VendorAlign

end TidySheet
