import Mathlib.Data.List.Nodup
import Mathlib.Data.List.Pairwise
import TidySheet.Proofs.ColonWidths

/-!
# The text with blanks before its colons

* `exists_cut` — a declaration is cut by its colon;
* `chars_mapBlocks` — an aligned tree prints its text with the blanks of its alignment;
* `paddedCharsOf_eq` — these are blanks before the tokens of the text.
-/

set_option autoImplicit false

namespace TidySheet

open Node

/-- What stands in one part only tells the part. -/
theorem eq_of_nodup_flatMap {α β : Type} {f : α → List β} {xs : List α} {a b : α} {y : β}
    (h : (xs.flatMap f).Nodup) (ha : a ∈ xs) (hb : b ∈ xs) (hya : y ∈ f a) (hyb : y ∈ f b) :
    a = b := by
  have hdisjoint := (List.nodup_flatMap.1 h).2
  have hsymm : Std.Symm (Function.onFun List.Disjoint f) := ⟨fun _ _ hxy _ hx hy => hxy hy hx⟩
  exact Classical.byContradiction fun hab => hdisjoint.forall ha hb hab hya hyb

namespace Colons

/-! ## Places of colons -/

/-- No colon of a declaration stands in the tree. -/
def NoColon (n : Node) : Prop := n.All fun m => m.kind ≠ .propertyDelimiter

mutual

theorem NoColon.colonPlaces_eq : ∀ {n : Node}, NoColon n → colonPlaces n = []
  | .leaf l t, h => by
    have hl : l.kind ≠ .propertyDelimiter := h.self
    rw [colonPlaces, if_neg hl]
  | .branch l cs, h => by
    rw [colonPlaces, colonPlacesOf_eq_nil cs h.children]

theorem colonPlacesOf_eq_nil : ∀ ns : List Node,
    AllOf (fun m => m.kind ≠ .propertyDelimiter) ns → colonPlacesOf ns = []
  | [], _ => by rw [colonPlacesOf]
  | n :: ns, h => by
    rw [allOf_cons] at h
    rw [colonPlacesOf, NoColon.colonPlaces_eq h.1, colonPlacesOf_eq_nil ns h.2, List.append_nil]

end

/-- **A declaration is cut by its colon.** -/
theorem exists_cut {d : Dialect} {n : Node} (hn : n.All (Sound d)) (hk : n.kind = .declaration) :
    ∃ l before lc behind, n = .branch l (before ++ .leaf lc [':'] :: behind) ∧
      lc.kind = .propertyDelimiter ∧ (∀ m ∈ before, NoColon m) ∧ (∀ m ∈ behind, NoColon m) ∧
      colon? n = some lc.span.first := by
  obtain ⟨l, cs, rfl⟩ := hn.self.kindFits.eq_branch (by rw [hk]; rfl)
  obtain ⟨property, gap, colon, lead, value, hf⟩ := hn.self.2.2.1 hk
  have hinline : ∀ m : Node, m.Inline → NoColon m := fun m hm => All.imp (fun _ h => h.2.2) m hm
  have htrivia : ∀ m ∈ cs, m.isTrivia = true → NoColon m := by
    intro m hm ht
    have hfits := ((allOf_iff cs).1 hn.children m hm).self.kindFits
    have hleaf : m.kind.isLeaf = true ∧ m.kind ≠ .propertyDelimiter := by
      rcases isTrivia_iff.1 ht with h | h | h <;> rw [h] <;> decide
    obtain ⟨lm, tm, rfl⟩ := hfits.eq_leaf hleaf.1
    exact (all_leaf lm tm).2 hleaf.2
  have hcs : cs = property :: (gap ++ colon :: (lead ++ [value])) := hf.children
  have hfits := ((allOf_iff cs).1 hn.children colon (by simp [hcs])).self.kindFits
  obtain ⟨lc, tc, rfl⟩ := hfits.eq_leaf (by rw [hf.colon_kind]; rfl)
  have hlc : lc.kind = .propertyDelimiter := hf.colon_kind
  have htext : tc = [':'] := by
    have hchars := hf.colon_chars
    simpa [chars, leafMarks, hlc] using hchars
  have hbefore : ∀ m ∈ property :: gap, NoColon m := by
    refine List.forall_mem_cons.2 ⟨hinline property hf.property_inline, fun m hm => ?_⟩
    exact htrivia m (by simp [hcs, hm]) (hf.gap_trivia m hm)
  have hbehind : ∀ m ∈ lead ++ [value], NoColon m := by
    intro m hm
    rcases List.mem_append.1 hm with hm | hm
    · exact htrivia m (by simp [hcs, hm]) (hf.lead_trivia m hm)
    · rw [List.mem_singleton.1 hm]
      exact hinline value hf.value_inline
  refine ⟨l, property :: gap, lc, lead ++ [value], ?_, hlc, hbefore, hbehind, ?_⟩
  · rw [hcs, htext]
    rfl
  · rw [hcs]
    refine colon?_branch hk (by rw [hf.property_kind]; decide) (fun m hm => ?_) hlc
    exact (hbefore m (by simp [hm])).self

theorem mem_colonPlacesOf {n : Node} {ns : List Node} {p : Position} (hn : n ∈ ns)
    (hp : p ∈ colonPlaces n) : p ∈ colonPlacesOf ns := by
  induction ns with
  | nil => cases hn
  | cons m ns ih =>
    rw [colonPlacesOf, List.mem_append]
    rcases List.mem_cons.1 hn with rfl | hn
    · exact .inl hp
    · exact .inr (ih hn)

theorem mem_colonPlaces_of_colon? {d : Dialect} {n : Node} {p : Position} (hn : n.All (Sound d))
    (h : colon? n = some p) : p ∈ colonPlaces n := by
  obtain ⟨l, before, lc, behind, rfl, hlc, -, -, hcolon⟩ := exists_cut hn (kind_of_colon? h)
  rw [hcolon] at h
  cases h
  rw [colonPlaces]
  refine mem_colonPlacesOf (n := .leaf lc [':']) (by simp) ?_
  rw [colonPlaces, if_pos hlc]
  exact List.mem_singleton.2 rfl

theorem mem_colonPlacesOf_of_mem_colons {d : Dialect} {ns : List Node} {p : Position}
    (hn : AllOf (Sound d) ns) (h : p ∈ colons ns) : p ∈ colonPlacesOf ns := by
  obtain ⟨n, hm, hp⟩ := List.mem_filterMap.1 h
  exact mem_colonPlacesOf hm (mem_colonPlaces_of_colon? ((allOf_iff ns).1 hn n hm) hp)

mutual

theorem mem_colonPlaces_of_mem_groups {d : Dialect} {p : Position} :
    ∀ {n : Node}, n.All (Sound d) → p ∈ (groups n).flatten → p ∈ colonPlaces n
  | .leaf l t, _, h => by
    rw [groups] at h
    split at h <;> simp at h
  | .branch l cs, hn, h => by
    have hcs := hn.children
    rw [colonPlaces]
    rw [groups] at h
    split at h
    · rw [List.flatten_cons, List.mem_append] at h
      rcases h with h | h
      · exact mem_colonPlacesOf_of_mem_colons hcs h
      · exact mem_colonPlacesOf_of_mem_groupsOf hcs h
    · exact mem_colonPlacesOf_of_mem_groupsOf hcs h

theorem mem_colonPlacesOf_of_mem_groupsOf {d : Dialect} {p : Position} :
    ∀ {ns : List Node}, AllOf (Sound d) ns → p ∈ (groupsOf ns).flatten → p ∈ colonPlacesOf ns
  | [], _, h => by simp at h
  | n :: ns, hn, h => by
    rw [allOf_cons] at hn
    rw [groupsOf_cons, List.flatten_append, List.mem_append] at h
    rw [colonPlacesOf, List.mem_append]
    rcases h with h | h
    · exact .inl (mem_colonPlaces_of_mem_groups hn.1 h)
    · exact .inr (mem_colonPlacesOf_of_mem_groupsOf hn.2 h)

end

/-! ## The text with the blanks -/

mutual

/-- The text of a tree with blanks before the colons of its declarations. -/
def paddedChars (w : Position → Nat) : Node → List Char
  | .leaf l t =>
    if l.kind = .propertyDelimiter then
      List.replicate (w l.span.first) ' ' ++ (Node.leaf l t).chars
    else (Node.leaf l t).chars
  | .branch l cs => (branchMarks l).1 ++ paddedCharsOf w cs ++ (branchMarks l).2

def paddedCharsOf (w : Position → Nat) : List Node → List Char
  | [] => []
  | n :: ns => paddedChars w n ++ paddedCharsOf w ns

end

variable {w : Position → Nat}

@[simp] theorem paddedCharsOf_nil : paddedCharsOf w [] = [] := by
  simp only [paddedCharsOf]

@[simp] theorem paddedCharsOf_cons (n : Node) (ns : List Node) :
    paddedCharsOf w (n :: ns) = paddedChars w n ++ paddedCharsOf w ns := by
  simp only [paddedCharsOf]

@[simp] theorem paddedCharsOf_append (ms ns : List Node) :
    paddedCharsOf w (ms ++ ns) = paddedCharsOf w ms ++ paddedCharsOf w ns := by
  induction ms with
  | nil => simp
  | cons m ms ih => simp [ih]

mutual

/-- Without blanks before its colons a tree prints as it is. -/
theorem paddedChars_eq_chars :
    ∀ n : Node, (∀ p ∈ colonPlaces n, w p = 0) → paddedChars w n = n.chars
  | .leaf l t, h => by
    rw [paddedChars]
    split
    · rename_i hk
      rw [colonPlaces, if_pos hk] at h
      rw [h l.span.first (List.mem_singleton.2 rfl)]
      rfl
    · rfl
  | .branch l cs, h => by
    rw [colonPlaces] at h
    rw [paddedChars, chars, paddedCharsOf_eq_charsOf cs h]

theorem paddedCharsOf_eq_charsOf :
    ∀ ns : List Node, (∀ p ∈ colonPlacesOf ns, w p = 0) → paddedCharsOf w ns = charsOf ns
  | [], _ => by simp
  | n :: ns, h => by
    rw [colonPlacesOf] at h
    rw [paddedCharsOf_cons, charsOf_cons, paddedChars_eq_chars n fun p hp => h p (by simp [hp]),
      paddedCharsOf_eq_charsOf ns fun p hp => h p (by simp [hp])]

end

theorem paddedCharsOf_noColon {ns : List Node} (h : ∀ n ∈ ns, NoColon n) :
    paddedCharsOf w ns = charsOf ns := by
  apply paddedCharsOf_eq_charsOf ns
  rw [colonPlacesOf_eq_nil ns ((allOf_iff ns).2 h)]
  simp

/-! ## Aligned blocks print with the blanks -/

theorem charsOf_padEnd (d : Dialect) (padding : List Char) (ns : List Node) :
    charsOf (padEnd d padding ns) = charsOf ns ++ padding := by
  rcases padEnd_eq d padding ns with ⟨ms, l, t, hk, rfl, hpad⟩ | hpad
  · rw [hpad]
    simp [chars, leafMarks, hk]
  · rw [hpad]
    simp [ofSpace, ofText, chars, leafMarks]

theorem cutFirst?_eq {p : Node → Bool} {before behind : List Node} {n : Node} (hn : p n = true)
    (hb : ∀ m ∈ before, p m = false) :
    cutFirst? p (before ++ n :: behind) = some (before, n, behind) := by
  induction before with
  | nil => simp [cutFirst?, hn]
  | cons m before ih =>
    have hm := hb m (by simp)
    simp [cutFirst?, hm, ih fun k hk => hb k (by simp [hk])]

/-- Moving the colon of a declaration prints the blanks before it. -/
theorem chars_padColon {d : Dialect} {n : Node} {p : Position} (hn : n.All (Sound d))
    (hc : colon? n = some p) : (padColon (w p) n).chars = paddedChars w n := by
  obtain ⟨l, before, lc, behind, rfl, hlc, hbefore, hbehind, hcolon⟩ :=
    exists_cut hn (kind_of_colon? hc)
  rw [hcolon] at hc
  cases hc
  rw [paddedChars, paddedCharsOf_append, paddedCharsOf_cons, paddedCharsOf_noColon hbefore,
    paddedCharsOf_noColon hbehind, paddedChars, if_pos hlc]
  unfold padColon
  split
  · rename_i h0
    simp [h0, chars]
  · have hcut : cutFirst? (·.is .propertyDelimiter)
        (Node.branch l (before ++ .leaf lc [':'] :: behind)).children =
          some (before, .leaf lc [':'], behind) := by
      refine cutFirst?_eq (is_eq_true.2 hlc) fun m hm => is_eq_false.2 ?_
      exact (hbefore m hm).self
    rw [hcut]
    simp [withChildren, chars, charsOf_padEnd]

/-! ## Aligned blocks -/

theorem kind_mapBlock {f : Node → Node} (hf : ∀ b, (f b).kind = b.kind) (n : Node) :
    (n.mapBlock f).kind = n.kind := by
  cases n with
  | leaf l t =>
    rw [mapBlock]
    split
    · exact hf _
    · rfl
  | branch l cs =>
    rw [mapBlock]
    split
    · exact hf _
    · rfl

theorem kind_alignBlock (block : Node) : (alignBlock block).kind = block.kind := by
  unfold alignBlock
  split
  · rfl
  · cases block <;> rfl

/-- Aligning the blocks below a node leaves its colon where it is. -/
theorem colon?_mapBlock {n : Node} (hn : n.Formed) :
    colon? (n.mapBlock alignBlock) = colon? n := by
  by_cases hk : n.kind = .declaration
  · rw [mapBlock_declaration hn hk]
  · rw [colon?_of_ne hk, colon?_of_ne (by rwa [kind_mapBlock kind_alignBlock])]

theorem columns_map {f : Node → Node} {ns : List Node} (hf : ∀ n ∈ ns, colon? (f n) = colon? n)
    (line : Option Nat) : columns line (ns.map f) = columns line ns := by
  induction ns generalizing line with
  | nil => rfl
  | cons n ns ih =>
    have hrest := fun line => ih (fun m hm => hf m (by simp [hm])) line
    rw [List.map_cons, columns, columns, hf n (by simp)]
    cases colon? n with
    | none => simp only [hrest]
    | some p => simp only [hrest]

/-- Blanks before the leading colons of a block, and what its other nodes print. -/
theorem charsOf_padAll {d : Dialect} {f : Node → Node} (target : Nat) (ns : List Node)
    (line : Option Nat) (hn : AllOf (Sound d) ns) (hnodup : (colons ns).Nodup)
    (hf : ∀ n ∈ ns, colon? n = none → (f n).chars = paddedChars w n)
    (hd : ∀ n ∈ ns, colon? n ≠ none → f n = n)
    (hw : ∀ p ∈ colons ns, w p = if p ∈ leading line (colons ns) then target - p.column else 0) :
    charsOf (padAll target (ns.map f) (columns line ns)) = paddedCharsOf w ns := by
  induction ns generalizing line with
  | nil => simp [columns, padAll]
  | cons n ns ih =>
    rw [allOf_cons] at hn
    have hrest := fun line hnodup => ih line hn.2 hnodup (fun m hm => hf m (by simp [hm]))
      fun m hm => hd m (by simp [hm])
    rw [columns, List.map_cons, paddedCharsOf_cons]
    cases hc : colon? n with
    | none =>
      rw [colons_cons, hc] at hnodup hw
      simp only [padAll, charsOf_cons, hf n (by simp) hc, hrest line hnodup hw]
    | some p =>
      rw [colons_cons, hc] at hnodup hw
      obtain ⟨hp, hnodup⟩ := List.nodup_cons.1 hnodup
      have hself : f n = n := hd n (by simp) (by simp [hc])
      have hpadded := chars_padColon (w := w) hn.1 hc
      have hnot : p ∉ leading (some p.line) (colons ns) := fun hm => hp (mem_of_mem_leading hm)
      by_cases hline : line = some p.line
      · have hleading : leading line (p :: colons ns) = leading (some p.line) (colons ns) := by
          rw [leading, if_pos hline]
        simp only [Option.toList_some, List.singleton_append, hleading] at hw
        have hw0 : w p = 0 := by rw [hw p (by simp), if_neg hnot]
        have hrest' := hrest (some p.line) hnodup fun q hq => hw q (by simp [hq])
        rw [hw0, padColon, if_pos rfl] at hpadded
        simp only [hline, if_true, padAll, charsOf_cons, hself, hpadded, hrest']
      · have hleading : leading line (p :: colons ns) = p :: leading (some p.line) (colons ns) := by
          rw [leading, if_neg hline]
        simp only [Option.toList_some, List.singleton_append, hleading] at hw
        have hwp : w p = target - p.column := by rw [hw p (by simp), if_pos (by simp)]
        have hrest' := hrest (some p.line) hnodup fun q hq => by
          have hne : q ≠ p := fun he => hp (he ▸ hq)
          rw [hw q (by simp [hq])]
          simp [hne]
        rw [hwp] at hpadded
        simp only [hline, if_false, padAll, charsOf_cons, hself, hpadded, hrest']

theorem colons_sublist {d : Dialect} {ns : List Node} (hn : AllOf (Sound d) ns) :
    (colons ns).Sublist (colonPlacesOf ns) := by
  induction ns with
  | nil => exact .slnil
  | cons n ns ih =>
    rw [allOf_cons] at hn
    rw [colons_cons, colonPlacesOf]
    refine List.Sublist.append ?_ (ih hn.2)
    cases hc : colon? n with
    | none => exact List.nil_sublist _
    | some p => exact List.singleton_sublist.2 (mem_colonPlaces_of_colon? hn.1 hc)

theorem colonPlacesOf_eq_flatMap (ns : List Node) : colonPlacesOf ns = ns.flatMap colonPlaces := by
  induction ns with
  | nil => rw [colonPlacesOf, List.flatMap_nil]
  | cons n ns ih => rw [colonPlacesOf, ih, List.flatMap_cons]

theorem nodup_colonPlaces {ns : List Node} {n : Node} (hnodup : (colonPlacesOf ns).Nodup)
    (hn : n ∈ ns) : (colonPlaces n).Nodup := by
  rw [colonPlacesOf_eq_flatMap] at hnodup
  exact (List.nodup_flatMap.1 hnodup).1 n hn

/-- No colon stands in two siblings. -/
theorem eq_of_mem_colonPlaces {ns : List Node} {n m : Node} {p : Position}
    (hnodup : (colonPlacesOf ns).Nodup) (hn : n ∈ ns) (hm : m ∈ ns) (hpn : p ∈ colonPlaces n)
    (hpm : p ∈ colonPlaces m) : n = m := by
  rw [colonPlacesOf_eq_flatMap] at hnodup
  exact eq_of_nodup_flatMap hnodup hn hm hpn hpm

/-- A colon gets its blanks from the sibling that it stands in. -/
theorem widthIn_groupsOf {d : Dialect} {ns : List Node} {n : Node} {p : Position}
    (hns : AllOf (Sound d) ns) (hnodup : (colonPlacesOf ns).Nodup) (hn : n ∈ ns)
    (hp : p ∈ colonPlaces n) : widthIn (groupsOf ns) p = widthIn (groups n) p := by
  induction ns with
  | nil => cases hn
  | cons k ns ih =>
    rw [allOf_cons] at hns
    rw [colonPlacesOf] at hnodup
    have hdisjoint := (List.nodup_append.1 hnodup).2.2
    rw [groupsOf_cons, widthIn_append]
    rcases List.mem_cons.1 hn with rfl | hn
    · rw [widthIn_eq_zero fun hm => hdisjoint p hp p
        (mem_colonPlacesOf_of_mem_groupsOf hns.2 hm) rfl, Nat.add_zero]
    · rw [widthIn_eq_zero fun hm => hdisjoint p (mem_colonPlaces_of_mem_groups hns.1 hm) p
        (mem_colonPlacesOf hn hp) rfl, Nat.zero_add, ih hns.2 (List.nodup_append.1 hnodup).2.1 hn]

/-- A declaration has no block, and so no blanks but those before its own colon. -/
theorem groups_of_colon? {d : Dialect} {n : Node} {p : Position} (hn : n.All (Sound d))
    (h : colon? n = some p) : groups n = [] :=
  groups_of_no_block n ((formed_of_sound hn).no_block (kind_of_colon? h))

/-- A colon of a block is no colon of a block inside it. -/
theorem not_mem_groupsOf_of_mem_colons {d : Dialect} {ns : List Node} {p : Position}
    (hns : AllOf (Sound d) ns) (hnodup : (colonPlacesOf ns).Nodup) (hp : p ∈ colons ns) :
    p ∉ (groupsOf ns).flatten := by
  intro hm
  obtain ⟨n, hn, hpn⟩ := List.mem_filterMap.1 hp
  have hsound := (allOf_iff ns).1 hns
  rw [groupsOf_eq_flatMap] at hm
  obtain ⟨g, hg, hpg⟩ := List.mem_flatten.1 hm
  obtain ⟨m, hm, hgm⟩ := List.mem_flatMap.1 hg
  have hpm := mem_colonPlaces_of_mem_groups (hsound m hm) (List.mem_flatten.2 ⟨g, hgm, hpg⟩)
  have hsame := eq_of_mem_colonPlaces hnodup hn hm (mem_colonPlaces_of_colon? (hsound n hn) hpn) hpm
  rw [← hsame, groups_of_colon? (hsound n hn) hpn] at hgm
  cases hgm

mutual

theorem widthIn_groups_of_mem {d : Dialect} {g : List Position} {p : Position} :
    ∀ n : Node, n.All (Sound d) → (colonPlaces n).Nodup → g ∈ groups n → p ∈ g →
      widthIn (groups n) p = ownWidth g p
  | .leaf l t, _, _, hg, hp => by
    rw [groups] at hg
    split at hg
    · rw [List.mem_singleton.1 hg] at hp
      cases hp
    · cases hg
  | .branch l cs, hn, hnodup, hg, hp => by
    have hcs : AllOf (Sound d) cs := hn.children
    rw [colonPlaces] at hnodup
    rw [groups] at hg ⊢
    split at hg
    · rename_i hl
      rw [if_pos hl]
      show ownWidth (colons cs) p + widthIn (groupsOf cs) p = _
      rcases List.mem_cons.1 hg with rfl | hg
      · rw [widthIn_eq_zero (not_mem_groupsOf_of_mem_colons hcs hnodup hp), Nat.add_zero]
      · have hnot : p ∉ leading none (colons cs) := fun hlead =>
          not_mem_groupsOf_of_mem_colons hcs hnodup (mem_of_mem_leading hlead)
            (List.mem_flatten.2 ⟨g, hg, hp⟩)
        rw [ownWidth, if_neg hnot, Nat.zero_add, widthIn_groupsOf_of_mem cs hcs hnodup hg hp]
    · rename_i hl
      rw [if_neg hl, widthIn_groupsOf_of_mem cs hcs hnodup hg hp]

/-- **A colon of a block gets the blanks of that block.** -/
theorem widthIn_groupsOf_of_mem {d : Dialect} {g : List Position} {p : Position} :
    ∀ ns : List Node, AllOf (Sound d) ns → (colonPlacesOf ns).Nodup → g ∈ groupsOf ns → p ∈ g →
      widthIn (groupsOf ns) p = ownWidth g p
  | [], _, _, hg, _ => by simp at hg
  | n :: ns, hns, hnodup, hg, hp => by
    rw [allOf_cons] at hns
    rw [colonPlacesOf] at hnodup
    obtain ⟨hn, hrest, hdisjoint⟩ := List.nodup_append.1 hnodup
    rw [groupsOf_cons, widthIn_append]
    rw [groupsOf_cons] at hg
    rcases List.mem_append.1 hg with hg | hg
    · have hpn := mem_colonPlaces_of_mem_groups hns.1 (List.mem_flatten.2 ⟨g, hg, hp⟩)
      rw [widthIn_groups_of_mem n hns.1 hn hg hp, widthIn_eq_zero fun hm => hdisjoint p hpn p
        (mem_colonPlacesOf_of_mem_groupsOf hns.2 hm) rfl, Nat.add_zero]
    · have hpns := mem_colonPlacesOf_of_mem_groupsOf hns.2 (List.mem_flatten.2 ⟨g, hg, hp⟩)
      rw [widthIn_groupsOf_of_mem ns hns.2 hrest hg hp, widthIn_eq_zero fun hm => hdisjoint p
        (mem_colonPlaces_of_mem_groups hns.1 hm) p hpns rfl, Nat.zero_add]

end

theorem charsOf_map {f : Node → Node} {ns : List Node}
    (h : ∀ n ∈ ns, (f n).chars = paddedChars w n) : charsOf (ns.map f) = paddedCharsOf w ns := by
  induction ns with
  | nil => simp
  | cons n ns ih =>
    rw [List.map_cons, charsOf_cons, paddedCharsOf_cons, h n (by simp),
      ih fun m hm => h m (by simp [hm])]

theorem colons_map {f : Node → Node} {ns : List Node} (hf : ∀ n ∈ ns, colon? (f n) = colon? n) :
    colons (ns.map f) = colons ns := by
  induction ns with
  | nil => rfl
  | cons n ns ih =>
    rw [List.map_cons, colons_cons, colons_cons, hf n (by simp), ih fun m hm => hf m (by simp [hm])]

/-- What the alignment makes of a block. -/
theorem alignBlock_branch (l : Label) (cs : List Node) : alignBlock (.branch l cs) =
    if leading none (colons cs) = [] then .branch l cs
    else .branch l (padAll (target (colons cs)) cs (columns none cs)) := by
  have hcolumns := colonColumns_eq (.branch l cs)
  rw [children] at hcolumns
  unfold alignBlock
  rw [hcolumns]
  split
  · rename_i hmax
    rw [List.max?_eq_none_iff, List.map_eq_nil_iff] at hmax
    rw [if_pos hmax]
  · rename_i t hmax
    have ht : t = target (colons cs) := by
      rw [target, hmax]
      rfl
    rw [if_neg fun h => by simp [h] at hmax, ht]
    rfl

section

variable {d : Dialect} {l : Label} {cs : List Node} {n : Node} {p : Position}

theorem width_eq_add (hl : l.kind = .block) (hcs : AllOf (Sound d) cs)
    (hnodup : (colonPlacesOf cs).Nodup)
    (hw : ∀ p ∈ colonPlacesOf cs, w p = widthIn (groups (.branch l cs)) p) (hn : n ∈ cs)
    (hp : p ∈ colonPlaces n) : w p = ownWidth (colons cs) p + widthIn (groups n) p := by
  rw [hw p (mem_colonPlacesOf hn hp), groups, if_pos hl, ← widthIn_groupsOf hcs hnodup hn hp]
  rfl

/-- The colon of a sibling is what the block moves. -/
theorem width_eq_own (hl : l.kind = .block) (hcs : AllOf (Sound d) cs)
    (hnodup : (colonPlacesOf cs).Nodup)
    (hw : ∀ p ∈ colonPlacesOf cs, w p = widthIn (groups (.branch l cs)) p) (hn : n ∈ cs)
    (hc : colon? n = some p) : w p = ownWidth (colons cs) p := by
  have hsound := (allOf_iff cs).1 hcs n hn
  rw [width_eq_add hl hcs hnodup hw hn (mem_colonPlaces_of_colon? hsound hc),
    groups_of_colon? hsound hc]
  rfl

/-- The colons inside a sibling that has none of its own are moved by the blocks in it alone. -/
theorem width_eq_widthIn (hl : l.kind = .block) (hcs : AllOf (Sound d) cs)
    (hnodup : (colonPlacesOf cs).Nodup)
    (hw : ∀ p ∈ colonPlacesOf cs, w p = widthIn (groups (.branch l cs)) p) (hn : n ∈ cs)
    (hc : colon? n = none) (hp : p ∈ colonPlaces n) : w p = widthIn (groups n) p := by
  have hnot : p ∉ leading none (colons cs) := by
    intro hlead
    obtain ⟨m, hm, hpm⟩ := List.mem_filterMap.1 (mem_of_mem_leading hlead)
    have hpm' := mem_colonPlaces_of_colon? ((allOf_iff cs).1 hcs m hm) hpm
    rw [eq_of_mem_colonPlaces hnodup hn hm hp hpm', hpm] at hc
    cases hc
  rw [width_eq_add hl hcs hnodup hw hn hp, ownWidth, if_neg hnot, Nat.zero_add]

end

/-- A block prints with its own blanks and with those of the blocks inside it. -/
theorem chars_alignBlock {d : Dialect} {l : Label} {cs : List Node} (hl : l.kind = .block)
    (hcs : AllOf (Sound d) cs) (hnodup : (colonPlacesOf cs).Nodup)
    (hw : ∀ p ∈ colonPlacesOf cs, w p = widthIn (groups (.branch l cs)) p)
    (hmem : ∀ n ∈ cs, (∀ p ∈ colonPlaces n, w p = widthIn (groups n) p) →
      (n.mapBlock alignBlock).chars = paddedChars w n) :
    (alignBlock (.branch l (cs.map (mapBlock alignBlock)))).chars =
      paddedChars w (.branch l cs) := by
  have hsound := (allOf_iff cs).1 hcs
  have hcolon : ∀ n ∈ cs, colon? (n.mapBlock alignBlock) = colon? n := fun n hn =>
    colon?_mapBlock (formed_of_sound (hsound n hn))
  rw [alignBlock_branch, colons_map hcolon, columns_map hcolon]
  split
  · rename_i hnil
    rw [chars, paddedChars, charsOf_map fun n hn => hmem n hn fun p hp => ?_]
    rw [width_eq_add hl hcs hnodup hw hn hp, ownWidth, hnil, if_neg List.not_mem_nil, Nat.zero_add]
  · rw [chars, paddedChars, charsOf_padAll (target (colons cs)) cs none hcs]
    · exact (colons_sublist hcs).nodup hnodup
    · exact fun n hn hnone => hmem n hn fun p hp =>
        width_eq_widthIn hl hcs hnodup hw hn hnone hp
    · intro n hn hsome
      refine mapBlock_declaration (formed_of_sound (hsound n hn)) ?_
      exact Decidable.byContradiction fun hk => hsome (colon?_of_ne hk)
    · intro p hp
      obtain ⟨n, hn, hpn⟩ := List.mem_filterMap.1 hp
      exact width_eq_own hl hcs hnodup hw hn hpn

/-- **Aligned nodes print with the blanks of all their blocks.** -/
theorem chars_mapBlock {d : Dialect} (n : Node) (hn : n.All (Sound d))
    (hnodup : (colonPlaces n).Nodup) (hw : ∀ p ∈ colonPlaces n, w p = widthIn (groups n) p) :
    (n.mapBlock alignBlock).chars = paddedChars w n := by
  induction n using inductionOnChildren with
  | leaf l t =>
    have hl : l.kind.isLeaf = true := hn.self.kindFits
    rw [mapBlock_leaf hl]
    refine (paddedChars_eq_chars _ fun p hp => ?_).symm
    rw [hw p hp, groups, if_neg fun hk => by rw [hk] at hl; cases hl]
    rfl
  | branch l cs ih =>
    have hcs : AllOf (Sound d) cs := hn.children
    rw [colonPlaces] at hnodup hw
    have hmem : ∀ n ∈ cs, (∀ p ∈ colonPlaces n, w p = widthIn (groups n) p) →
        (n.mapBlock alignBlock).chars = paddedChars w n := fun n hm =>
      ih n hm ((allOf_iff cs).1 hcs n hm) (nodup_colonPlaces hnodup hm)
    rw [mapBlock, mapBlocksOf_eq_map]
    split
    · rename_i hl
      exact chars_alignBlock hl hcs hnodup hw hmem
    · rename_i hl
      rw [groups, if_neg hl] at hw
      rw [chars, paddedChars, charsOf_map fun n hm => hmem n hm fun p hp => ?_]
      rw [hw p (mem_colonPlacesOf hm hp), widthIn_groupsOf hcs hnodup hm hp]

/-- **An aligned tree prints its text with the blanks of its alignment.** -/
theorem chars_mapBlocks {d : Dialect} {l : Label} {ns : List Node} (hns : AllOf (Sound d) ns)
    (hnodup : (colonPlacesOf ns).Nodup) : ((Node.branch l ns).mapBlocks alignBlock).chars =
      paddedChars (width (.branch l ns)) (.branch l ns) := by
  rw [mapBlocks, withChildren, chars, paddedChars, children, mapBlocksOf_eq_map,
    charsOf_map fun n hn => chars_mapBlock n ((allOf_iff ns).1 hns n hn)
      (nodup_colonPlaces hnodup hn) fun p hp => ?_]
  rw [width_eq, children, widthIn_groupsOf hns hnodup hn hp]

/-! ## Tokens print with the blanks -/

/-- The tokens stand at places of their own, and blanks go only to the places `ps`. -/
structure Marked (w : Position → Nat) (ts : List Token) (ps : List Position) : Prop where
  nodup : (ts.map fun t => t.span.first).Nodup
  mem : ∀ t ∈ ts, w t.span.first ≠ 0 → t.span.first ∈ ps

namespace Marked

variable {ts us : List Token} {ps qs : List Position}

theorem left (h : Marked w (ts ++ us) (ps ++ qs))
    (hq : ∀ q ∈ qs, q ∈ us.map fun t => t.span.first) : Marked w ts ps := by
  have hnodup := h.nodup
  rw [List.map_append, List.nodup_append] at hnodup
  refine ⟨hnodup.1, fun t ht hw => ?_⟩
  rcases List.mem_append.1 (h.mem t (by simp [ht]) hw) with hp | hp
  · exact hp
  · exact absurd rfl (hnodup.2.2 _ (List.mem_map_of_mem ht) _ (hq _ hp))

theorem right (h : Marked w (ts ++ us) (ps ++ qs))
    (hp : ∀ p ∈ ps, p ∈ ts.map fun t => t.span.first) : Marked w us qs := by
  have hnodup := h.nodup
  rw [List.map_append, List.nodup_append] at hnodup
  refine ⟨hnodup.2.1, fun t ht hw => ?_⟩
  rcases List.mem_append.1 (h.mem t (by simp [ht]) hw) with hm | hm
  · exact absurd rfl (hnodup.2.2 _ (hp _ hm) _ (List.mem_map_of_mem ht))
  · exact hm

theorem loose_eq (h : Marked w ts []) : Token.loose w ts = Token.textOf ts := by
  have h0 : ∀ t ∈ ts, w t.span.first = 0 := fun t ht =>
    Decidable.byContradiction fun hw => nomatch h.mem t ht hw
  clear h
  induction ts with
  | nil => rfl
  | cons t ts ih =>
    have hrest := ih fun u hu => h0 u (by simp [hu])
    rw [Token.loose_cons, Token.tight, Token.textOf_cons, hrest, h0 t (by simp)]
    rfl

/-- Blanks before a leaf go before the token that it is. -/
theorem paddedChars_leaf {d : Dialect} {t : Token} {n : Node} (h : Marked w [t] (colonPlaces n))
    (hn : t.LeafOf d n) (hs : t.Spelled) : paddedChars w n = Token.loose w [t] := by
  have hchars := hn.chars_eq hs
  obtain ⟨l, text, rfl, hl⟩ := hn.eq_leaf
  rw [Token.loose_cons, Token.tight, Token.loose_nil, List.append_nil]
  rw [colonPlaces] at h
  rw [paddedChars, hchars, hl]
  split at h
  · rename_i hk
    rw [if_pos hk]
  · rename_i hk
    have h0 : w t.span.first = 0 := by
      refine Decidable.byContradiction fun hw => ?_
      cases h.mem t (by simp) hw
    rw [if_neg hk, h0]
    rfl

end Marked

theorem mem_firsts {d : Dialect} {ts : List Token} {ns : List Node} (h : Reading d ts ns) :
    ∀ p ∈ colonPlacesOf ns, p ∈ ts.map fun t => t.span.first := by
  intro p hp
  obtain ⟨t, ht, -, hpt⟩ := h.exists_colon hp
  exact List.mem_map.2 ⟨t, ht, hpt⟩

/-- **The blanks before the colons of nodes are blanks before their tokens.** -/
theorem paddedCharsOf_eq {d : Dialect} {ts : List Token} {ns : List Node} (h : Reading d ts ns)
    (hs : ∀ t ∈ ts, t.Spelled) (hm : Marked w ts (colonPlacesOf ns)) :
    paddedCharsOf w ns = Token.loose w ts := by
  induction h with
  | nil => simp
  | @token t n ts ns hn hr ih =>
    have hparts : Marked w ([t] ++ ts) (colonPlaces n ++ colonPlacesOf ns) := by
      rw [colonPlacesOf] at hm
      exact hm
    have hleaf : ∀ p ∈ colonPlaces n, p ∈ [t].map fun t => t.span.first := by
      intro p hp
      exact mem_firsts (.token hn .nil) p (by rw [colonPlacesOf, colonPlacesOf]; simpa using hp)
    have hfirst := (hparts.left (mem_firsts hr)).paddedChars_leaf hn (hs t (by simp))
    have hrest := ih (fun u hu => hs u (by simp [hu])) (hparts.right hleaf)
    rw [paddedCharsOf_cons, hfirst, hrest, ← Token.loose_append, List.singleton_append]
  | @run k run ts ns hk _ hr ih =>
    have hj := Token.colonPlaces_joined (d := d) hk run
    have hchars : paddedChars w (Token.joined k d run) = Token.textOf run := by
      rw [paddedChars_eq_chars _ (by simp [hj]), Token.chars_joined hk]
    rw [colonPlacesOf, hj] at hm
    have hrest := ih (fun u hu => hs u (by simp [hu])) (hm.right (by simp))
    rw [paddedCharsOf_cons, hchars, hrest, Token.loose_append, (hm.left (mem_firsts hr)).loose_eq]
  | @branch l opening inner closing ts cs ns hmarks hsound hi hr ihi ih =>
    have htext := hmarks.eq_text fun t h => hs t (by
      rcases List.mem_append.1 h with h | h <;> simp [h])
    have hparts : Marked w (opening ++ (inner ++ (closing ++ ts)))
        ([] ++ (colonPlacesOf cs ++ colonPlacesOf ns)) := by
      rw [colonPlacesOf, colonPlaces] at hm
      exact hm
    have hplaces : ∀ p ∈ colonPlacesOf ns, p ∈ (closing ++ ts).map fun t => t.span.first := by
      intro p hp
      rw [List.map_append, List.mem_append]
      exact .inr (mem_firsts hr p hp)
    have hbehind : ∀ p ∈ colonPlacesOf cs ++ colonPlacesOf ns,
        p ∈ (inner ++ (closing ++ ts)).map fun t => t.span.first := by
      intro p hp
      rw [List.map_append, List.mem_append]
      exact (List.mem_append.1 hp).imp (mem_firsts hi p) (hplaces p)
    have hopening := hparts.left hbehind
    have hinside := hparts.right (by simp)
    have hinner := hinside.left hplaces
    have hclosing : Marked w (closing ++ ts) ([] ++ colonPlacesOf ns) :=
      hinside.right (mem_firsts hi)
    have hclose := hclosing.left (mem_firsts hr)
    have hrest := ih (fun u hu => hs u (by simp [hu])) (hclosing.right (by simp))
    rw [paddedCharsOf_cons, paddedChars, htext, ihi (fun u hu => hs u (by simp [hu])) hinner, hrest]
    simp only [Token.loose_append, hopening.loose_eq, hclose.loose_eq, List.append_assoc]

end Colons

end TidySheet
