import TidySheet.Proofs.Growth
import TidySheet.Proofs.SpreadSheets

/-!
# Braces of blocks in a text

A text in which the braces of blocks are marked tells how much stands in each block, without the
blocks inside it. The marks do not depend on the whitespace: a scan over the tokens finds them, and
more whitespace before colons leaves them where they are.

* `Node.marked` — the text of a node with marked braces;
* `Node.map_ownLength_withBlocks` — the amounts in the blocks, read off the marked text;
* `eq_of_inked` — the ink of a marked text and its characters determine it;
* `Parsed.markedOf_eq` — the marks of a parsed sheet, `Parsed.inked_spaced` with other whitespace.
-/

set_option autoImplicit false

namespace TidySheet

/-- A text of which some characters are marked. -/
abbrev MarkedText := List (Char × Bool)

/-- A text without marks. -/
def unmarked (cs : List Char) : MarkedText := cs.map fun c => (c, false)

@[simp] theorem unmarked_nil : unmarked [] = [] := rfl

@[simp] theorem unmarked_append (cs ds : List Char) :
    unmarked (cs ++ ds) = unmarked cs ++ unmarked ds := by
  simp [unmarked]

/-- What is left of a marked text without its blanks. -/
def inked (m : MarkedText) : MarkedText := m.filter fun p => !isBlank p.1

@[simp] theorem inked_nil : inked [] = [] := rfl

@[simp] theorem inked_append (m k : MarkedText) : inked (m ++ k) = inked m ++ inked k :=
  List.filter_append m k

theorem inked_unmarked (cs : List Char) : inked (unmarked cs) = unmarked (ink cs) := by
  rw [inked, unmarked, List.filter_map]
  rfl

/-- Only ink is marked. -/
def MarksInk (m : MarkedText) : Prop := ∀ p ∈ m, p.2 = true → isBlank p.1 = false

theorem marksInk_unmarked (cs : List Char) : MarksInk (unmarked cs) := by
  intro p hp
  obtain ⟨c, -, rfl⟩ := List.mem_map.1 hp
  exact fun h => nomatch h

theorem MarksInk.append {m k : MarkedText} (hm : MarksInk m) (hk : MarksInk k) :
    MarksInk (m ++ k) := by
  intro p hp
  rcases List.mem_append.1 hp with hp | hp
  · exact hm p hp
  · exact hk p hp

/-- **A marked text is determined by its characters and its ink.** -/
theorem eq_of_inked {m k : MarkedText} (hm : MarksInk m) (hk : MarksInk k)
    (hchars : m.map Prod.fst = k.map Prod.fst) (hinked : inked m = inked k) : m = k := by
  induction m generalizing k with
  | nil => exact (List.map_eq_nil_iff.1 hchars.symm).symm
  | cons p m ih =>
    obtain ⟨q, k, rfl⟩ : ∃ q ks, k = q :: ks := by
      cases k with
      | nil => cases hchars
      | cons q k => exact ⟨q, k, rfl⟩
    rw [List.map_cons, List.map_cons, List.cons.injEq] at hchars
    have hm' : MarksInk m := fun r hr => hm r (List.mem_cons_of_mem p hr)
    have hk' : MarksInk k := fun r hr => hk r (List.mem_cons_of_mem q hr)
    cases hb : isBlank p.1 with
    | true =>
      -- a blank is not marked on either side
      have hp : p.2 = false := Bool.eq_false_iff.2 fun h => by
        rw [hm p List.mem_cons_self h] at hb
        cases hb
      have hq : q.2 = false := Bool.eq_false_iff.2 fun h => by
        rw [hchars.1, hk q List.mem_cons_self h] at hb
        cases hb
      have hrest : inked m = inked k := by
        unfold inked at hinked
        rwa [List.filter_cons_of_neg (by simp [hb]),
          List.filter_cons_of_neg (by simp [← hchars.1, hb])] at hinked
      rw [ih hm' hk' hchars.2 hrest, Prod.ext hchars.1 (hp.trans hq.symm)]
    | false =>
      unfold inked at hinked
      rw [List.filter_cons_of_pos (by simp [hb]),
        List.filter_cons_of_pos (by simp [← hchars.1, hb]), List.cons.injEq] at hinked
      rw [hinked.1, ih hm' hk' hchars.2 hinked.2]

namespace Node

/-! ## The marks of a node -/

mutual

/-- The text of a node, with the braces of its blocks marked. -/
def marked : Node → MarkedText
  | .leaf l t => unmarked (Node.leaf l t).chars
  | .branch l cs =>
    (branchMarks l).1.map (fun c => (c, decide (l.kind = .block))) ++ markedOf cs ++
      (branchMarks l).2.map fun c => (c, decide (l.kind = .block))

def markedOf : List Node → MarkedText
  | [] => []
  | n :: ns => marked n ++ markedOf ns

end

@[simp] theorem markedOf_nil : markedOf [] = [] := by
  rw [markedOf]

@[simp] theorem markedOf_cons (n : Node) (ns : List Node) :
    markedOf (n :: ns) = n.marked ++ markedOf ns := by
  rw [markedOf]

@[simp] theorem markedOf_append (ms ns : List Node) :
    markedOf (ms ++ ns) = markedOf ms ++ markedOf ns := by
  induction ms with
  | nil => simp
  | cons m ms ih => simp [ih]

mutual

theorem map_fst_marked : ∀ n : Node, n.marked.map Prod.fst = n.chars
  | .leaf l t => by simp [marked, unmarked, Function.comp_def]
  | .branch l cs => by
    rw [marked, chars, ← map_fst_markedOf cs]
    simp [Function.comp_def]

theorem map_fst_markedOf : ∀ ns : List Node, (markedOf ns).map Prod.fst = charsOf ns
  | [] => by simp
  | n :: ns => by simp [map_fst_marked n, map_fst_markedOf ns]

end

theorem marksInk_branchMarks (l : Label) (b : Bool) :
    MarksInk ((branchMarks l).1.map fun c => (c, b)) ∧
      MarksInk ((branchMarks l).2.map fun c => (c, b)) := by
  have hink : ∀ c, (c ∈ (branchMarks l).1 ∨ c ∈ (branchMarks l).2) → isBlank c = false := by
    intro c hc
    unfold branchMarks at hc
    split at hc <;> (try split at hc) <;> simp at hc <;> rcases hc with rfl | rfl <;> rfl
  constructor <;> intro p hp _ <;> obtain ⟨c, hc, rfl⟩ := List.mem_map.1 hp
  · exact hink c (.inl hc)
  · exact hink c (.inr hc)

mutual

theorem marksInk_marked : ∀ n : Node, MarksInk n.marked
  | .leaf l t => by
    rw [marked]
    exact marksInk_unmarked _
  | .branch l cs => by
    rw [marked]
    have hmarks := marksInk_branchMarks l (decide (l.kind = .block))
    exact (hmarks.1.append (marksInk_markedOf cs)).append hmarks.2

theorem marksInk_markedOf : ∀ ns : List Node, MarksInk (markedOf ns)
  | [] => by
    rw [markedOf_nil]
    exact fun p hp => nomatch hp
  | n :: ns => by
    rw [markedOf_cons]
    exact (marksInk_marked n).append (marksInk_markedOf ns)

end

mutual

/-- Without blocks nothing is marked. -/
theorem marked_of_no_block :
    ∀ n : Node, n.All (fun m => m.kind ≠ .block) → n.marked = unmarked n.chars
  | .leaf l t, _ => by rw [marked]
  | .branch l cs, h => by
    have hl : decide (l.kind = .block) = false := decide_eq_false ((all_branch l cs).1 h).1
    rw [marked, hl, markedOf_of_no_block cs ((all_branch l cs).1 h).2, chars]
    simp [unmarked]

theorem markedOf_of_no_block :
    ∀ ns : List Node, AllOf (fun m => m.kind ≠ .block) ns → markedOf ns = unmarked (charsOf ns)
  | [], _ => by simp
  | n :: ns, h => by
    have hns := (allOf_cons n ns).1 h
    simp [marked_of_no_block n hns.1, markedOf_of_no_block ns hns.2]

end

/-! ## What stands in each block -/

theorem withBlocks_of_block {l : Label} (hl : l.kind = .block) (cs : List Node) :
    (Node.branch l cs).withBlocks = .branch l cs :: cs.flatMap withBlocks := by
  have hk : (Node.branch l cs).is .block = true := is_eq_true.2 hl
  rw [withBlocks, blocks_branch, if_pos hk]
  rfl

theorem withBlocks_of_ne {l : Label} (hl : l.kind ≠ .block) (cs : List Node) :
    (Node.branch l cs).withBlocks = cs.flatMap withBlocks := by
  have hk : ¬ (Node.branch l cs).is .block = true := fun h => hl (is_eq_true.1 h)
  rw [withBlocks, blocks_branch, if_neg hk]
  rfl

/-- Whether a node is a branch that is written in braces if it is a block. -/
def HasBraces : Node → Prop
  | .leaf _ _ => False
  | .branch l _ => l.dialect.usesBraces = true

/-- Blocks have braces. -/
def Braced (n : Node) : Prop := n.kind = .block → n.HasBraces

/-- The length of what stands in a block itself and not in a block inside it. -/
def ownLength (block : Node) : Nat := outsideOf block.children

/-- One character of a text that is read from its end: the lengths of what was met in the blocks that
are open there, innermost first, and in the blocks that have been read, in document order. -/
def tallyStep (p : Char × Bool) (s : List Nat × List Nat) : List Nat × List Nat :=
  if p.2 then
    if p.1 = '}' then (0 :: s.1, s.2) else (s.1.tail, s.1.headD 0 :: s.2)
  else (s.1.modifyHead (· + 1), s.2)

/-- The lengths of what stands in the blocks of a marked text. -/
def tally (m : MarkedText) : List Nat := (m.foldr tallyStep ([0], [])).2

theorem foldr_unmarked (cs : List Char) (k : Nat) (ks done : List Nat) :
    (unmarked cs).foldr tallyStep (k :: ks, done) = ((cs.length + k) :: ks, done) := by
  induction cs with
  | nil => simp
  | cons c cs ih =>
    rw [unmarked, List.map_cons, List.foldr_cons]
    rw [unmarked] at ih
    rw [ih]
    simp [tallyStep]
    omega

mutual

theorem foldr_marked : ∀ n : Node, n.All Braced → ∀ (k : Nat) (ks done : List Nat),
    n.marked.foldr tallyStep (k :: ks, done) = ((n.outside + k) :: ks,
      n.withBlocks.map ownLength ++ done)
  | .leaf l t, h, k, ks, done => by
    have hl : l.kind ≠ .block := h.self
    have hblocks : (Node.leaf l t).withBlocks = [] :=
      withBlocks_of_no_block ((all_leaf l t).2 hl)
    rw [marked, foldr_unmarked, hblocks, outside]
    rfl
  | .branch l cs, h, k, ks, done => by
    obtain ⟨hl, hcs⟩ := (all_branch l cs).1 h
    rw [marked, List.foldr_append, List.foldr_append, outside]
    by_cases hk : l.kind = .block
    · have hbraces : l.dialect.usesBraces = true := hl hk
      have hmarks : branchMarks l = (['{'], ['}']) := by simp [branchMarks, hk, hbraces]
      rw [hmarks, decide_eq_true hk, if_pos hk, withBlocks_of_block hk]
      simp only [List.map_cons, List.map_nil, List.foldr_cons, List.foldr_nil]
      have hclose : tallyStep ('}', true) (k :: ks, done) = (0 :: k :: ks, done) := rfl
      rw [hclose, foldr_markedOf cs hcs 0 (k :: ks) done]
      simp [tallyStep, ownLength, children]
    · have hmarks := foldr_unmarked (branchMarks l).2 k ks done
      rw [unmarked] at hmarks
      have hmarks' := foldr_unmarked (branchMarks l).1
      simp only [unmarked] at hmarks'
      rw [decide_eq_false hk, hmarks, foldr_markedOf cs hcs, hmarks', if_neg hk, withBlocks_of_ne hk]
      simp only [Prod.mk.injEq, List.cons.injEq, and_true]
      omega

theorem foldr_markedOf : ∀ ns : List Node, AllOf Braced ns → ∀ (k : Nat) (ks done : List Nat),
    (markedOf ns).foldr tallyStep (k :: ks, done) = ((outsideOf ns + k) :: ks,
      (ns.flatMap withBlocks).map ownLength ++ done)
  | [], _, k, ks, done => by simp [outsideOf]
  | n :: ns, h, k, ks, done => by
    obtain ⟨hn, hns⟩ := (allOf_cons n ns).1 h
    rw [markedOf_cons, List.foldr_append, foldr_markedOf ns hns, foldr_marked n hn, outsideOf]
    simp only [List.flatMap_cons, List.map_append, List.append_assoc, Prod.mk.injEq,
      List.cons.injEq, and_true]
    omega

end

/-- **A marked text tells how much stands in each block**, without the blocks inside it. -/
theorem map_ownLength_withBlocks {ns : List Node} (h : AllOf Braced ns) :
    (ns.flatMap withBlocks).map ownLength = tally (markedOf ns) := by
  rw [tally, foldr_markedOf ns h, List.append_nil]

end Node

/-! ## The marks of a sheet -/

namespace Braces

open Token Statement Node

variable {d : Dialect} {w : Position → Nat}

/-- The text of tokens with the braces marked that open or end blocks; those within parentheses do
neither. -/
def scan : (depth : Nat) → List Token → MarkedText
  | _, [] => []
  | depth, t :: ts =>
    if depth = 0 ∧ isEnd t = true then
      t.text.map (fun c => (c, t.kind != .semicolon)) ++ scan 0 ts
    else unmarked t.text ++ scan (depthAfter depth t) ts

theorem scan_cons_of_not_end {depth : Nat} {t : Token} (h : ¬ (depth = 0 ∧ isEnd t = true))
    (ts : List Token) :
    scan depth (t :: ts) = unmarked t.text ++ scan (depthAfter depth t) ts := by
  rw [scan, if_neg h]

theorem scan_end {t : Token} (h : isEnd t = true) (ts : List Token) :
    scan 0 (t :: ts) = t.text.map (fun c => (c, t.kind != .semicolon)) ++ scan 0 ts := by
  rw [scan, if_pos ⟨rfl, h⟩]

theorem scan_trivia {t : Token} (h : t.isTrivia = true) (depth : Nat) (ts : List Token) :
    scan depth (t :: ts) = unmarked t.text ++ scan depth ts := by
  have hdepth : depthAfter depth t = depth ∧ isEnd t = false := by
    unfold Token.isTrivia at h
    unfold depthAfter isEnd
    cases hk : t.kind <;> simp [hk] at h ⊢
  rw [scan_cons_of_not_end (by simp [hdepth.2]), hdepth.1]

theorem scan_colon {t : Token} (h : t.kind = .colon) (depth : Nat) (ts : List Token) :
    scan depth (t :: ts) = unmarked t.text ++ scan depth ts := by
  rw [scan_cons_of_not_end (by simp [isEnd, h]), depthAfter, h]

/-- Nothing is marked before the end of a statement. -/
theorem scan_append {depth depth' : Nat} {head : List Token} (h : depthOver depth head = some depth')
    (ts : List Token) :
    scan depth (head ++ ts) = unmarked (textOf head) ++ scan depth' ts := by
  induction head generalizing depth with
  | nil =>
    cases h
    rfl
  | cons t head ih =>
    rw [depthOver_cons] at h
    split at h
    · cases h
    · rename_i hend
      rw [List.cons_append, scan_cons_of_not_end hend, ih h]
      simp [textOf]

theorem marked_leaf {t : Token} (h : t.Spelled) : (t.leaf d).marked = unmarked t.text := by
  rw [← leaf_chars (d := d) h]
  show marked (.leaf _ _) = _
  rw [marked]
  rfl

theorem markedOf_plain {head : List Token} {own : List Node} (h : Plain d head own)
    (hs : ∀ t ∈ head, t.Spelled) : markedOf own = unmarked (textOf head) := by
  rw [markedOf_of_no_block own h.no_block, h.reading.charsOf_eq hs]

theorem marked_opener {head : List Token} {block n : Node} (h : Opener d block head n)
    (hs : ∀ t ∈ head, t.Spelled) : n.marked = unmarked (textOf head) ++ block.marked := by
  obtain ⟨k, init, hk, rfl, hread, hinit, -⟩ := h.exists_parts
  have hmarks : branchMarks ⟨k, d, spanOf (init ++ [block])⟩ = ([], []) := by
    rcases hk with rfl | rfl <;> rfl
  rw [ofChildren, marked, hmarks, markedOf_append, markedOf_of_no_block init hinit,
    hread.charsOf_eq hs]
  simp

/-- **A scan finds the braces of the blocks** that items are read into. -/
theorem Items.markedOf_append {ts : List Token} {ns : List Node} (hd : d.usesBraces = true)
    (h : Items d ts ns) (hs : ∀ t ∈ ts, t.Spelled) (us : List Token) :
    scan 0 (ts ++ us) = markedOf ns ++ scan 0 us := by
  induction h generalizing us with
  | nil => simp
  | @trivia t ts ns ht hr ih =>
    rw [List.cons_append, scan_trivia ht, ih (fun u hu => hs u (by simp [hu])), markedOf_cons,
      marked_leaf (hs t (by simp)), List.append_assoc]
  | @statement head ts s own ns hh ho hk hr ih =>
    have hhead := markedOf_plain ho fun t ht => hs t (by simp [ht])
    rw [List.append_assoc, List.cons_append, scan_append hh.depth_eq,
      scan_end (by simp [isEnd, hk]), ih (fun u hu => hs u (by simp [hu])), Node.markedOf_append,
      markedOf_cons, hhead, marked_leaf (hs s (by simp)), hk]
    simp [unmarked]
  | @nested head inner last ts a b cs own ns n hh ha hi hl ho hb hn hr ihi ihr =>
    have hhead := marked_opener hn fun t ht => hs t (by simp [ht])
    have hlast := markedOf_plain ho fun t ht => hs t (by simp [ht])
    have hsa := hs a (by simp)
    have hsb := hs b (by simp)
    simp only [Token.Spelled, ha, hb] at hsa hsb
    have hblock : (Node.branch ⟨.block, d, ⟨a.span.first, b.span.last⟩⟩ (cs ++ own)).marked =
        ('{', true) :: (markedOf cs ++ (unmarked (textOf last) ++ [('}', true)])) := by
      simp [marked, branchMarks, hd, hlast]
    rw [List.append_assoc, List.cons_append, scan_append hh.depth_eq,
      scan_end (by simp [isEnd, ha]), List.append_assoc, List.append_assoc, List.cons_append,
      ihi (fun u hu => hs u (by simp [hu])), scan_append hl.depth_eq, scan_end (by simp [isEnd, hb]),
      ihr (fun u hu => hs u (by simp [hu])), markedOf_cons, hhead, hblock, hsa, hsb, ha, hb]
    simp

/-- More whitespace before colons does not move the marks. -/
theorem inked_scan_spaced {ts us : List Token} (h : Spaced w ts us) (hts : ∀ t ∈ ts, t.Spelled)
    (hus : ∀ u ∈ us, u.Spelled) (depth : Nat) :
    inked (scan depth us) = inked (scan depth ts) := by
  have hblank : ∀ t : Token, t.Spelled → t.kind = .whitespace → inked (unmarked t.text) = [] := by
    intro t ht hk
    simp only [Token.Spelled, hk] at ht
    rw [inked_unmarked, ink_eq_nil ht, unmarked_nil]
  induction h generalizing depth with
  | nil => rfl
  | @keep t ts us h ih =>
    have hrest := ih (fun u hu => hts u (by simp [hu])) fun u hu => hus u (by simp [hu])
    have hend : isEnd (t.move w) = isEnd t := rfl
    have hafter : depthAfter depth (t.move w) = depthAfter depth t := rfl
    rw [scan, scan, hend, hafter]
    split
    · rw [inked_append, inked_append, hrest]
      rfl
    · rw [inked_append, inked_append, hrest]
      rfl
  | @put c b ts us hc hw hb h ih =>
    have hrest := ih (fun u hu => hts u (by simp [hu])) fun u hu => hus u (by simp [hu])
    rw [scan_trivia (isTrivia_of_whitespace hb), scan_colon (t := c.move w) hc, scan_colon hc,
      inked_append, inked_append, inked_append, hrest, hblank b (hus b (by simp)) hb]
    rfl
  | @widen a b c ts us ha hc hw hb hl h ih =>
    have hrest := ih (fun u hu => hts u (by simp [hu])) fun u hu => hus u (by simp [hu])
    rw [scan_trivia (isTrivia_of_whitespace hb), scan_trivia (isTrivia_of_whitespace ha),
      scan_colon (t := c.move w) hc, scan_colon hc, inked_append, inked_append, inked_append,
      inked_append, hrest, hblank a (hts a (by simp)) ha, hblank b (hus b (by simp)) hb]
    rfl

end Braces

namespace Parsed

open Braces Node

variable {d : Dialect} {source : List Char} {tree : Node} {ts : List Token} {ns : List Node}

/-- **The marks of a parsed sheet** are those that a scan over its tokens finds. -/
theorem markedOf_eq (hp : Parsed d source tree ts ns) (hd : d.usesBraces = true) :
    markedOf ns = scan 0 ts := by
  have hnodes : Braces.nodes d ts = .ok ns := by
    have h := hp.nodes_eq
    rwa [sheetNodes, if_pos hd] at h
  have hs := hp.spelled
  cases nodes_eq_ok.1 hnodes with
  | @intro items last cs own depth hi hl ho =>
    have hlast := scan_append hl.depth_eq []
    rw [List.append_nil] at hlast
    rw [hi.markedOf_append hd (fun t ht => hs t (by simp [ht])), hlast, Node.markedOf_append,
      markedOf_plain ho fun t ht => hs t (by simp [ht])]
    simp [scan]

/-- More whitespace before colons leaves the marked ink of a sheet as it is. -/
theorem inked_spaced {text : List Char} {again : Node} {us : List Token} {ms : List Node}
    {w : Position → Nat} (hp : Parsed d source tree ts ns) (hp' : Parsed d text again us ms)
    (hd : d.usesBraces = true) (hs : Spaced w ts us) :
    inked (markedOf ms) = inked (markedOf ns) := by
  rw [hp.markedOf_eq hd, hp'.markedOf_eq hd]
  exact inked_scan_spaced hs hp.spelled hp'.spelled 0

end Parsed

end TidySheet
