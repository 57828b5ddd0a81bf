import TidySheet.Proofs.ColonMoves
import TidySheet.Proofs.Spreading
import TidySheet.Proofs.VendorPlaces

/-!
# Inlining the text of an aligned sheet

The text of an aligned sheet is read into the same items, with blanks before some statements and
colons. A block that is inlined has one colon at most, which alignment does not move, so inlining
takes no blank of the alignment away.

* `Statement.Plain.spread` — a statement with blanks before its colon;
* `Braces.Items.spread` — the items of a block;
* `Inlining.exists_parse_aligned` — inlining an aligned sheet and inlining its text are the same.
-/

set_option autoImplicit false

namespace TidySheet

open Token Node

/-! ## Declared colons -/

namespace Colons

variable {w : Position → Nat} {d : Dialect} {ts us : List Token} {ms ns : List Node}

/-- The colons of the declarations among siblings and in the blocks below them. -/
def declared (ns : List Node) : List Position := colons ns ++ (groupsOf ns).flatten

theorem mem_declared_append {p : Position} :
    p ∈ declared (ms ++ ns) ↔ p ∈ declared ms ∨ p ∈ declared ns := by
  simp only [declared, colons_append, groupsOf_append, List.flatten_append, List.mem_append]
  tauto

theorem mem_colonPlacesOf_of_declared (h : AllOf (Sound d) ns) :
    ∀ p ∈ declared ns, p ∈ colonPlacesOf ns := by
  intro p hp
  rcases List.mem_append.1 hp with hp | hp
  · exact mem_colonPlacesOf_of_mem_colons h hp
  · exact mem_colonPlacesOf_of_mem_groupsOf h hp

/-- Declared colons are tokens. -/
theorem mem_firsts_of_declared (h : Reading d ts ns) (hs : ∀ t ∈ ts, t.Spelled) :
    ∀ p ∈ declared ns, p ∈ ts.map fun t => t.span.first :=
  fun p hp => mem_firsts h p (mem_colonPlacesOf_of_declared (h.sound hs) p hp)

namespace Marked

theorem mono {ps qs : List Position} (h : Marked w ts ps) (hsub : ∀ p ∈ ps, p ∈ qs) :
    Marked w ts qs :=
  ⟨h.nodup, fun t ht hw => hsub _ (h.mem t ht hw)⟩

theorem eq_zero (h : Marked w ts []) : ∀ t ∈ ts, w t.span.first = 0 := by
  intro t ht
  refine Decidable.byContradiction fun hw => ?_
  cases h.mem t ht hw

/-- Blanks before the tokens of parts are blanks before the colons of these parts. -/
theorem split (h : Marked w (ts ++ us) (declared (ms ++ ns))) (hts : Reading d ts ms)
    (hus : Reading d us ns) (hs : ∀ t ∈ ts ++ us, t.Spelled) :
    Marked w ts (declared ms) ∧ Marked w us (declared ns) := by
  have hparts : Marked w (ts ++ us) (declared ms ++ declared ns) :=
    h.mono fun p hp => List.mem_append.2 (mem_declared_append.1 hp)
  have hms := mem_firsts_of_declared hts fun t ht => hs t (by simp [ht])
  have hns := mem_firsts_of_declared hus fun t ht => hs t (by simp [ht])
  exact ⟨hparts.left hns, hparts.right hms⟩

/-- Blanks that go to places inside go nowhere else. -/
theorem inside {front inner back : List Token} {ps : List Position}
    (h : Marked w (front ++ (inner ++ back)) ps)
    (hp : ∀ p ∈ ps, p ∈ inner.map fun t => t.span.first) :
    Marked w inner ps ∧ (∀ t ∈ front, w t.span.first = 0) ∧ ∀ t ∈ back, w t.span.first = 0 := by
  have hall : Marked w (front ++ (inner ++ back)) ([] ++ (ps ++ [])) := by simpa using h
  have hfront := hall.left fun q hq => by
    rw [List.map_append]
    exact List.mem_append_left _ (hp q (by simpa using hq))
  have hrest := hall.right (by simp)
  exact ⟨hrest.left (by simp), hfront.eq_zero, (hrest.right hp).eq_zero⟩

end Marked

theorem declared_leaves (d : Dialect) (ts : List Token) : declared (leaves d ts) = [] := by
  rw [declared, colons_leaves, groupsOf_leaves]
  rfl

/-- A statement with a block declares what the block does. -/
theorem declared_opener {l : Label} {cs : List Node} {head : List Token} {n : Node}
    (hl : l.kind = .block) (h : Statement.Opener d (.branch l cs) head n) :
    declared [n] = declared cs := by
  rw [declared, colons_cons, h.colons_eq, groupsOf_cons, h.groups_eq, groups, if_pos hl]
  simp [declared]

end Colons

/-! ## Inlined text -/

namespace Inlining

open Colons

variable {w : Position → Nat} {d : Dialect} {gap mid k : Nat} {ms ns ms' ns' : List Node}

theorem statements_append (ms ns : List Node) :
    statements (ms ++ ns) = statements ms + statements ns := by
  rw [statements, List.filter_append, List.length_append]
  rfl

theorem statements_of_isLeaf (h : ∀ n ∈ ns, n.kind.isLeaf = true) : statements ns = 0 := by
  rw [statements, List.length_eq_zero_iff, List.filter_eq_nil_iff]
  intro n hn hk
  have hleaf := h n hn
  rcases Bool.or_eq_true .. ▸ hk with hk | hk <;> rw [is_eq_true.1 hk] at hleaf <;> cases hleaf

theorem statements_leaves (d : Dialect) (ts : List Token) : statements (leaves d ts) = 0 := by
  refine statements_of_isLeaf fun n hn => ?_
  obtain ⟨t, -, rfl⟩ := List.mem_map.1 hn
  exact t.leafKind_isLeaf

/-- A colon is that of a declaration. -/
theorem length_colons_le (ns : List Node) : (colons ns).length ≤ statements ns := by
  induction ns with
  | nil => exact Nat.le_refl 0
  | cons n ns ih =>
    have hn : (colon? n).toList.length ≤ statements [n] := by
      cases hc : colon? n with
      | none => exact Nat.zero_le _
      | some p =>
        have hk : n.is .declaration = true := is_eq_true.2 (kind_of_colon? hc)
        simp [statements, hk]
    rw [colons_cons, List.length_append, ← List.singleton_append, statements_append]
    exact Nat.add_le_add hn ih

theorem statements_core {core : List Token} {own : List Node} (h : Statement.Core d core own) :
    statements own = (colons own).length := by
  cases h with
  | empty => rfl
  | raw => rfl
  | declaration _ hn =>
    obtain ⟨value, -, rfl⟩ := Statement.declaration_eq_ok.1 hn
    rw [colons_cons, Statement.colon?_declaration]
    rfl

/-- A statement without a block is a declaration or none. -/
theorem statements_plain {head : List Token} {own : List Node}
    (h : Statement.Plain d head own) : statements own = (colons own).length := by
  cases h with
  | none => rfl
  | atrule =>
    rw [← List.singleton_append, statements_append, statements_leaves, colons_append, colons_leaves]
    rfl
  | other _ hc =>
    rw [statements_append, statements_append, statements_leaves, statements_leaves, colons_append,
      colons_append, colons_leaves, colons_leaves, List.nil_append, List.append_nil, Nat.zero_add,
      Nat.add_zero, statements_core hc]

/-- **Nodes that print, inlined, as others do with blanks before their colons**, whether the block
around them is inlined or not. Of the blanks, `gap` stand before the nodes already, and `k` more
stand behind them. Where the block is inlined, there are no blanks. -/
structure PrintsAs (w : Position → Nat) (gap k : Nat) (ms ns : List Node) : Prop where
  statements_eq : statements ms = statements ns
  text : ∀ dense, (dense = true → k = 0 ∧ ∀ p ∈ colons ns, w p = 0) →
    (dense = true → gap = 0) ∧
      List.replicate gap ' ' ++ charsOf (squeeze dense (ms.map (mapBlock inlineBlock))) =
        paddedCharsOf w (squeeze dense (ns.map (mapBlock inlineBlock))) ++ List.replicate k ' '

namespace PrintsAs

theorem nil : PrintsAs w k k [] [] := by
  refine ⟨rfl, fun dense hd => ⟨fun h => (hd h).1, ?_⟩⟩
  cases dense <;> simp [squeeze]

theorem append (h : PrintsAs w gap mid ms ns) (h' : PrintsAs w mid k ms' ns') :
    PrintsAs w gap k (ms ++ ms') (ns ++ ns') := by
  refine ⟨?_, fun dense hd => ?_⟩
  · rw [statements_append, statements_append, h.statements_eq, h'.statements_eq]
  rw [colons_append] at hd
  obtain ⟨hmid, htext'⟩ := h'.text dense fun ht =>
    ⟨(hd ht).1, fun p hp => (hd ht).2 p (by simp [hp])⟩
  obtain ⟨hgap, htext⟩ := h.text dense fun ht => ⟨hmid ht, fun p hp => (hd ht).2 p (by simp [hp])⟩
  refine ⟨hgap, ?_⟩
  rw [List.map_append, List.map_append, squeeze_append, squeeze_append, charsOf_append,
    paddedCharsOf_append, ← List.append_assoc, htext, List.append_assoc, htext', List.append_assoc]

end PrintsAs

/-- Nodes print as they are if no blanks stand before their tokens. -/
theorem paddedCharsOf_squeeze {ts : List Token} (h : Reading d ts ns)
    (hw : ∀ t ∈ ts, w t.span.first = 0) (dense : Bool) :
    paddedCharsOf w (squeeze dense ns) = charsOf (squeeze dense ns) := by
  have hsub : squeeze dense ns ⊆ ns := by
    cases dense with
    | false => exact List.Subset.refl ns
    | true => exact List.filter_subset_self ns
  refine paddedCharsOf_eq_charsOf _ fun p hp => ?_
  rw [colonPlacesOf_eq_flatMap, List.mem_flatMap] at hp
  obtain ⟨n, hn, hp⟩ := hp
  obtain ⟨t, ht, hpt⟩ := List.mem_map.1 (mem_firsts h p (mem_colonPlacesOf (hsub hn) hp))
  rw [← hpt]
  exact hw t ht

theorem mapBlock_leaves (f : Node → Node) (ts : List Token) :
    (leaves d ts).map (mapBlock f) = leaves d ts := by
  refine (List.map_congr_left fun n hn => ?_).trans (List.map_id _)
  obtain ⟨t, -, rfl⟩ := List.mem_map.1 hn
  exact mapBlock_leaf t.leafKind_isLeaf

/-- Tokens of a block with blanks behind them. -/
theorem printsAs_leaves {ts us : List Token} (hts : ∀ t ∈ ts, t.Spelled) (hus : ∀ u ∈ us, u.Spelled)
    (hw : ∀ t ∈ ts, w t.span.first = 0) (hk : k = 0 → us = ts)
    (htext : textOf us = textOf ts ++ List.replicate k ' ') :
    PrintsAs w 0 k (leaves d us) (leaves d ts) := by
  refine ⟨by rw [statements_leaves, statements_leaves], fun dense hd => ⟨fun _ => rfl, ?_⟩⟩
  rw [mapBlock_leaves, mapBlock_leaves, paddedCharsOf_squeeze (reading_leaves ts) hw]
  cases dense with
  | false =>
    have hchars := (reading_leaves (d := d) us).charsOf_eq hus
    rw [htext, ← (reading_leaves (d := d) ts).charsOf_eq hts] at hchars
    exact hchars
  | true =>
    obtain ⟨rfl, -⟩ := hd rfl
    rw [hk rfl]
    simp

theorem printsAs_withBlanks {t : Token} (hs : t.Spelled) (hw : w t.span.first = 0) (k : Nat) :
    PrintsAs w 0 k (leaves d (t.withBlanks k)) (leaves d [t]) := by
  refine printsAs_leaves (by simpa using hs) (spelled_withBlanks hs) (by simpa using hw) ?_ ?_
  · rintro rfl
    exact withBlanks_zero t
  · rw [textOf_withBlanks, textOf_cons, textOf_nil, List.append_nil]

theorem printsAs_blanks (k : Nat) : PrintsAs w 0 k (leaves d (blanks k)) [] := by
  show PrintsAs w 0 k (leaves d (blanks k)) (leaves d [])
  refine printsAs_leaves (by simp) spelled_blanks (by simp) ?_ ?_
  · rintro rfl
    rfl
  · rw [textOf_blanks]
    rfl

end Inlining

namespace Statement

open Braces Colons Inlining

variable {w : Position → Nat} {d : Dialect} {head : List Token} {own : List Node} {depth : Nat}

theorem Plain.unique {own' : List Node} (h : Plain d head own) (h' : Plain d head own') :
    own' = own := by
  have heq := withoutBlock_eq_ok.2 h
  rw [withoutBlock_eq_ok.2 h'] at heq
  exact Except.ok.inj heq

theorem startsAt_spread (hh : Head head depth) : startsAt (spread w 0 head) = startsAt head := by
  cases head with
  | nil => rfl
  | cons t head =>
    have ht := hh.start t rfl
    rw [startsAt, head?_spread (Token.kind_ne_whitespace ht)]
    rfl

theorem head_spread (hh : Head head depth) : Head (spread w 0 head) depth := by
  refine ⟨?_, by rw [depthOver_eq (matched_spread head), hh.depth_eq]⟩
  cases head with
  | nil => exact hh.start
  | cons t head =>
    have ht := hh.start t rfl
    rw [head?_spread (Token.kind_ne_whitespace ht)]
    simpa using ht

/-- **A statement with blanks before its colon.** -/
theorem Plain.spread (h : Plain d head own) (hh : Head head depth)
    (hm : Marked w head (declared own)) (hs : ∀ t ∈ head, t.Spelled) :
    ∃ own', Head (spread w 0 head) depth ∧ Plain d (spread w 0 head) own' ∧
      PrintsAs w (gapBefore w 0 head) 0 own' own := by
  obtain ⟨own', ho', hfollows⟩ := Follows.plain h (matched_spread (w := w) (k := 0) head)
    (startsAt_spread hh)
  refine ⟨own', head_spread hh, ho', ?_, fun dense hd => ?_⟩
  · rw [statements_plain ho', statements_plain h, hfollows.colons_eq, List.length_map]
  rw [mapBlock_plain ho', mapBlock_plain h]
  have hsound := h.reading.sound hs
  cases dense with
  | false =>
    have htext := textOf_spread (w := w) (k := 0) head
    rw [← ho'.reading.charsOf_eq (spelled_spread hs),
      ← paddedCharsOf_eq h.reading hs (hm.mono (mem_colonPlacesOf_of_declared hsound))] at htext
    exact ⟨Bool.noConfusion, htext⟩
  | true =>
    have hzero : ∀ t ∈ head, w t.span.first = 0 := by
      intro t ht
      refine Decidable.byContradiction fun hne => hne ?_
      have hmem := hm.mem t ht hne
      rw [declared, h.groupsOf_eq, List.flatten_nil, List.append_nil] at hmem
      exact (hd rfl).2 _ hmem
    rw [spread_eq_self hzero] at ho'
    rw [h.unique ho', gapBefore_eq_zero hzero, paddedCharsOf_squeeze h.reading hzero]
    exact ⟨fun _ => rfl, by simp⟩

/-- A statement with a block prints with the blanks in its block. -/
theorem Opener.paddedChars_eq {block n : Node} (h : Opener d block head n)
    (hs : ∀ t ∈ head, t.Spelled) (hw : ∀ t ∈ head, w t.span.first = 0) :
    paddedChars w n = textOf head ++ paddedChars w block := by
  obtain ⟨k, init, hk, rfl, hread, -, -⟩ := h.exists_parts
  have hmarks : branchMarks ⟨k, d, spanOf (init ++ [block])⟩ = ([], []) := by
    rcases hk with rfl | rfl <;> rfl
  have hinit : paddedCharsOf w init = textOf head :=
    (paddedCharsOf_squeeze hread hw false).trans (hread.charsOf_eq hs)
  rw [ofChildren, paddedChars, hmarks, paddedCharsOf_append, hinit]
  simp

end Statement

/-! ## Items -/

namespace Braces

open Colons Inlining Statement

variable {w : Position → Nat}

theorem kind_ne_singlelineComment {d : Dialect} {ts : List Token} {ns : List Node}
    (h : Reading d ts ns) (hl : ∀ t ∈ ts, t.kind ≠ .lineComment) :
    ∀ n ∈ ns, n.kind ≠ .singlelineComment := by
  induction h with
  | nil => simp
  | @token t n ts ns hn _ ih =>
    refine List.forall_mem_cons.2 ⟨fun hk => ?_, ih fun u hu => hl u (by simp [hu])⟩
    cases hn with
    | plain => exact hl t (by simp) ((leafKind_eq_singlelineComment t).1 hk)
    | property | colon | newline => cases hk
  | @run k run ts ns hk _ _ ih =>
    refine List.forall_mem_cons.2 ⟨fun h => ?_, ih fun u hu => hl u (by simp [hu])⟩
    rcases hk with rfl | rfl <;> cases h
  | @branch l opening inner closing ts cs ns _ hs _ _ _ ih =>
    refine List.forall_mem_cons.2 ⟨fun hk => ?_, ih fun u hu => hl u (by simp [hu])⟩
    have hfits : l.kind.isLeaf = false := hs.kindFits
    rw [show l.kind = .singlelineComment from hk] at hfits
    cases hfits

theorem kind_spread_ne_lineComment {k : Nat} {ts : List Token}
    (h : ∀ t ∈ ts, t.kind ≠ .lineComment) : ∀ u ∈ Token.spread w k ts, u.kind ≠ .lineComment := by
  refine forall_mem_spread fun t ht j u hu hk => ?_
  rcases kind_of_mem_withBlanks u hu with hu | hu
  · exact h t ht (by rw [← hu, hk])
  · rw [hk] at hu
    cases hu

theorem mapBlock_block_of_ne {l : Label} (hl : l.kind = .block) {cs : List Node}
    (hk : ∀ n ∈ cs, n.kind ≠ .singlelineComment) :
    (Node.branch l cs).mapBlock inlineBlock =
      .branch l (squeeze (decide (statements cs ≤ 1)) (cs.map (mapBlock inlineBlock))) := by
  have hall : cs.all (fun n => n.kind != .singlelineComment) = true := by
    simpa using hk
  rw [mapBlock_block l hl, isInlinable_map l fun n _ => kind_mapBlock_inlineBlock n,
    isInlinable_branch, hall, Bool.and_true]

/-- One colon alone is aligned. -/
theorem ownWidth_of_length_le {ps : List Position} (h : ps.length ≤ 1) (p : Position) :
    ownWidth ps p = 0 := by
  refine (level_iff ps).1 (fun q hq r hr => ?_) p
  have hq' := mem_of_mem_leading hq
  have hr' := mem_of_mem_leading hr
  match ps, h with
  | [], _ => cases hq'
  | [a], _ => rw [List.mem_singleton.1 hq', List.mem_singleton.1 hr']

/-- **A block with blanks before its colons, inlined.** If it is inlined it has one colon at most,
and no blanks. -/
theorem chars_block_spread {l : Label} (hl : l.kind = .block) {ms ns : List Node}
    (hms : ∀ n ∈ ms, n.kind ≠ .singlelineComment) (hns : ∀ n ∈ ns, n.kind ≠ .singlelineComment)
    (hw : ∀ p ∈ colons ns, w p = ownWidth (colons ns) p) (hp : PrintsAs w 0 0 ms ns) :
    ((Node.branch l ms).mapBlock inlineBlock).chars =
      paddedChars w ((Node.branch l ns).mapBlock inlineBlock) := by
  rw [mapBlock_block_of_ne hl hms, mapBlock_block_of_ne hl hns, Node.chars, paddedChars,
    hp.statements_eq]
  obtain ⟨-, htext⟩ := hp.text (decide (statements ns ≤ 1)) fun hone => by
    refine ⟨rfl, fun p hp => ?_⟩
    have hone := of_decide_eq_true hone
    rw [hw p hp, ownWidth_of_length_le ((length_colons_le ns).trans hone)]
  rw [List.replicate_zero, List.nil_append, List.append_nil] at htext
  rw [htext]

/-- **A statement with a block that holds blanks.** -/
theorem exists_opener_spread {d : Dialect} {l : Label} (hl : l.kind = .block) {ms ns : List Node}
    {head : List Token} {n : Node} (h : Opener d (.branch l ns) head n)
    (hs : ∀ t ∈ head, t.Spelled) (hw : ∀ t ∈ head, w t.span.first = 0)
    (hchars : ((Node.branch l ms).mapBlock inlineBlock).chars =
      paddedChars w ((Node.branch l ns).mapBlock inlineBlock)) :
    ∃ n', Opener d (.branch l ms) head n' ∧ PrintsAs w 0 0 [n'] [n] := by
  have hspan : ∀ cs, ((Node.branch l cs).mapBlock inlineBlock).span = (Node.branch l cs).span := by
    intro cs
    rw [mapBlock_block l hl]
    rfl
  obtain ⟨k, init, hk, hn, -, -, hopen⟩ := h.exists_parts
  have h' := hopen (.branch l ms)
  have hinlined := h.mapBlock (hspan ns)
  have hinlined' := h'.mapBlock (hspan ms)
  refine ⟨_, h', ?_, fun dense _ => ⟨fun _ => rfl, ?_⟩⟩
  · rw [hn, statements, statements]
    rcases hk with rfl | rfl <;> rfl
  · have hsolid : ∀ {m b : Node}, Opener d b head m → squeeze dense [m] = [m] := by
      intro m b hm
      refine squeeze_of_ne fun i hi => ?_
      rw [List.mem_singleton.1 hi]
      rcases hm.kind_mem with hk | hk <;> rw [hk] <;> exact Kind.noConfusion
    rw [List.map_singleton, List.map_singleton, hsolid hinlined, hsolid hinlined']
    simp [hinlined'.chars_eq hs, hinlined.paddedChars_eq hs hw, hchars]

/-- Blanks before the tokens of a statement with a block stand inside the block. -/
theorem marked_nested {head inner last ts : List Token} {a b : Token} {cs own ns : List Node}
    {n : Node} (hh : Head head 0) (ha : a.kind = .leftBrace) (hi : Items .css inner cs)
    (hl : Head last 0) (ho : Plain .css last own) (hb : b.kind = .rightBrace)
    (hn : Opener .css (.branch ⟨.block, .css, ⟨a.span.first, b.span.last⟩⟩ (cs ++ own)) head n)
    (hr : Items .css ts ns)
    (hm : Marked w (head ++ a :: (inner ++ (last ++ b :: ts))) (declared (n :: ns)))
    (hs : ∀ t ∈ head ++ a :: (inner ++ (last ++ b :: ts)), t.Spelled) :
    Marked w inner (declared cs) ∧ Marked w last (declared own) ∧ Marked w ts (declared ns) ∧
      ∀ t ∈ head ++ [a, b], w t.span.first = 0 := by
  have hnode := (Items.nested hh ha hi hl ho hb hn .nil).reading rfl
  have hparts : Marked w ((head ++ a :: (inner ++ (last ++ [b]))) ++ ts)
      (declared ([n] ++ ns)) := by simpa using hm
  obtain ⟨hmn, hmts⟩ := hparts.split hnode (hr.reading rfl) (by simpa using hs)
  rw [declared_opener rfl hn] at hmn
  have hread := (hi.reading rfl).append ho.reading
  have hspelled : ∀ t ∈ inner ++ last, t.Spelled := fun t ht => hs t (by
    rcases List.mem_append.1 ht with ht | ht <;> simp [ht])
  have hblock : Marked w ((head ++ [a]) ++ ((inner ++ last) ++ [b])) (declared (cs ++ own)) := by
    simpa using hmn
  obtain ⟨hmi, hfront, hback⟩ := hblock.inside (mem_firsts_of_declared hread hspelled)
  obtain ⟨hminner, hmlast⟩ := hmi.split (hi.reading rfl) ho.reading hspelled
  refine ⟨hminner, hmlast, hmts, fun t ht => ?_⟩
  rw [← List.singleton_append, ← List.append_assoc] at ht
  exact (List.mem_append.1 ht).elim (hfront t) (hback t)

/-- **A block with blanks before the colons in it**, and the statement that it belongs to. -/
theorem exists_nested_spread {head inner last : List Token} {s : Span} {cs cs' own own' : List Node}
    {n : Node} {k gap : Nat} (hi : Items .css inner cs) (ho : Plain .css last own)
    (hi' : Items .css (spread w k inner) cs') (ho' : Plain .css (spread w 0 last) own')
    (hcs : PrintsAs w gap k cs' cs) (hown : PrintsAs w k 0 own' own)
    (hn : Opener .css (.branch ⟨.block, .css, s⟩ (cs ++ own)) head n)
    (hs : ∀ t ∈ head, t.Spelled) (hl : ∀ t ∈ inner ++ last, t.kind ≠ .lineComment)
    (hhead : ∀ t ∈ head, w t.span.first = 0)
    (hw : ∀ p ∈ colons (cs ++ own), w p = ownWidth (colons (cs ++ own)) p) :
    Items .css (blanks gap ++ spread w k inner) (leaves .css (blanks gap) ++ cs') ∧
      ∃ n', Opener .css (.branch ⟨.block, .css, s⟩ ((leaves .css (blanks gap) ++ cs') ++ own'))
        head n' ∧ PrintsAs w 0 0 [n'] [n] := by
  have hinner := (items_trivia (d := .css) (isTrivia_blanks (k := gap))).append hi'
  refine ⟨hinner, ?_⟩
  have hread := (hi.reading rfl).append ho.reading
  have hread' := (hinner.reading rfl).append ho'.reading
  have hline : ∀ t ∈ (blanks gap ++ Token.spread w k inner) ++ Token.spread w 0 last,
      t.kind ≠ .lineComment := by
    rw [List.append_assoc]
    refine List.forall_mem_append.2 ⟨fun t ht => ?_, List.forall_mem_append.2 ⟨?_, ?_⟩⟩
    · rw [kind_of_mem_blanks t ht]
      exact TokenKind.noConfusion
    · exact kind_spread_ne_lineComment fun t ht => hl t (List.mem_append_left last ht)
    · exact kind_spread_ne_lineComment fun t ht => hl t (List.mem_append_right inner ht)
  have hblanked : PrintsAs w 0 0 ((leaves .css (blanks gap) ++ cs') ++ own') (cs ++ own) :=
    ((printsAs_blanks gap).append hcs).append hown
  exact exists_opener_spread rfl hn hs hhead (chars_block_spread rfl
    (kind_ne_singlelineComment hread' hline) (kind_ne_singlelineComment hread hl) hw hblanked)

/-- **The items of a block with blanks before their colons.** -/
theorem Items.spread {ts : List Token} {ns : List Node} (h : Items .css ts ns)
    (hm : Marked w ts (declared ns)) (hs : ∀ t ∈ ts, t.Spelled)
    (hl : ∀ t ∈ ts, t.kind ≠ .lineComment)
    (hw : ∀ g ∈ groupsOf ns, ∀ p ∈ g, w p = ownWidth g p) (k : Nat) :
    ∃ ms, Items .css (spread w k ts) ms ∧ PrintsAs w (gapBefore w k ts) k ms ns := by
  induction h generalizing k with
  | nil => exact ⟨[], .nil, .nil⟩
  | @trivia t ts ns ht hr ih =>
    have hparts : Marked w ([t] ++ ts) (declared (leaves .css [t] ++ ns)) := hm
    obtain ⟨hmt, hmts⟩ := hparts.split (reading_leaves [t]) (hr.reading rfl) hs
    rw [declared_leaves] at hmt
    have hzero := hmt.eq_zero t (by simp)
    obtain ⟨ms, hms, hprints⟩ := ih hmts (fun u hu => hs u (by simp [hu]))
      (fun u hu => hl u (by simp [hu])) (fun g hg => hw g (by simp [hg])) k
    refine ⟨_, (items_trivia (isTrivia_withBlanks ht)).append hms, ?_⟩
    rw [gapBefore_cons, hzero]
    exact (printsAs_withBlanks (hs t (by simp)) hzero _).append hprints
  | @statement head ts s own ns hh ho hsemi hr ih =>
    have hread : Reading .css (s :: ts) (s.leaf .css :: ns) := .token .plain (hr.reading rfl)
    obtain ⟨hmhead, hmrest⟩ := hm.split ho.reading hread hs
    have hparts : Marked w ([s] ++ ts) (declared (leaves .css [s] ++ ns)) := hmrest
    obtain ⟨hms, hmts⟩ := hparts.split (reading_leaves [s]) (hr.reading rfl) fun t ht =>
      hs t (List.mem_append_right head ht)
    rw [declared_leaves] at hms
    have hzero := hms.eq_zero s (by simp)
    obtain ⟨own', hh', ho', hown⟩ := ho.spread hh hmhead fun t ht => hs t (by simp [ht])
    obtain ⟨ms, hitems, hprints⟩ := ih hmts (fun u hu => hs u (by simp [hu]))
      (fun u hu => hl u (by simp [hu])) (fun g hg => hw g (by simp [hg])) k
    have hblanks := items_trivia (d := .css) (isTrivia_blanks (k := gapBefore w k ts))
    have hsolid : s.kind ≠ .whitespace := by simp [hsemi]
    have hleaf := printsAs_withBlanks (d := .css) (hs s (by simp)) hzero (gapBefore w k ts)
    rw [withBlanks_of_ne hsolid] at hleaf
    refine ⟨own' ++ (leaves .css (s :: blanks (gapBefore w k ts)) ++ ms), ?_, ?_⟩
    · rw [spread_append, spread_cons, gapBefore_cons, hzero, withBlanks_of_ne hsolid]
      exact .statement hh' ho' hsemi (hblanks.append hitems)
    · rw [gapBefore_append, gapBefore_cons, hzero]
      exact hown.append (hleaf.append hprints)
  | @nested head inner last ts a b cs own ns n hh ha hi hlast ho hb hn hr ihi ih =>
    obtain ⟨hminner, hmlast, hmts, hzero⟩ := marked_nested hh ha hi hlast ho hb hn hr hm hs
    have hhead : ∀ t ∈ head, w t.span.first = 0 := fun t ht => hzero t (by simp [ht])
    have hza := hzero a (by simp)
    have hzb := hzero b (by simp)
    have hread := (hi.reading rfl).append ho.reading
    have hgroups : ∀ g ∈ colons (cs ++ own) :: groupsOf (cs ++ own), ∀ p ∈ g,
        w p = ownWidth g p := by
      intro g hg
      refine hw g ?_
      rw [groupsOf_cons, hn.groups_eq, groups, if_pos rfl]
      exact List.mem_append_left _ hg
    obtain ⟨own', hlast', ho', hown⟩ := ho.spread hlast hmlast fun t ht => hs t (by simp [ht])
    obtain ⟨cs', hi', hcs⟩ := ihi hminner (fun t ht => hs t (by simp [ht]))
      (fun t ht => hl t (by simp [ht])) (fun g hg => hgroups g (by simp [hg])) (gapBefore w 0 last)
    obtain ⟨ms, hitems, hprints⟩ := ih hmts (fun u hu => hs u (by simp [hu]))
      (fun u hu => hl u (by simp [hu])) (fun g hg => hw g (by simp [hg])) k
    obtain ⟨hinner, n', hn', hprintsNode⟩ := exists_nested_spread hi ho hi' ho' hcs hown hn
      (fun t ht => hs t (by simp [ht])) (fun t ht => hl t (by
        rcases List.mem_append.1 ht with ht | ht <;> simp [ht])) hhead (hgroups _ (by simp))
    have hblanks := items_trivia (d := .css) (isTrivia_blanks (k := gapBefore w k ts))
    have hitems' := Items.nested hh ha hinner hlast' ho' hb hn' (hblanks.append hitems)
    refine ⟨n' :: (leaves .css (blanks (gapBefore w k ts)) ++ ms), ?_, ?_⟩
    · simp only [spread_append, spread_cons, gapBefore_append, gapBefore_cons, hza, hzb,
        withBlanks_of_ne (show a.kind ≠ .whitespace by simp [ha]),
        withBlanks_of_ne (show b.kind ≠ .whitespace by simp [hb]), spread_eq_self hhead]
      simpa using hitems'
    · have hstart : gapBefore w k (head ++ a :: (inner ++ (last ++ b :: ts))) = 0 := by
        rw [gapBefore_append, gapBefore_cons, hza, gapBefore_eq_zero hhead]
      rw [hstart]
      exact hprintsNode.append ((printsAs_blanks _).append hprints)

/-- **A sheet with blanks before its colons.** -/
theorem Sheet.spread {ts : List Token} {ns : List Node} (h : Sheet .css ts ns)
    (hm : Marked w ts (declared ns)) (hs : ∀ t ∈ ts, t.Spelled)
    (hl : ∀ t ∈ ts, t.kind ≠ .lineComment)
    (hw : ∀ g ∈ groupsOf ns, ∀ p ∈ g, w p = ownWidth g p) :
    ∃ ms, Sheet .css (spread w 0 ts) ms ∧ PrintsAs w (gapBefore w 0 ts) 0 ms ns := by
  cases h with
  | @intro items last cs own depth hi hlast ho =>
    obtain ⟨hmi, hmlast⟩ := hm.split (hi.reading rfl) ho.reading hs
    obtain ⟨own', hlast', ho', hown⟩ := ho.spread hlast hmlast fun t ht => hs t (by simp [ht])
    obtain ⟨cs', hi', hcs⟩ := hi.spread hmi (fun t ht => hs t (by simp [ht]))
      (fun t ht => hl t (by simp [ht])) (fun g hg => hw g (by simp [hg])) (gapBefore w 0 last)
    refine ⟨cs' ++ own', ?_, ?_⟩
    · rw [spread_append]
      exact .intro hi' hlast' ho'
    · rw [gapBefore_append]
      exact hcs.append hown

end Braces

/-! ## Sheets -/

namespace Inlining

open Colons

theorem isInlinable_unplace (block : Node) : isInlinable block.unplace = isInlinable block := by
  cases block with
  | leaf l t => rfl
  | branch l cs =>
    rw [unplace_branch, isInlinable_map l.unplace fun n _ => kind_unplace n]
    rfl

theorem inlineBlock_unplace (block : Node) :
    (inlineBlock block).unplace = inlineBlock block.unplace := by
  rw [inlineBlock, inlineBlock, isInlinable_unplace]
  split
  · rw [filterChildren, filterChildren, unplace_withChildren, children_unplace, List.filter_map]
    simp only [Function.comp_def, is_unplace]
  · rfl

theorem reshape_unplace (tree : Node) : (reshape tree).unplace = reshape tree.unplace := by
  rw [reshape, reshape, mapBlocks, mapBlocks, unplace_withChildren, children_unplace,
    mapBlocksOf_unplace inlineBlock_unplace]

theorem chars_reshape_ofChildren {d : Dialect} (ns : List Node) :
    (reshape (ofChildren .stylesheet d ns)).chars = charsOf (ns.map (mapBlock inlineBlock)) := by
  rw [reshape, mapBlocks, mapBlocksOf_eq_map]
  simp [withChildren, ofChildren, children, Node.chars, branchMarks]

/-- **Inlining an aligned sheet and inlining its text are the same.** -/
theorem exists_parse_aligned {source : List Char} {tree : Node}
    (h : parseChars .css source = .ok tree) :
    ∃ again, parseChars .css (tree.mapBlocks alignBlock).chars = .ok again ∧
      (reshape again).chars = (reshape (tree.mapBlocks alignBlock)).chars := by
  obtain ⟨ts, ns, hp⟩ := parsed_of_parseChars h
  have hlex := tokens_eq_ok.1 hp.tokens_eq
  have hsound := hp.reading.sound hp.spelled
  have hmarked : Marked (width tree) ts (declared ns) := ⟨hlex.nodup_firsts, fun t _ hw =>
    List.mem_append_right _ (mem_groups_of_width_ne_zero hp hw)⟩
  have hwidth : ∀ g ∈ groupsOf ns, ∀ p ∈ g, width tree p = ownWidth g p :=
    fun _ hg _ hpg => width_of_mem_group hp hg hpg
  have houter : ∀ p ∈ colons ns, width tree p = 0 := by
    intro p hpc
    have hnot := not_mem_groupsOf_of_mem_colons hsound (nodup_places hp) hpc
    rw [width_tree hp, widthIn_eq_zero hnot]
  have hcuts := hlex.cuts
  have hline : ∀ t ∈ ts, t.kind ≠ .lineComment := by
    intro t ht
    obtain ⟨r, hr⟩ := hcuts.exists_cutFrom t ht
    exact hr.kind_ne_lineComment rfl
  obtain ⟨ms, hms, hprints⟩ := (Braces.nodes_eq_ok.1 hp.nodes_eq).spread hmarked hp.spelled hline
    hwidth
  -- the sheet itself is no block, and so no blanks stand before its first token
  have hgap : gapBefore (width tree) 0 ts = 0 := (hprints.text true fun _ => ⟨rfl, houter⟩).1 rfl
  have hcut := hcuts.spread (onColons hp).colon
  have hnodes : sheetNodes .css (spread (width tree) 0 ts) = .ok ms := Braces.nodes_eq_ok.2 hms
  obtain ⟨again, hagain, hsame⟩ := hcut.exists_parse hnodes
  have hloose := textOf_spread (w := width tree) (k := 0) ts
  have htext := (hprints.text false Bool.noConfusion).2
  rw [hgap, List.replicate_zero, List.nil_append, List.append_nil] at hloose htext
  refine ⟨again, ?_, ?_⟩
  · rw [chars_aligned hp, ← hloose, ← (reading_sheetNodes hnodes).charsOf_eq hcut.spelled]
    exact hagain
  · rw [chars_reshape_aligned hp, ← chars_unplace, reshape_unplace, hsame, ← reshape_unplace,
      chars_unplace, chars_reshape_ofChildren]
    exact htext

end Inlining

end TidySheet
