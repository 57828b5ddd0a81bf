import TidySheet.Parse.Braces
import TidySheet.Proofs.Statements

/-!
# What stands between braces

The reader of brace dialects is a fold over the tokens with a stack of open blocks. `Items` says
declaratively what it accepts: trivia, statements with their semicolons, statements with their
blocks.

* `Reader.Has.step` — one token keeps the invariant that what the reader holds was read from the
  tokens so far; `Reader.Has.foldlM` — so does a run;
* `nodes_eq_ok` — the reader accepts exactly the sheets made of items, with the nodes of the items;
* `reading_nodes` — a sheet is read from its tokens.
-/

set_option autoImplicit false

namespace TidySheet.Braces

open Token Statement

variable {d : Dialect}

/-! ## Statements between braces -/

/-- The parentheses that are open behind a token. -/
def depthAfter (depth : Nat) (t : Token) : Nat :=
  match t.kind with
  | .leftParen => depth + 1
  | .rightParen => depth - 1
  | _ => depth

/-- Outside parentheses these marks end a statement. -/
def isEnd (t : Token) : Bool :=
  t.kind == .leftBrace || t.kind == .semicolon || t.kind == .rightBrace

/-- The parentheses open behind tokens of one statement; `none` if the statement ends before. -/
def depthOver (depth : Nat) (ts : List Token) : Option Nat :=
  ts.foldlM (fun k t => if k = 0 ∧ isEnd t = true then none else some (depthAfter k t)) depth

/-- Tokens that the reader gathers into one statement. -/
structure Head (head : List Token) (depth : Nat) : Prop where
  start : ∀ t ∈ head.head?, t.isTrivia = false
  depth_eq : depthOver 0 head = some depth

theorem Head.nil : Head [] 0 := ⟨by simp, rfl⟩

/-- **What stands in a block**: trivia, statements up to their semicolons, and statements with
their blocks. -/
inductive Items (d : Dialect) : List Token → List Node → Prop
  | nil : Items d [] []
  | trivia {t : Token} {ts : List Token} {ns : List Node} (ht : t.isTrivia = true)
      (hr : Items d ts ns) : Items d (t :: ts) (t.leaf d :: ns)
  | statement {head ts : List Token} {s : Token} {own ns : List Node} (hh : Head head 0)
      (ho : Plain d head own) (hs : s.kind = .semicolon) (hr : Items d ts ns) :
      Items d (head ++ s :: ts) (own ++ s.leaf d :: ns)
  | nested {head inner last ts : List Token} {a b : Token} {cs own ns : List Node} {n : Node}
      (hh : Head head 0) (ha : a.kind = .leftBrace) (hi : Items d inner cs) (hl : Head last 0)
      (ho : Plain d last own) (hb : b.kind = .rightBrace)
      (hn : Opener d (.branch ⟨.block, d, ⟨a.span.first, b.span.last⟩⟩ (cs ++ own)) head n)
      (hr : Items d ts ns) : Items d (head ++ a :: (inner ++ (last ++ b :: ts))) (n :: ns)

theorem Items.append {ts us : List Token} {ns ms : List Node} (h : Items d ts ns)
    (h' : Items d us ms) : Items d (ts ++ us) (ns ++ ms) := by
  induction h with
  | nil => exact h'
  | trivia ht _ ih => exact .trivia ht ih
  | statement hh ho hs _ ih =>
    simp only [List.append_assoc, List.cons_append]
    exact .statement hh ho hs ih
  | nested hh ha hi hl ho hb hn _ _ ih =>
    simp only [List.append_assoc, List.cons_append]
    exact .nested hh ha hi hl ho hb hn ih

/-! ## The reader gathers items -/

/-- The tokens that the open blocks were read from, up to the last opening brace. -/
inductive OpenBlocks (d : Dialect) : List OpenBlock → List Token → Prop
  | nil : OpenBlocks d [] []
  | cons {b : OpenBlock} {bs : List OpenBlock} {outer before : List Token} (hh : Head b.head 0)
      (hk : b.brace.kind = .leftBrace) (hi : Items d before b.before.reverse)
      (ho : OpenBlocks d bs outer) :
      OpenBlocks d (b :: bs) (outer ++ (before ++ (b.head ++ [b.brace])))

/-- The state of the reader once it has read `ts`. -/
def Reader.Has (d : Dialect) (r : Reader) (ts : List Token) : Prop :=
  ∃ outer inner, OpenBlocks d r.blocks outer ∧ Items d inner r.nodes.reverse ∧
    Head r.head.reverse r.depth ∧ ts = outer ++ (inner ++ r.head.reverse)

namespace Reader

variable {r r' : Reader} {t : Token} {ts us : List Token}

theorem depthOver_append (k : Nat) (ts us : List Token) :
    depthOver k (ts ++ us) = (depthOver k ts).bind (depthOver · us) := by
  simp only [depthOver, List.foldlM_append]
  rfl

theorem Has.grow (h : r.Has d ts) (ht : r.depth = 0 → isEnd t = false)
    (hs : r.head = [] → t.isTrivia = false) : (r.grow t).Has d (ts ++ [t]) := by
  obtain ⟨outer, inner, ho, hi, hh, rfl⟩ := h
  refine ⟨outer, inner, ho, hi, ⟨?_, ?_⟩, by simp [Reader.grow]⟩
  · intro u hu
    simp only [Reader.grow, List.reverse_cons] at hu
    cases hr : r.head.reverse with
    | nil =>
      rw [hr] at hu
      simp only [List.nil_append, List.head?_cons, Option.mem_some_iff] at hu
      subst hu
      exact hs (List.reverse_eq_nil_iff.1 hr)
    | cons v vs =>
      rw [hr] at hu
      exact hh.start u (by rw [hr]; simpa using hu)
  · have hd : depthOver r.depth [t] = some (depthAfter r.depth t) := by
      simp only [depthOver, List.foldlM_cons, List.foldlM_nil]
      rw [if_neg]
      · rfl
      · rintro ⟨h0, he⟩
        rw [ht h0] at he
        cases he
    simp only [Reader.grow, List.reverse_cons, depthOver_append, hh.depth_eq]
    exact hd

theorem endStatement_eq_ok : r.endStatement d = .ok r' ↔
    ∃ own, Plain d r.head.reverse own ∧ r' = ⟨r.blocks, own.reverse ++ r.nodes, [], 0⟩ := by
  unfold Reader.endStatement
  rw [bind_eq_ok]
  simp only [withoutBlock_eq_ok, pure, Except.pure, Except.ok.injEq, @eq_comm Reader _ r']

/-- Trivia between statements. -/
theorem Has.trivia (h : r.Has d ts) (hd : r.depth = 0) (hr : r.head = [])
    (ht : t.isTrivia = true) : (r.add (t.leaf d)).Has d (ts ++ [t]) := by
  obtain ⟨outer, inner, ho, hi, -, rfl⟩ := h
  have htrivia := hi.append (.trivia ht .nil)
  refine ⟨outer, inner ++ [t], ho, by simpa [Reader.add] using htrivia, ?_, ?_⟩
  · simpa [Reader.add, hr, hd] using Head.nil
  · simp [Reader.add, hr]

/-- A brace opens a block. -/
theorem Has.openBlock (h : r.Has d ts) (hd : r.depth = 0) (hk : t.kind = .leftBrace) :
    (r.openBlock t).Has d (ts ++ [t]) := by
  obtain ⟨outer, inner, ho, hi, hh, rfl⟩ := h
  rw [hd] at hh
  exact ⟨_, [], .cons hh hk hi ho, .nil, .nil, by simp [Reader.openBlock]⟩

/-- A semicolon ends a statement. -/
theorem Has.semicolon (h : r.Has d ts) (hd : r.depth = 0) (hk : t.kind = .semicolon)
    (he : r.endStatement d = .ok r') : (r'.add (t.leaf d)).Has d (ts ++ [t]) := by
  obtain ⟨outer, inner, ho, hi, hh, rfl⟩ := h
  rw [hd] at hh
  obtain ⟨own, hown, rfl⟩ := endStatement_eq_ok.1 he
  have hstat := hi.append (.statement hh hown hk .nil)
  exact ⟨outer, _, ho, by simpa [Reader.add] using hstat, .nil, by simp [Reader.add]⟩

/-- A brace ends a statement and closes the innermost block. -/
theorem Has.closeBlock {ended : Reader} (h : r.Has d ts) (hd : r.depth = 0)
    (hk : t.kind = .rightBrace) (he : r.endStatement d = .ok ended)
    (hc : ended.closeBlock d t = .ok r') : r'.Has d (ts ++ [t]) := by
  obtain ⟨outer, inner, ho, hi, hh, rfl⟩ := h
  rw [hd] at hh
  obtain ⟨own, hown, rfl⟩ := endStatement_eq_ok.1 he
  unfold Reader.closeBlock at hc
  cases hb : r.blocks with
  | nil => simp [hb] at hc
  | cons b bs =>
    rw [hb] at ho
    simp only [hb] at hc
    obtain ⟨n, hn, hc⟩ := bind_eq_ok.1 hc
    cases hc
    cases ho with
    | @cons _ _ outer before hbh hbk hbi hbo =>
      have hn' := withBlock_eq_ok.1 hn
      rw [List.reverse_append, List.reverse_reverse] at hn'
      have hnest := hbi.append (.nested hbh hbk hi hh hown hk hn' .nil)
      exact ⟨outer, _, hbo, by simpa using hnest, .nil, by simp⟩

/-- Inside parentheses, any token belongs to the statement. -/
theorem Has.inside (h : r.Has d ts) (hd : r.depth ≠ 0) : (r.grow t).Has d (ts ++ [t]) := by
  refine h.grow (fun h0 => absurd h0 hd) fun hr => ?_
  obtain ⟨outer, inner, -, -, hh, -⟩ := h
  have hdepth := hh.depth_eq
  rw [hr] at hdepth
  simp only [List.reverse_nil, depthOver, List.foldlM_nil, pure, Option.some.injEq] at hdepth
  exact absurd hdepth.symm hd

/-- **One token**: the reader behind it has read that token too. -/
theorem Has.step (h : r.Has d ts) (hs : r.step d t = .ok r') : r'.Has d (ts ++ [t]) := by
  unfold Reader.step at hs
  by_cases hd : r.depth = 0
  · rw [if_pos hd] at hs
    split at hs
    · rename_i hk
      cases hs
      exact h.openBlock hd hk
    · rename_i hk
      obtain ⟨ended, he, hs⟩ := bind_eq_ok.1 hs
      cases hs
      exact h.semicolon hd hk he
    · rename_i hk
      obtain ⟨ended, he, hs⟩ := bind_eq_ok.1 hs
      exact h.closeBlock hd hk he hs
    · rename_i hopening hsemicolon hclosing
      split at hs
      · rename_i hc
        cases hs
        simp only [Bool.and_eq_true, List.isEmpty_iff] at hc
        exact h.trivia hd hc.1 hc.2
      · rename_i hc
        cases hs
        refine h.grow (fun _ => ?_) fun hr => by simpa [hr] using hc
        simp only [isEnd, Bool.or_eq_false_iff, beq_eq_false_iff_ne]
        exact ⟨⟨hopening, hsemicolon⟩, hclosing⟩
  · rw [if_neg hd] at hs
    cases hs
    exact h.inside hd

theorem Has.foldlM : ∀ (us : List Token) {r r' : Reader} {ts : List Token}, r.Has d ts →
    us.foldlM (Reader.step d) r = .ok r' → r'.Has d (ts ++ us)
  | [], r, r', ts, h, hf => by
    cases hf
    simpa using h
  | u :: us, r, r', ts, h, hf => by
    rw [List.foldlM_cons] at hf
    obtain ⟨r₁, h₁, h₂⟩ := bind_eq_ok.1 hf
    have h' := Has.foldlM us (h.step h₁) h₂
    rwa [List.append_assoc] at h'

end Reader

/-- A whole sheet: items, and a last statement that nothing ends. -/
inductive Sheet (d : Dialect) : List Token → List Node → Prop
  | intro {items last : List Token} {cs own : List Node} {depth : Nat} (hi : Items d items cs)
      (hl : Head last depth) (ho : Plain d last own) : Sheet d (items ++ last) (cs ++ own)

theorem sheet_of_nodes {ts : List Token} {ns : List Node} (h : nodes d ts = .ok ns) :
    Sheet d ts ns := by
  obtain ⟨r, hf, h⟩ := bind_eq_ok.1 h
  have hs : Reader.start.Has d [] := ⟨[], [], .nil, .nil, .nil, rfl⟩
  obtain ⟨outer, inner, ho, hi, hh, ht⟩ := Reader.Has.foldlM ts hs hf
  obtain ⟨r', he, h⟩ := bind_eq_ok.1 h
  obtain ⟨own, hown, rfl⟩ := Reader.endStatement_eq_ok.1 he
  cases hb : r.blocks with
  | cons b bs => simp [hb] at h
  | nil =>
    rw [hb] at ho
    cases ho
    simp only [hb] at h
    cases h
    rw [List.nil_append, List.nil_append] at ht
    rw [ht, List.reverse_append, List.reverse_reverse]
    exact .intro hi hh hown

/-! ## Items are read back -/

namespace Reader

/-- A statement is gathered token by token. -/
theorem foldlM_head : ∀ (ts : List Token) {r : Reader} {depth : Nat},
    (r.head = [] → ∀ t ∈ ts.head?, t.isTrivia = false) → depthOver r.depth ts = some depth →
    ts.foldlM (Reader.step d) r = .ok { r with head := ts.reverse ++ r.head, depth := depth }
  | [], r, depth, _, hd => by
    cases hd
    rfl
  | t :: ts, r, depth, hs, hd => by
    rw [depthOver, List.foldlM_cons] at hd
    split at hd
    · cases hd
    · rename_i hend
      have hstep : r.step d t = .ok (r.grow t) := by
        unfold Reader.step
        by_cases h0 : r.depth = 0
        · rw [if_pos h0]
          have he : isEnd t = false := by simpa [h0] using hend
          simp only [isEnd, Bool.or_eq_false_iff, beq_eq_false_iff_ne] at he
          split
          · exact absurd (by assumption) he.1.1
          · exact absurd (by assumption) he.1.2
          · exact absurd (by assumption) he.2
          · rw [if_neg]
            simp only [Bool.and_eq_true, List.isEmpty_iff, not_and, Bool.not_eq_true]
            exact fun hr => hs hr t rfl
        · rw [if_neg h0]
      rw [List.foldlM_cons, hstep]
      refine (foldlM_head ts (r := r.grow t) (by simp [Reader.grow]) hd).trans ?_
      simp [Reader.grow]

theorem foldlM_of_head {head : List Token} {depth : Nat} (h : Head head depth)
    (blocks : List OpenBlock) (nodes : List Node) :
    head.foldlM (Reader.step d) ⟨blocks, nodes, [], 0⟩ =
      .ok ⟨blocks, nodes, head.reverse, depth⟩ := by
  have hf := foldlM_head (d := d) head (r := ⟨blocks, nodes, [], 0⟩) (fun _ => h.start) h.depth_eq
  simpa using hf

theorem endStatement_of_plain {head : List Token} {own : List Node} (h : Plain d head own)
    (blocks : List OpenBlock) (nodes : List Node) (depth : Nat) :
    Reader.endStatement d ⟨blocks, nodes, head.reverse, depth⟩ =
      .ok ⟨blocks, own.reverse ++ nodes, [], 0⟩ :=
  endStatement_eq_ok.2 ⟨own, by simpa using h, rfl⟩

section Steps

variable (blocks : List OpenBlock) (nodes : List Node) {t : Token} {head last : List Token}
  {own : List Node}

theorem step_of_trivia (ht : t.isTrivia = true) :
    Reader.step d ⟨blocks, nodes, [], 0⟩ t = .ok ⟨blocks, t.leaf d :: nodes, [], 0⟩ := by
  unfold Reader.step
  rw [if_pos rfl]
  split <;> simp_all [isTrivia, Reader.add]

theorem step_of_semicolon (ho : Plain d head own) (hk : t.kind = .semicolon) :
    Reader.step d ⟨blocks, nodes, head.reverse, 0⟩ t =
      .ok ⟨blocks, t.leaf d :: (own.reverse ++ nodes), [], 0⟩ := by
  unfold Reader.step
  rw [if_pos rfl, hk]
  simp only [endStatement_of_plain ho]
  rfl

theorem step_of_leftBrace (head : List Token) (hk : t.kind = .leftBrace) :
    Reader.step d ⟨blocks, nodes, head.reverse, 0⟩ t =
      .ok ⟨⟨head, t, nodes⟩ :: blocks, [], [], 0⟩ := by
  unfold Reader.step
  rw [if_pos rfl, hk]
  simp [Reader.openBlock]

theorem step_of_rightBrace {a : Token} {cs : List Node} {n : Node} (ho : Plain d last own)
    (hk : t.kind = .rightBrace)
    (hn : Opener d (.branch ⟨.block, d, ⟨a.span.first, t.span.last⟩⟩ (cs ++ own)) head n) :
    Reader.step d ⟨⟨head, a, nodes⟩ :: blocks, cs.reverse, last.reverse, 0⟩ t =
      .ok ⟨blocks, n :: nodes, [], 0⟩ := by
  unfold Reader.step
  rw [if_pos rfl, hk]
  simp only [endStatement_of_plain ho]
  show Reader.closeBlock d ⟨⟨head, a, nodes⟩ :: blocks, own.reverse ++ cs.reverse, [], 0⟩ t = _
  simp only [Reader.closeBlock, List.reverse_append, List.reverse_reverse,
    withBlock_eq_ok.2 hn]
  rfl

end Steps

/-- **The reader takes items to their nodes**, whatever blocks are open around them. -/
theorem foldlM_items {ts : List Token} {ns : List Node} (h : Items d ts ns) :
    ∀ (blocks : List OpenBlock) (nodes : List Node),
      ts.foldlM (Reader.step d) ⟨blocks, nodes, [], 0⟩ =
        .ok ⟨blocks, ns.reverse ++ nodes, [], 0⟩ := by
  induction h with
  | nil => intro blocks nodes; rfl
  | @trivia t ts ns ht _ ih =>
    intro blocks nodes
    rw [List.foldlM_cons, step_of_trivia blocks nodes ht]
    refine (ih blocks (t.leaf d :: nodes)).trans ?_
    simp
  | @statement head ts s own ns hh ho hs _ ih =>
    intro blocks nodes
    rw [List.foldlM_append, foldlM_of_head hh]
    show List.foldlM (Reader.step d) _ (s :: ts) = _
    rw [List.foldlM_cons, step_of_semicolon blocks nodes ho hs]
    refine (ih blocks (s.leaf d :: (own.reverse ++ nodes))).trans ?_
    simp
  | @nested head inner last ts a b cs own ns n hh ha hi hl ho hb hn _ ihi ih =>
    intro blocks nodes
    rw [List.foldlM_append, foldlM_of_head hh]
    show List.foldlM (Reader.step d) _ (a :: _) = _
    rw [List.foldlM_cons, step_of_leftBrace blocks nodes head ha]
    show List.foldlM (Reader.step d) _ (inner ++ _) = _
    rw [List.foldlM_append, ihi]
    show List.foldlM (Reader.step d) _ (last ++ _) = _
    rw [List.foldlM_append, List.append_nil, foldlM_of_head hl]
    show List.foldlM (Reader.step d) _ (b :: ts) = _
    rw [List.foldlM_cons, step_of_rightBrace blocks nodes ho hb hn]
    refine (ih blocks (n :: nodes)).trans ?_
    simp

end Reader

/-- **The reader accepts exactly the sheets made of items.** -/
theorem nodes_eq_ok {ts : List Token} {ns : List Node} : nodes d ts = .ok ns ↔ Sheet d ts ns := by
  refine ⟨sheet_of_nodes, fun h => ?_⟩
  cases h with
  | @intro items last cs own depth hi hl ho =>
    have hf : (items ++ last).foldlM (Reader.step d) Reader.start =
        .ok ⟨[], cs.reverse, last.reverse, depth⟩ := by
      rw [List.foldlM_append, Reader.start, Reader.foldlM_items hi]
      show List.foldlM (Reader.step d) _ last = _
      rw [List.append_nil, Reader.foldlM_of_head hl]
    unfold nodes
    rw [hf]
    show Reader.finish d _ = _
    unfold Reader.finish
    rw [Reader.endStatement_of_plain ho]
    show Except.ok _ = _
    simp

/-! ## Items are read from their tokens -/

/-- No declaration is left open at the end of items. -/
theorem Items.separated {ts : List Token} {ns ms : List Node} (h : Items d ts ns)
    (hm : Node.Separated false ms) : Node.Separated false (ns ++ ms) := by
  induction h with
  | nil => exact hm
  | trivia ht _ ih => exact (separated_cons_trivia (leaf_isTrivia ht)).2 ih
  | @statement head ts s own ns _ ho hs _ ih =>
    rw [List.append_assoc]
    exact separated_append ho.separated
      (separated_delimiter (by simp [leaf, Node.kind, Node.label, leafKind, hs]) ih)
  | nested _ _ _ _ _ _ hn _ _ ih =>
    simp only [List.cons_append, Node.Separated]
    rcases hn.kind_mem with hk | hk <;> simpa [hk] using ih

theorem Items.kind_ne {ts : List Token} {ns : List Node} (h : Items d ts ns) :
    ∀ n ∈ ns, n.kind ≠ .propertyDelimiter := by
  induction h with
  | nil => intro n hn; cases hn
  | @trivia t ts ns _ _ ih =>
    intro n hn
    rcases List.mem_cons.1 hn with rfl | hn
    · exact t.leafKind_ne_propertyDelimiter
    · exact ih n hn
  | @statement head ts s own ns _ ho _ _ ih =>
    intro n hn
    rcases List.mem_append.1 hn with hn | hn
    · exact ho.kind_ne n hn
    rcases List.mem_cons.1 hn with rfl | hn
    · exact s.leafKind_ne_propertyDelimiter
    · exact ih n hn
  | nested _ _ _ _ _ _ hn _ _ ih =>
    intro m hm
    rcases List.mem_cons.1 hm with rfl | hm
    · rcases hn.kind_mem with hk | hk <;> simp [hk]
    · exact ih m hm

theorem Items.reading (hd : d.usesBraces = true) {ts : List Token} {ns : List Node}
    (h : Items d ts ns) : Reading d ts ns := by
  induction h with
  | nil => exact .nil
  | trivia _ _ ih => exact .token .plain ih
  | statement _ ho _ _ ih => exact ho.reading.append (.token .plain ih)
  | @nested head inner last ts a b cs own ns n hh ha hi hl ho hb hn _ ihi ih =>
    have hm : MarksOf ⟨.block, d, ⟨a.span.first, b.span.last⟩⟩ [a] [b] :=
      .braces (by simp [Node.branchMarks, hd]) ha hb rfl
    have hr := ihi.append ho.reading
    have hs : Node.Sound d (.branch ⟨.block, d, ⟨a.span.first, b.span.last⟩⟩ (cs ++ own)) := by
      refine ⟨rfl, rfl, fun h => (by cases h), fun _ c hc => ?_,
        fun _ _ => hi.separated ho.separated⟩
      rcases List.mem_append.1 hc with hc | hc
      · exact hi.kind_ne c hc
      · exact ho.kind_ne c hc
    have hnest := (hn.reading (.branch hm hs hr .nil) rfl).append ih
    simpa using hnest

/-- **A sheet is read from its tokens.** -/
theorem reading_nodes (hd : d.usesBraces = true) {ts : List Token} {ns : List Node}
    (h : nodes d ts = .ok ns) : Reading d ts ns := by
  cases nodes_eq_ok.1 h with
  | intro hi _ ho => exact (hi.reading hd).append ho.reading

end TidySheet.Braces
