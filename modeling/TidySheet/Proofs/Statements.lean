import TidySheet.Parse.Statement
import TidySheet.Proofs.Reading

/-!
# What a statement becomes

The parser reads values by a fold with a stack of open groups and cuts statements into parts. Here
each of its functions gets the description that later proofs work with:

* `Value.inlineReading_nodes` — a value is read from all of its tokens; the fold keeps an invariant
  (`Value.State.Has`) that each piece preserves;
* `Statement.withoutBlock_eq_ok`, `Statement.withBlock_eq_ok` — the forms of a statement, one case
  each (`Statement.Plain`, `Statement.Opener`), exact in both directions;
* `Statement.Plain.reading`, `Statement.Opener.reading` — statements are read from their tokens;
* `Statement.Plain.separated` — a statement holds one declaration at most.
-/

set_option autoImplicit false

namespace TidySheet

theorem bind_eq_ok {ε α β : Type} {x : Except ε α} {f : α → Except ε β} {b : β} :
    x >>= f = .ok b ↔ ∃ a, x = .ok a ∧ f a = .ok b := by
  cases x with
  | error e =>
    constructor
    · intro h; cases h
    · rintro ⟨a, h, -⟩; cases h
  | ok a =>
    constructor
    · intro h; exact ⟨a, rfl, h⟩
    · rintro ⟨a', h, h'⟩; cases h; exact h'

variable {d : Dialect}

theorem Node.sound_ofChildren {k : Kind} {cs : List Node} (hl : k.isLeaf = false)
    (hd : k ≠ .declaration) (hb : k ≠ .block) (hc : ∀ c ∈ cs, c.kind ≠ .propertyDelimiter) :
    Node.Sound d (.ofChildren k d cs) :=
  ⟨rfl, hl, fun h => absurd h hd, fun _ => hc, fun h => absurd h hb⟩

theorem Reading.ofChildren {k : Kind} {ts : List Token} {cs : List Node}
    (hm : Node.branchMarks ⟨k, d, Node.spanOf cs⟩ = ([], []))
    (hs : Node.Sound d (.ofChildren k d cs)) (hi : Reading d ts cs) :
    Reading d ts [.ofChildren k d cs] := by
  have hb : Reading d ([] ++ (ts ++ ([] ++ []))) [.ofChildren k d cs] :=
    .branch (.none hm) hs hi .nil
  simpa using hb

/-! ## Values -/

/-- The kinds of the branches in a property, a selector or a value. -/
def inlineKinds : List Kind := [.property, .selector, .value, .function, .arguments, .parentheses]

/-- Nodes read from tokens in which nothing of a block's structure stands. -/
structure InlineReading (d : Dialect) (ts : List Token) (ns : List Node) : Prop where
  reading : Reading d ts ns
  inline : ∀ n ∈ ns, n.Inline

namespace InlineReading

theorem nil : InlineReading d [] [] := ⟨.nil, by simp⟩

theorem append {ts us : List Token} {ns ms : List Node} (h : InlineReading d ts ns)
    (h' : InlineReading d us ms) : InlineReading d (ts ++ us) (ns ++ ms) := by
  refine ⟨h.reading.append h'.reading, fun n hn => ?_⟩
  rcases List.mem_append.1 hn with hn | hn
  · exact h.inline n hn
  · exact h'.inline n hn

theorem kind_ne {ts : List Token} {ns : List Node} (h : InlineReading d ts ns) :
    ∀ n ∈ ns, n.kind ≠ .propertyDelimiter :=
  fun n hn => (h.inline n hn).self.2.2

/-- A branch of a value is read from what its children and its marks are read from. -/
theorem branch {l : Label} {opening inner closing : List Token} {cs : List Node}
    (hk : l.kind ∈ inlineKinds) (hd : l.dialect = d)
    (hm : MarksOf l opening closing) (hi : InlineReading d inner cs) :
    InlineReading d (opening ++ (inner ++ closing)) [.branch l cs] := by
  have hl : l.kind.isLeaf = false ∧ l.kind ≠ .block ∧ l.kind ≠ .declaration ∧
      l.kind ≠ .propertyDelimiter := by
    revert hk
    cases l.kind <;> decide
  constructor
  · have hs : Node.Sound d (.branch l cs) :=
      ⟨hd, hl.1, fun h => absurd h hl.2.2.1, fun _ => hi.kind_ne, fun h => absurd h hl.2.1⟩
    simpa using Reading.branch hm hs hi.reading .nil
  · simp only [List.mem_singleton, forall_eq, Node.Inline, Node.all_branch]
    exact ⟨hl.2, (Node.allOf_iff cs).2 hi.inline⟩

theorem ofChildren {k : Kind} {ts : List Token} {cs : List Node}
    (hk : k ∈ inlineKinds)
    (hm : Node.branchMarks ⟨k, d, Node.spanOf cs⟩ = ([], [])) (hi : InlineReading d ts cs) :
    InlineReading d ts [.ofChildren k d cs] := by
  have hb := branch (l := ⟨k, d, Node.spanOf cs⟩) hk rfl (.none hm) hi
  simpa [Node.ofChildren] using hb

end InlineReading

theorem Token.leaf_inline (t : Token) : (t.leaf d).Inline := by
  have hl := t.leafKind_isLeaf
  have hp := t.leafKind_ne_propertyDelimiter
  refine (Node.all_leaf _ _).2 ⟨fun h => ?_, fun h => ?_, hp⟩
  · rw [show t.leafKind = .block from h] at hl
    cases hl
  · rw [show t.leafKind = .declaration from h] at hl
    cases hl

theorem Token.inlineReading (t : Token) : InlineReading d [t] [t.leaf d] :=
  ⟨.token .plain .nil, by simpa using t.leaf_inline⟩

theorem Token.inlineReading_important {run : List Token} (hne : run ≠ []) :
    InlineReading d run [Token.joined .important d run] := by
  constructor
  · have hr : Reading d (run ++ []) [Token.joined .important d run] := .run (.inr rfl) hne .nil
    simpa using hr
  · simp [Token.joined, Node.Inline, Node.kind, Node.label]

namespace Value

/-- The tokens that the open groups of a value were read from. -/
inductive OpenGroups (d : Dialect) : List Group → List Token → Prop
  | nil : OpenGroups d [] []
  | cons {g : Group} {gs : List Group} {outer before : List Token} (hp : g.paren.kind = .leftParen)
      (hb : InlineReading d before g.before.reverse) (hg : OpenGroups d gs outer) :
      OpenGroups d (g :: gs) (outer ++ (before ++ (g.name.toList ++ [g.paren])))

/-- The state of the reader once it has read `ts`. -/
def State.Has (d : Dialect) (s : State) (ts : List Token) : Prop :=
  ∃ outer inner, OpenGroups d s.groups outer ∧ InlineReading d inner s.nodes.reverse ∧
    ts = outer ++ inner

theorem Group.inlineReading_close {g : Group} {paren : Token} {inner : List Token}
    {ns : List Node} (hg : g.paren.kind = .leftParen) (hp : paren.kind = .rightParen)
    (hn : InlineReading d inner ns) :
    InlineReading d (g.name.toList ++ (g.paren :: (inner ++ [paren]))) [g.close d ns paren] := by
  unfold Group.close
  cases g.name with
  | none =>
    exact .branch (l := ⟨.parentheses, d, ⟨g.paren.span.first, paren.span.last⟩⟩)
      (by simp [inlineKinds]) rfl (.parentheses rfl hg hp rfl) hn
  | some name =>
    have ha : InlineReading d (g.paren :: (inner ++ [paren]))
        [.branch ⟨.arguments, d, ⟨g.paren.span.first, paren.span.last⟩⟩ ns] :=
      .branch (l := ⟨.arguments, d, ⟨g.paren.span.first, paren.span.last⟩⟩)
        (by simp [inlineKinds]) rfl (.parentheses rfl hg hp rfl) hn
    have hr := InlineReading.ofChildren (d := d) (k := .function) (by decide) rfl
      (name.inlineReading.append ha)
    simpa using hr

/-- The tokens of a piece. -/
inductive Piece.Of (d : Dialect) : Piece → List Token → Prop
  | leaf (t : Token) : Of d (.leaf (t.leaf d)) [t]
  | important {run : List Token} (hne : run ≠ []) :
      Of d (.leaf (Token.joined .important d run)) run
  | opening (name : Option Token) {paren : Token} (hk : paren.kind = .leftParen) :
      Of d (.opening name paren) (name.toList ++ [paren])
  | closing {paren : Token} (hk : paren.kind = .rightParen) : Of d (.closing paren) [paren]

inductive PiecesOf (d : Dialect) : List Piece → List Token → Prop
  | nil : PiecesOf d [] []
  | cons {p : Piece} {ps : List Piece} {us ts : List Token} (hp : p.Of d us)
      (hps : PiecesOf d ps ts) : PiecesOf d (p :: ps) (us ++ ts)

theorem piecesOf_pieces (ts : List Token) : PiecesOf d (pieces d ts) ts := by
  fun_induction pieces d ts with
  | case1 => exact .nil
  | case2 t ts hk ih => exact .cons (.opening none hk) ih
  | case3 t ts hk ih => exact .cons (.closing hk) ih
  | case4 t _ u us hk ih => exact .cons (.opening (some t) hk) ih
  | case5 t _ u us _ ih => exact .cons (.leaf t) ih
  | case6 t _ => exact .cons (.leaf t) .nil
  | case7 t _ u us _ ih => exact .cons (.important (List.cons_ne_nil t [u])) ih
  | case8 t _ u _ _ v vs _ ih => exact .cons (.important (List.cons_ne_nil t [u, v])) ih
  | case9 t _ u _ _ v vs _ ih => exact .cons (.leaf t) ih
  | case10 t _ u _ _ ih => exact .cons (.leaf t) ih
  | case11 t _ u us _ _ ih => exact .cons (.leaf t) ih
  | case12 t _ => exact .cons (.leaf t) .nil
  | case13 t ts _ _ _ _ ih => exact .cons (.leaf t) ih

theorem State.Has.leaf {s : State} {n : Node} {ts us : List Token} (hs : s.Has d ts)
    (hn : InlineReading d us [n]) : State.Has d ⟨s.groups, n :: s.nodes⟩ (ts ++ us) := by
  obtain ⟨outer, inner, ho, hi, rfl⟩ := hs
  refine ⟨outer, inner ++ us, ho, ?_, by simp⟩
  simpa using hi.append hn

/-- **One piece**: the state behind it has read its tokens too. -/
theorem State.Has.step {s s' : State} {p : Piece} {ts us : List Token} (hs : s.Has d ts)
    (hp : p.Of d us) (h : s.step d p = .ok s') : s'.Has d (ts ++ us) := by
  cases hp with
  | leaf t =>
    cases h
    exact hs.leaf t.inlineReading
  | important hne =>
    cases h
    exact hs.leaf (Token.inlineReading_important hne)
  | opening name hk =>
    cases h
    obtain ⟨outer, inner, ho, hi, rfl⟩ := hs
    exact ⟨_, [], .cons hk hi ho, .nil, by simp⟩
  | closing hk =>
    obtain ⟨outer, inner, ho, hi, rfl⟩ := hs
    obtain ⟨groups, nodes⟩ := s
    cases ho with
    | nil => cases h
    | @cons g gs outer before hg hb ho =>
      cases h
      have hc := hb.append (Group.inlineReading_close hg hk hi)
      exact ⟨outer, _, ho, by simpa using hc, by simp⟩

theorem State.Has.foldlM {ps : List Piece} {us : List Token} (hp : PiecesOf d ps us) :
    ∀ {s s' : State} {ts : List Token}, s.Has d ts → ps.foldlM (State.step d) s = .ok s' →
      s'.Has d (ts ++ us) := by
  induction hp with
  | nil =>
    intro s s' ts hs h
    cases h
    simpa using hs
  | @cons p ps us ts hp _ ih =>
    intro s s' pre hs h
    rw [List.foldlM_cons] at h
    obtain ⟨s₁, h₁, h₂⟩ := bind_eq_ok.1 h
    have hs₂ := ih (hs.step hp h₁) h₂
    rwa [List.append_assoc] at hs₂

/-- **Values**: the nodes of a value are read from all of its tokens. -/
theorem inlineReading_nodes {ts : List Token} {ns : List Node} (h : nodes d ts = .ok ns) :
    InlineReading d ts ns := by
  obtain ⟨s, hf, h⟩ := bind_eq_ok.1 h
  have hs : State.start.Has d [] := ⟨[], [], .nil, .nil, rfl⟩
  obtain ⟨outer, inner, ho, hi, ht⟩ := hs.foldlM (piecesOf_pieces ts) hf
  obtain ⟨groups, nodes⟩ := s
  cases ho with
  | nil =>
    cases h
    rw [List.nil_append] at ht
    rw [ht]
    exact hi
  | cons => cases h

end Value

/-! ## Statements -/

namespace Token

theorem reading_leaves (ts : List Token) : Reading d ts (leaves d ts) := by
  induction ts with
  | nil => exact .nil
  | cons t ts ih => exact .token .plain ih

theorem kind_ne_whitespace {t : Token} (h : t.isTrivia = false) : t.kind ≠ .whitespace := by
  intro hk
  rw [isTrivia, hk] at h
  cases h

theorem leaf_isTrivia {t : Token} (h : t.isTrivia = true) : (t.leaf d).isTrivia = true := by
  unfold isTrivia at h
  split at h <;> simp_all [Node.isTrivia, Node.is, leaf, Node.kind, Node.label, leafKind]

theorem leaves_isTrivia {ts : List Token} (h : ∀ t ∈ ts, t.isTrivia = true) :
    ∀ n ∈ leaves d ts, n.isTrivia = true := by
  intro n hn
  obtain ⟨t, ht, rfl⟩ := List.mem_map.1 hn
  exact leaf_isTrivia (h t ht)

theorem isTrivia_trimStart (ts : List Token) : ∀ t ∈ (trimStart ts).1, t.isTrivia = true :=
  fun t ht => List.all_eq_true.1 (List.all_takeWhile (l := ts) (p := isTrivia)) t ht

theorem isTrivia_trimEnd (ts : List Token) : ∀ t ∈ (trimEnd ts).2, t.isTrivia = true := by
  induction ts with
  | nil => simp [trimEnd]
  | cons t ts ih =>
    simp only [trimEnd]
    split
    · rename_i trivia h
      rw [h] at ih
      split
      · rename_i ht
        intro u hu
        rcases List.mem_cons.1 hu with rfl | hu
        · exact ht
        · exact ih u hu
      · exact ih
    · rename_i kept trivia _ h
      rw [h] at ih
      exact ih

end Token

namespace Statement

open Token

theorem cutColon?_eq {ts before behind : List Token} {colon : Token} (depth : Nat)
    (h : cutColon? depth ts = some (before, colon, behind)) :
    ts = before ++ colon :: behind ∧ colon.kind = .colon := by
  induction ts generalizing depth before with
  | nil => cases h
  | cons t ts ih =>
    simp only [cutColon?] at h
    split at h
    · rename_i hc
      cases h
      exact ⟨rfl, hc.1⟩
    · obtain ⟨⟨b, c, e⟩, hc, he⟩ := Option.map_eq_some_iff.1 h
      cases he
      obtain ⟨rfl, hk⟩ := ih _ hc
      exact ⟨rfl, hk⟩

theorem leafOf_propertyLeaf (t : Token) : t.LeafOf d (propertyLeaf d t) := by
  unfold propertyLeaf
  split
  · rename_i h
    exact .property h
  · exact .plain

theorem inline_propertyLeaf (t : Token) : (propertyLeaf d t).Inline := by
  unfold propertyLeaf
  split
  · simp [leafAs, Node.Inline, Node.kind, Node.label]
  · exact t.leaf_inline

theorem inlineReading_property (ts : List Token) :
    InlineReading d ts (ts.map (propertyLeaf d)) := by
  induction ts with
  | nil => exact .nil
  | cons t ts ih =>
    have ht : InlineReading d [t] [propertyLeaf d t] :=
      ⟨.token (leafOf_propertyLeaf t) .nil, by simpa using inline_propertyLeaf t⟩
    exact ht.append ih

/-- The children of a declaration, from its tokens and the nodes of its value. -/
def declarationChildren (d : Dialect) (property gap : List Token) (colon : Token)
    (lead : List Token) (value : List Node) : List Node :=
  .ofChildren .property d (property.map (propertyLeaf d)) ::
    (leaves d gap ++ .leaf ⟨.propertyDelimiter, d, colon.span⟩ [':'] ::
      (leaves d lead ++ [.ofChildren .value d value]))

theorem declaration_eq_ok {before behind : List Token} {colon : Token} {n : Node} :
    declaration d before colon behind = .ok n ↔
      ∃ value, Value.nodes d (trimStart behind).2 = .ok value ∧
        n = .ofChildren .declaration d (declarationChildren d (trimEnd before).1
          (trimEnd before).2 colon (trimStart behind).1 value) := by
  unfold declaration
  rw [bind_eq_ok]
  simp only [pure, Except.pure, Except.ok.injEq, declarationChildren, List.cons_append,
    List.append_assoc, eq_comm]

/-- **Declarations**: property, colon and value in their order, and nothing else. -/
theorem declarationForm {before behind : List Token} {colon : Token} {vs : List Node}
    (hv : Value.nodes d (trimStart behind).2 = .ok vs) :
    Node.DeclarationForm (declarationChildren d (trimEnd before).1 (trimEnd before).2 colon
      (trimStart behind).1 vs) (.ofChildren .property d ((trimEnd before).1.map (propertyLeaf d)))
      (leaves d (trimEnd before).2) (.leaf ⟨.propertyDelimiter, d, colon.span⟩ [':'])
      (leaves d (trimStart behind).1) (.ofChildren .value d vs) := by
  have hp := InlineReading.ofChildren (k := .property) (by decide) rfl
    (inlineReading_property (d := d) (trimEnd before).1)
  have hv' := InlineReading.ofChildren (k := .value) (by decide) rfl
    (Value.inlineReading_nodes hv)
  exact
    { children := rfl
      property_kind := rfl
      property_inline := hp.inline _ (List.mem_singleton.2 rfl)
      gap_trivia := leaves_isTrivia (isTrivia_trimEnd before)
      colon_kind := rfl
      colon_chars := by simp [Node.chars, Node.leafMarks]
      lead_trivia := leaves_isTrivia (isTrivia_trimStart behind)
      value_kind := rfl
      value_inline := hv'.inline _ (List.mem_singleton.2 rfl) }

theorem reading_declaration {before behind : List Token} {colon : Token} {n : Node}
    (hc : colon.kind = .colon) (h : declaration d before colon behind = .ok n) :
    Reading d (before ++ colon :: behind) [n] := by
  obtain ⟨vs, hv, rfl⟩ := declaration_eq_ok.1 h
  have hp := InlineReading.ofChildren (k := .property) (by decide) rfl
    (inlineReading_property (d := d) (trimEnd before).1)
  have hv' := InlineReading.ofChildren (k := .value) (by decide) rfl
    (Value.inlineReading_nodes hv)
  have hlead := (reading_leaves (d := d) (trimStart behind).1).append hv'.reading
  have hgap := (reading_leaves (d := d) (trimEnd before).2).append
    (.token (.colon hc) hlead)
  have hr := hp.reading.append hgap
  rw [trimStart_append, ← List.append_assoc, trimEnd_append] at hr
  exact Reading.ofChildren rfl ⟨rfl, rfl, fun _ => ⟨_, _, _, _, _, declarationForm hv⟩,
    fun h => absurd rfl h, fun h => by cases h⟩ hr

/-- What stands between the trivia at the ends of a statement that is no at-rule. -/
inductive Core (d : Dialect) : List Token → List Node → Prop
  | empty : Core d [] []
  | raw {core : List Token} (hne : core ≠ []) (hc : cutColon? 0 core = none) :
      Core d core [joined .raw d core]
  | declaration {core before behind : List Token} {colon : Token} {n : Node}
      (hc : cutColon? 0 core = some (before, colon, behind))
      (hn : declaration d before colon behind = .ok n) : Core d core [n]

theorem plain_eq_ok {ts : List Token} {ns : List Node} :
    plain d ts = .ok ns ↔ ∃ own, Core d (trimEnd (trimStart ts).2).1 own ∧
      ns = leaves d (trimStart ts).1 ++ (own ++ leaves d (trimEnd (trimStart ts).2).2) := by
  unfold plain
  generalize hl : trimStart ts = lr
  obtain ⟨leading, rest⟩ := lr
  generalize hc : trimEnd rest = ct
  obtain ⟨core, trailing⟩ := ct
  simp only [hc]
  constructor
  · intro h
    split at h
    · cases h
      exact ⟨[], .empty, by simp⟩
    · rename_i hne
      split at h
      · rename_i hcut
        cases h
        exact ⟨_, .raw (fun h => hne h) hcut, by simp⟩
      · rename_i before colon behind hcut
        obtain ⟨n, hn, h⟩ := bind_eq_ok.1 h
        cases h
        exact ⟨_, .declaration hcut hn, by simp⟩
  · rintro ⟨own, hown, rfl⟩
    cases hown with
    | empty => simp [bind, Except.bind, pure, Except.pure]
    | raw hne hcut =>
      cases core with
      | nil => exact absurd rfl hne
      | cons t ts => simp [hcut, bind, Except.bind, pure, Except.pure]
    | declaration hcut hn =>
      cases core with
      | nil => cases hcut
      | cons t ts => simp [hcut, hn, bind, Except.bind, pure, Except.pure]

/-- **Statements that no block ends**, one case for each form. -/
inductive Plain (d : Dialect) : List Token → List Node → Prop
  | none : Plain d [] []
  | atrule {keyword : Token} {params : List Token} {value : List Node}
      (hk : keyword.kind = .atKeyword) (hl : isLessVariable d params = false)
      (hv : Value.nodes d (trimEnd params).1 = .ok value) :
      Plain d (keyword :: params)
        (.ofChildren .atrule d (keyword.leaf d :: value) :: leaves d (trimEnd params).2)
  | other {t : Token} {ts : List Token} {own : List Node}
      (hk : ¬(t.kind = .atKeyword ∧ isLessVariable d ts = false))
      (hc : Core d (trimEnd (trimStart (t :: ts)).2).1 own) :
      Plain d (t :: ts) (leaves d (trimStart (t :: ts)).1 ++
        (own ++ leaves d (trimEnd (trimStart (t :: ts)).2).2))

theorem withoutBlock_eq_ok {head : List Token} {own : List Node} :
    withoutBlock d head = .ok own ↔ Plain d head own := by
  unfold withoutBlock
  cases head with
  | nil =>
    constructor
    · intro h; cases h; exact .none
    · intro h; cases h; rfl
  | cons t ts =>
    dsimp only
    split
    · rename_i hk
      unfold plainAtrule
      constructor
      · intro h
        obtain ⟨value, hv, h⟩ := bind_eq_ok.1 h
        cases h
        exact .atrule hk.1 hk.2 hv
      · intro h
        cases h with
        | atrule _ _ hv => simp [hv, bind, Except.bind, pure, Except.pure]
        | other hn => exact absurd hk hn
    · rename_i hk
      rw [plain_eq_ok]
      constructor
      · rintro ⟨own, ho, rfl⟩
        exact .other hk ho
      · intro h
        cases h with
        | atrule hk' hl => exact absurd ⟨hk', hl⟩ hk
        | other _ hc => exact ⟨_, hc, rfl⟩

/-- **Statements that end in a block.** -/
inductive Opener (d : Dialect) (block : Node) : List Token → Node → Prop
  | ruleset {head : List Token} (hk : ∀ t ∈ head.head?, t.kind ≠ .atKeyword) :
      Opener d block head (ruleset d head block)
  | atrule {keyword : Token} {params : List Token} {value : List Node}
      (hk : keyword.kind = .atKeyword) (hv : Value.nodes d (trimEnd params).1 = .ok value) :
      Opener d block (keyword :: params) (.ofChildren .atrule d
        (keyword.leaf d :: (value ++ (leaves d (trimEnd params).2 ++ [block]))))

theorem withBlock_eq_ok {head : List Token} {block n : Node} :
    withBlock d head block = .ok n ↔ Opener d block head n := by
  unfold withBlock
  cases head with
  | nil =>
    constructor
    · intro h; cases h; exact .ruleset (by simp)
    · intro h; cases h; rfl
  | cons t ts =>
    dsimp only
    split
    · rename_i hk
      unfold blockAtrule
      constructor
      · intro h
        obtain ⟨value, hv, h⟩ := bind_eq_ok.1 h
        cases h
        simpa using Opener.atrule hk hv
      · intro h
        cases h with
        | atrule _ hv => simp [hv, bind, Except.bind, pure, Except.pure]
        | ruleset hn => exact absurd hk (hn t rfl)
    · rename_i hk
      constructor
      · intro h
        cases h
        exact .ruleset (by simpa using hk)
      · intro h
        cases h with
        | atrule hk' => exact absurd hk' hk
        | ruleset => rfl

theorem Core.reading {core : List Token} {own : List Node} (h : Core d core own) :
    Reading d core own := by
  cases h with
  | empty => exact .nil
  | raw hne hc =>
    have hr : Reading d (core ++ []) [joined .raw d core] := .run (.inl rfl) hne .nil
    simpa using hr
  | declaration hc hn =>
    obtain ⟨rfl, hk⟩ := cutColon?_eq 0 hc
    exact reading_declaration hk hn

theorem reading_atrule (keyword : Token) {params ts : List Token} {value cs : List Node}
    (hv : Value.nodes d params = .ok value) (hr : Reading d ts cs)
    (hc : ∀ c ∈ cs, c.kind ≠ .propertyDelimiter) :
    Reading d (keyword :: (params ++ ts))
      [.ofChildren .atrule d (keyword.leaf d :: (value ++ cs))] := by
  have hi := Value.inlineReading_nodes hv
  refine Reading.ofChildren rfl (Node.sound_ofChildren rfl (by decide) (by decide) fun c hm => ?_)
    (.token .plain (hi.reading.append hr))
  rcases List.mem_cons.1 hm with rfl | hm
  · exact keyword.leafKind_ne_propertyDelimiter
  rcases List.mem_append.1 hm with hm | hm
  · exact hi.kind_ne c hm
  · exact hc c hm

/-- A statement without a block is read from all of its tokens. -/
theorem Plain.reading {head : List Token} {own : List Node} (h : Plain d head own) :
    Reading d head own := by
  cases h with
  | none => exact .nil
  | @atrule keyword params value hk hl hv =>
    have ha := reading_atrule keyword hv .nil (by simp)
    have hr := ha.append (reading_leaves (d := d) (trimEnd params).2)
    simpa [trimEnd_append] using hr
  | @other t ts own hk hc =>
    have hr := (reading_leaves (d := d) (trimStart (t :: ts)).1).append
      (hc.reading.append (reading_leaves (d := d) (trimEnd (trimStart (t :: ts)).2).2))
    rwa [trimEnd_append, trimStart_append] at hr

theorem leaves_kind_ne (ts : List Token) : ∀ c ∈ leaves d ts, c.kind ≠ .propertyDelimiter := by
  intro c hc
  obtain ⟨t, -, rfl⟩ := List.mem_map.1 hc
  exact t.leafKind_ne_propertyDelimiter

/-- A statement with its block is read from its tokens and those of the block. -/
theorem Opener.reading {head ts : List Token} {block n : Node} (h : Opener d block head n)
    (hb : Reading d ts [block]) (hk : block.kind = .block) : Reading d (head ++ ts) [n] := by
  cases h with
  | ruleset =>
    have hs : Reading d (trimEnd head).1
        [.ofChildren .selector d (leaves d (trimEnd head).1)] :=
      Reading.ofChildren rfl (Node.sound_ofChildren rfl (by decide) (by decide)
        (leaves_kind_ne _)) (reading_leaves _)
    have hr := (hs.append (reading_leaves (d := d) (trimEnd head).2)).append hb
    rw [trimEnd_append] at hr
    refine Reading.ofChildren rfl (Node.sound_ofChildren rfl (by decide) (by decide)
      fun c hm => ?_) hr
    rcases List.mem_append.1 hm with hm | hm
    · rcases List.mem_cons.1 hm with rfl | hm
      · exact Kind.noConfusion
      · exact leaves_kind_ne _ c hm
    · rw [List.mem_singleton.1 hm, hk]
      decide
  | @atrule keyword params value hk' hv =>
    have hr := (reading_leaves (d := d) (trimEnd params).2).append hb
    have ha := reading_atrule keyword hv hr (fun c hm => by
      rcases List.mem_append.1 hm with hm | hm
      · exact leaves_kind_ne _ c hm
      · rw [List.mem_singleton.1 hm, hk]
        decide)
    rw [← List.append_assoc, trimEnd_append] at ha
    exact ha

theorem Core.kind_mem {core : List Token} {own : List Node} (h : Core d core own) :
    ∀ n ∈ own, n.kind = .raw ∨ n.kind = .declaration := by
  intro n hn
  cases h with
  | empty => cases hn
  | raw =>
    rw [List.mem_singleton.1 hn]
    exact .inl rfl
  | declaration _ hd =>
    obtain ⟨value, -, rfl⟩ := declaration_eq_ok.1 hd
    rw [List.mem_singleton.1 hn]
    exact .inr rfl

theorem Core.kind_ne {core : List Token} {own : List Node} (h : Core d core own) {k : Kind}
    (hk : k ≠ .raw ∧ k ≠ .declaration) : ∀ n ∈ own, n.kind ≠ k := by
  rintro n hn rfl
  exact (h.kind_mem n hn).elim hk.1 hk.2

theorem Plain.kind_ne {head : List Token} {own : List Node} (h : Plain d head own) :
    ∀ n ∈ own, n.kind ≠ .propertyDelimiter := by
  intro n hn
  cases h with
  | none => cases hn
  | atrule =>
    rcases List.mem_cons.1 hn with rfl | hn
    · exact Kind.noConfusion
    · exact leaves_kind_ne _ n hn
  | other hk hc =>
    rcases List.mem_append.1 hn with hn | hn
    · exact leaves_kind_ne _ n hn
    rcases List.mem_append.1 hn with hn | hn
    · exact hc.kind_ne (by decide) n hn
    · exact leaves_kind_ne _ n hn

theorem Opener.kind_mem {head : List Token} {block n : Node} (h : Opener d block head n) :
    n.kind = .ruleset ∨ n.kind = .atrule := by
  cases h with
  | ruleset => exact .inl rfl
  | atrule => exact .inr rfl

/-! ## Statements without a block hold none -/

theorem no_block_inline {ns : List Node} (h : ∀ n ∈ ns, n.Inline) :
    Node.AllOf (fun m => m.kind ≠ .block) ns :=
  (Node.allOf_iff ns).2 fun n hn => Node.All.imp (fun _ hm => hm.1) n (h n hn)

theorem leaves_inline (ts : List Token) : ∀ n ∈ leaves d ts, n.Inline := by
  intro n hn
  obtain ⟨t, -, rfl⟩ := List.mem_map.1 hn
  exact t.leaf_inline

theorem Core.no_block {core : List Token} {own : List Node} (h : Core d core own) :
    Node.AllOf (fun m => m.kind ≠ .block) own := by
  cases h with
  | empty => exact Node.allOf_nil
  | raw => exact (Node.allOf_cons _ _).2 ⟨(Node.all_leaf _ _).2 Kind.noConfusion, Node.allOf_nil⟩
  | declaration _ hn =>
    obtain ⟨value, hv, rfl⟩ := declaration_eq_ok.1 hn
    have hvalue := no_block_inline (Value.inlineReading_nodes hv).inline
    have hproperty := fun ts => no_block_inline (inlineReading_property (d := d) ts).inline
    have hleaves := fun ts => no_block_inline (leaves_inline (d := d) ts)
    simp only [declarationChildren, Node.ofChildren, Node.allOf_cons, Node.allOf_append,
      Node.allOf_nil, Node.all_branch, Node.all_leaf, hvalue, hproperty, hleaves, and_true, true_and]
    exact ⟨Kind.noConfusion, Kind.noConfusion, Kind.noConfusion, Kind.noConfusion⟩

theorem Plain.no_block {head : List Token} {own : List Node} (h : Plain d head own) :
    Node.AllOf (fun m => m.kind ≠ .block) own := by
  have hleaves := fun ts => no_block_inline (leaves_inline (d := d) ts)
  cases h with
  | none => exact Node.allOf_nil
  | @atrule keyword params value _ _ hv =>
    have hkeyword := no_block_inline (leaves_inline (d := d) [keyword])
    have hvalue := no_block_inline (Value.inlineReading_nodes hv).inline
    rw [Node.allOf_cons, Node.ofChildren, Node.all_branch]
    exact ⟨⟨Kind.noConfusion, (Node.allOf_append [keyword.leaf d] value).2 ⟨hkeyword, hvalue⟩⟩,
      hleaves _⟩
  | other _ hc =>
    simp only [Node.allOf_append]
    exact ⟨hleaves _, hc.no_block, hleaves _⟩

/-! ## Declarations and delimiters -/

theorem separated_cons_trivia {n : Node} {ns : List Node} {seen : Bool} (h : n.isTrivia = true) :
    Node.Separated seen (n :: ns) ↔ Node.Separated seen ns := by
  simp only [Node.isTrivia, Node.is, Bool.or_eq_true, beq_iff_eq] at h
  rcases h with (h | h) | h <;> simp [Node.Separated, h]

theorem separated_trivia_append {ms ns : List Node} {seen : Bool}
    (h : ∀ n ∈ ms, n.isTrivia = true) :
    Node.Separated seen (ms ++ ns) ↔ Node.Separated seen ns := by
  induction ms with
  | nil => rfl
  | cons m ms ih =>
    rw [List.cons_append, separated_cons_trivia (h m (by simp))]
    exact ih fun n hn => h n (by simp [hn])

/-- Nodes may follow a separated list if they are separated whatever stands before them. -/
theorem separated_append {ms ns : List Node} {seen : Bool} (hm : Node.Separated seen ms)
    (hn : ∀ seen, Node.Separated seen ns) : Node.Separated seen (ms ++ ns) := by
  induction ms generalizing seen with
  | nil => exact hn seen
  | cons m ms ih =>
    simp only [List.cons_append, Node.Separated] at hm ⊢
    split
    · rename_i hk
      rw [hk] at hm
      exact ih hm
    · rename_i hk
      rw [hk] at hm
      exact ⟨hm.1, ih hm.2⟩
    · split at hm
      · contradiction
      · contradiction
      · exact ih hm

theorem separated_delimiter {n : Node} {ns : List Node} (hn : n.kind = .declarationDelimiter)
    (hs : Node.Separated false ns) (seen : Bool) : Node.Separated seen (n :: ns) := by
  simpa [Node.Separated, hn] using hs

theorem separated_of_trivia {ns : List Node} (h : ∀ n ∈ ns, n.isTrivia = true) (seen : Bool) :
    Node.Separated seen ns := by
  have ht : Node.Separated seen (ns ++ []) := (separated_trivia_append h).2 trivial
  simpa using ht

theorem Core.separated {core : List Token} {own : List Node} (h : Core d core own) :
    Node.Separated false own := by
  cases h with
  | empty => trivial
  | raw => trivial
  | declaration hc hn =>
    obtain ⟨value, -, rfl⟩ := declaration_eq_ok.1 hn
    exact ⟨rfl, trivial⟩

theorem Plain.separated {head : List Token} {own : List Node} (h : Plain d head own) :
    Node.Separated false own := by
  cases h with
  | none => trivial
  | @atrule keyword params value =>
    exact separated_of_trivia (leaves_isTrivia (isTrivia_trimEnd params)) false
  | @other t ts own hk hc =>
    refine (separated_trivia_append (leaves_isTrivia (isTrivia_trimStart (t :: ts)))).2 ?_
    exact separated_append hc.separated fun seen =>
      separated_of_trivia (leaves_isTrivia (isTrivia_trimEnd _)) seen

end Statement

end TidySheet
