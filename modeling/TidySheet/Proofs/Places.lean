import TidySheet.Proofs.Lossless

/-!
# Reading does not depend on places

The places of tokens go into the labels of nodes and into error messages, and nowhere else. So
forgetting all places before reading is the same as forgetting them behind it.

* `Node.unplace` — a tree as no source text holds it; `chars_unplace` — it prints the same;
* `Value.nodes_unplace`, `Statement.withoutBlock_unplace`, `Statement.withBlock_unplace` — values
  and statements are read alike without places;
* `sheetNodes_unplace` — so are whole sheets.
-/

set_option autoImplicit false

namespace TidySheet

/-! ## Forgetting places -/

/-- The token as no source text holds it. -/
def Token.unplace (t : Token) : Token := { t with span := .unplaced }

@[simp] theorem Token.kind_unplace (t : Token) : t.unplace.kind = t.kind := rfl

@[simp] theorem Token.text_unplace (t : Token) : t.unplace.text = t.text := rfl

@[simp] theorem Token.isTrivia_unplace (t : Token) : t.unplace.isTrivia = t.isTrivia := rfl

@[simp] theorem Token.textOf_unplace (ts : List Token) :
    Token.textOf (ts.map unplace) = Token.textOf ts := by
  simp [Token.textOf, List.flatMap_map]

def Label.unplace (l : Label) : Label := { l with span := .unplaced }

namespace Node

mutual

/-- The tree as no source text holds it. -/
def unplace : Node → Node
  | .leaf l t => .leaf l.unplace t
  | .branch l cs => .branch l.unplace (unplaceAll cs)

def unplaceAll : List Node → List Node
  | [] => []
  | n :: ns => unplace n :: unplaceAll ns

end

theorem unplaceAll_eq_map (ns : List Node) : unplaceAll ns = ns.map unplace := by
  induction ns with
  | nil => simp only [unplaceAll, List.map_nil]
  | cons n ns ih => simp only [unplaceAll, List.map_cons, ih]

@[simp] theorem unplace_leaf (l : Label) (t : List Char) :
    (Node.leaf l t).unplace = .leaf l.unplace t := by
  simp only [unplace]

@[simp] theorem unplace_branch (l : Label) (cs : List Node) :
    (Node.branch l cs).unplace = .branch l.unplace (cs.map unplace) := by
  simp only [unplace, unplaceAll_eq_map]

@[simp] theorem kind_unplace (n : Node) : n.unplace.kind = n.kind := by
  cases n <;> simp [kind, label, Label.unplace]

@[simp] theorem is_unplace (n : Node) (k : Kind) : n.unplace.is k = n.is k := by
  rw [is, is, kind_unplace]

@[simp] theorem dialect_unplace (n : Node) : n.unplace.dialect = n.dialect := by
  cases n <;> simp [dialect, label, Label.unplace]

@[simp] theorem span_unplace (n : Node) : n.unplace.span = .unplaced := by
  cases n <;> simp [span, label, Label.unplace]

@[simp] theorem children_unplace (n : Node) : n.unplace.children = n.children.map unplace := by
  cases n <;> simp [children]

@[simp] theorem text?_unplace (n : Node) : n.unplace.text? = n.text? := by
  cases n <;> simp [text?]

mutual

/-- Places are not printed. -/
@[simp] theorem chars_unplace : ∀ n : Node, n.unplace.chars = n.chars
  | .leaf l t => by simp [chars, Label.unplace]
  | .branch l cs => by
    rw [unplace_branch, chars, chars, charsOf_unplace cs]
    rfl

@[simp] theorem charsOf_unplace : ∀ ns : List Node, charsOf (ns.map unplace) = charsOf ns
  | [] => rfl
  | n :: ns => by simp [chars_unplace n, charsOf_unplace ns]

end

@[simp] theorem spanOf_unplace (ns : List Node) : spanOf (ns.map unplace) = .unplaced := by
  have hfirst : ∀ o : Option Node, ((o.map unplace).map fun n => n.span.first).getD .unplaced =
      Position.unplaced := by
    intro o
    cases o <;> simp [Span.unplaced]
  have hlast : ∀ o : Option Node, ((o.map unplace).map fun n => n.span.last).getD .unplaced =
      Position.unplaced := by
    intro o
    cases o <;> simp [Span.unplaced]
  rw [spanOf, List.head?_map, List.getLast?_map, hfirst, hlast]
  rfl

@[simp] theorem unplace_ofChildren (k : Kind) (d : Dialect) (cs : List Node) :
    (ofChildren k d cs).unplace = ofChildren k d (cs.map unplace) := by
  rw [ofChildren, ofChildren, unplace_branch, spanOf_unplace]
  rfl

end Node

namespace Token

variable {d : Dialect}

@[simp] theorem unplace_leaf (t : Token) : (t.leaf d).unplace = t.unplace.leaf d := by
  rw [leaf, Node.unplace_leaf]
  rfl

@[simp] theorem unplace_leaves (ts : List Token) :
    (leaves d ts).map Node.unplace = leaves d (ts.map unplace) := by
  simp [leaves]

theorem spanOf_unplace (ts : List Token) : spanOf (ts.map unplace) = .unplaced := by
  have hfirst : ∀ o : Option Token, ((o.map unplace).map fun t => t.span.first).getD .unplaced =
      Position.unplaced := by
    intro o
    cases o <;> rfl
  have hlast : ∀ o : Option Token, ((o.map unplace).map fun t => t.span.last).getD .unplaced =
      Position.unplaced := by
    intro o
    cases o <;> rfl
  rw [spanOf, List.head?_map, List.getLast?_map, hfirst, hlast]
  rfl

@[simp] theorem unplace_joined (k : Kind) (ts : List Token) :
    (joined k d ts).unplace = joined k d (ts.map unplace) := by
  rw [joined, joined, Node.unplace_leaf, spanOf_unplace, textOf_unplace]
  rfl

@[simp] theorem trimStart_unplace (ts : List Token) :
    trimStart (ts.map unplace) = ((trimStart ts).1.map unplace, (trimStart ts).2.map unplace) := by
  have hp : isTrivia ∘ unplace = isTrivia := rfl
  simp only [trimStart, List.takeWhile_map, List.dropWhile_map, hp]

@[simp] theorem trimEnd_unplace (ts : List Token) :
    trimEnd (ts.map unplace) = ((trimEnd ts).1.map unplace, (trimEnd ts).2.map unplace) := by
  induction ts with
  | nil => rfl
  | cons t ts ih =>
    rw [List.map_cons, trimEnd, trimEnd, ih]
    generalize trimEnd ts = cut
    obtain ⟨kept, trivia⟩ := cut
    cases kept with
    | nil =>
      cases ht : t.isTrivia <;> simp [ht]
    | cons u kept => rfl

end Token

/-! ## Results without their errors -/

theorem toOption_bind {ε α β : Type} (x : Except ε α) (f : α → Except ε β) :
    (x >>= f).toOption = x.toOption.bind fun a => (f a).toOption := by
  cases x <;> rfl

/-- A run of steps goes along with a map of states that every step goes along with. -/
theorem toOption_foldlM {ε α σ τ β : Type} {f : σ → α → Except ε σ} {g : τ → β → Except ε τ}
    {φ : σ → τ} {ψ : α → β} (h : ∀ s a, (g (φ s) (ψ a)).toOption = (f s a).toOption.map φ)
    (as : List α) (s : σ) :
    ((as.map ψ).foldlM g (φ s)).toOption = (as.foldlM f s).toOption.map φ := by
  induction as generalizing s with
  | nil => rfl
  | cons a as ih =>
    rw [List.map_cons, List.foldlM_cons, List.foldlM_cons, toOption_bind, toOption_bind, h]
    cases f s a with
    | error e => rfl
    | ok s' => exact ih s'

/-! ## Values -/

namespace Value

variable {d : Dialect}

def Piece.unplace : Piece → Piece
  | .leaf n => .leaf n.unplace
  | .opening name paren => .opening (name.map Token.unplace) paren.unplace
  | .closing paren => .closing paren.unplace

theorem isImportantWord_unplace (t : Token) : t.unplace.isImportantWord = t.isImportantWord := rfl

theorem pieces_unplace (ts : List Token) :
    pieces d (ts.map Token.unplace) = (pieces d ts).map Piece.unplace := by
  fun_induction pieces d ts with
  | case1 => rfl
  | _ =>
    rw [List.map_cons, pieces.eq_def]
    simp_all [Piece.unplace, isImportantWord_unplace]

def Group.unplace (g : Group) : Group :=
  ⟨g.name.map Token.unplace, g.paren.unplace, g.before.map Node.unplace⟩

def State.unplace (s : State) : State := ⟨s.groups.map Group.unplace, s.nodes.map Node.unplace⟩

theorem Group.close_unplace (g : Group) (inner : List Node) (paren : Token) :
    (g.close d inner paren).unplace =
      g.unplace.close d (inner.map Node.unplace) paren.unplace := by
  unfold Group.close Group.unplace
  cases g.name with
  | none => simp [Label.unplace]; rfl
  | some name => simp [Label.unplace]; rfl

theorem State.step_unplace (s : State) (p : Piece) :
    (s.unplace.step d p.unplace).toOption = (s.step d p).toOption.map State.unplace := by
  cases p with
  | leaf n => rfl
  | opening name paren => rfl
  | closing paren =>
    obtain ⟨groups, nodes⟩ := s
    cases groups with
    | nil => rfl
    | cons g gs =>
      simp [State.unplace, Piece.unplace, State.step, Group.close_unplace, Except.toOption]
      rfl

/-- **Values** are read alike without places. -/
theorem nodes_unplace (ts : List Token) :
    (nodes d (ts.map Token.unplace)).toOption =
      (nodes d ts).toOption.map (List.map Node.unplace) := by
  have hrun := toOption_foldlM (State.step_unplace (d := d)) (pieces d ts) .start
  rw [nodes, nodes, toOption_bind, toOption_bind, pieces_unplace]
  change (((pieces d ts).map Piece.unplace).foldlM (State.step d) .start).toOption = _ at hrun
  rw [hrun]
  cases (pieces d ts).foldlM (State.step d) .start with
  | error e => rfl
  | ok s =>
    obtain ⟨groups, nodes⟩ := s
    cases groups with
    | nil => simp [State.unplace, State.finish, Except.toOption]
    | cons g gs => rfl

end Value

/-! ## Statements -/

namespace Statement

open Token

variable {d : Dialect}

theorem cutColon?_unplace (depth : Nat) (ts : List Token) :
    cutColon? depth (ts.map unplace) =
      (cutColon? depth ts).map fun (before, colon, behind) =>
        (before.map unplace, colon.unplace, behind.map unplace) := by
  induction ts generalizing depth with
  | nil => rfl
  | cons t ts ih =>
    rw [List.map_cons, cutColon?, cutColon?, kind_unplace]
    split
    · rfl
    · dsimp only
      rw [ih, Option.map_map, Option.map_map]
      rfl

theorem propertyLeaf_unplace (t : Token) :
    (propertyLeaf d t).unplace = propertyLeaf d t.unplace := by
  unfold propertyLeaf
  rw [kind_unplace]
  split
  · rw [leafAs, Node.unplace_leaf]
    rfl
  · rw [Token.unplace_leaf]

theorem isLessVariable_unplace (ts : List Token) :
    isLessVariable d (ts.map unplace) = isLessVariable d ts := by
  have hp : (fun t : Token => t.kind != .whitespace) ∘ unplace = fun t => t.kind != .whitespace :=
    rfl
  rw [isLessVariable, isLessVariable, List.find?_map, hp, Option.any_map]
  rfl

theorem declaration_unplace (before : List Token) (colon : Token) (behind : List Token) :
    (declaration d (before.map unplace) colon.unplace (behind.map unplace)).toOption =
      (declaration d before colon behind).toOption.map Node.unplace := by
  unfold declaration
  simp only [trimEnd_unplace, trimStart_unplace, toOption_bind, Value.nodes_unplace]
  cases Value.nodes d (trimStart behind).2 with
  | error e => rfl
  | ok value =>
    have hproperty : (propertyLeaf d ∘ unplace) = Node.unplace ∘ propertyLeaf d :=
      funext fun t => (propertyLeaf_unplace t).symm
    simp only [Except.toOption, Option.map_some, Option.bind_some, pure, Except.pure,
      Node.unplace_ofChildren, List.map_cons, List.map_append, List.map_map, unplace_leaves,
      Node.unplace_leaf, hproperty, List.map_nil]
    rfl

theorem plain_unplace (ts : List Token) :
    (plain d (ts.map unplace)).toOption = (plain d ts).toOption.map (List.map Node.unplace) := by
  unfold plain
  simp only [trimStart_unplace, trimEnd_unplace]
  generalize (trimEnd (trimStart ts).2).1 = core
  cases core with
  | nil =>
    show some _ = some _
    simp only [List.map_append, List.map_nil, unplace_leaves]
  | cons t core =>
    rw [List.map_cons]
    dsimp only
    rw [← List.map_cons, cutColon?_unplace]
    cases cutColon? 0 (t :: core) with
    | none =>
      show some _ = some _
      simp only [List.map_append, List.map_cons, List.map_nil, unplace_leaves, unplace_joined]
    | some cut =>
      obtain ⟨before, colon, behind⟩ := cut
      simp only [Option.map_some, toOption_bind, declaration_unplace]
      cases declaration d before colon behind with
      | error e => rfl
      | ok n =>
        simp only [pure, Except.pure, Except.toOption, Option.map_some, Option.bind_some,
          List.map_append, List.map_cons, List.map_nil, unplace_leaves]

/-- **Statements without a block** are read alike without places. -/
theorem withoutBlock_unplace (head : List Token) :
    (withoutBlock d (head.map unplace)).toOption =
      (withoutBlock d head).toOption.map (List.map Node.unplace) := by
  unfold withoutBlock
  cases head with
  | nil => rfl
  | cons t ts =>
    rw [List.map_cons]
    dsimp only
    rw [kind_unplace, isLessVariable_unplace]
    split
    · unfold plainAtrule
      simp only [trimEnd_unplace, toOption_bind, Value.nodes_unplace]
      cases Value.nodes d (trimEnd ts).1 with
      | error e => rfl
      | ok value =>
        simp only [pure, Except.pure, Except.toOption, Option.map_some, Option.bind_some,
          List.map_cons, Node.unplace_ofChildren, Token.unplace_leaf, unplace_leaves]
    · rw [← List.map_cons, plain_unplace]

theorem ruleset_unplace (head : List Token) (block : Node) :
    (ruleset d head block).unplace = ruleset d (head.map unplace) block.unplace := by
  unfold ruleset
  simp only [trimEnd_unplace, Node.unplace_ofChildren, List.map_append, List.map_cons,
    List.map_nil, unplace_leaves]

/-- **Statements with a block** are read alike without places. -/
theorem withBlock_unplace (head : List Token) (block : Node) :
    (withBlock d (head.map unplace) block.unplace).toOption =
      (withBlock d head block).toOption.map Node.unplace := by
  unfold withBlock
  cases head with
  | nil => simp only [List.map_nil, Except.toOption, Option.map_some, ruleset_unplace]
  | cons t ts =>
    rw [List.map_cons]
    dsimp only
    rw [kind_unplace]
    split
    · unfold blockAtrule
      simp only [trimEnd_unplace, toOption_bind, Value.nodes_unplace]
      cases Value.nodes d (trimEnd ts).1 with
      | error e => rfl
      | ok value =>
        simp only [pure, Except.pure, Except.toOption, Option.map_some, Option.bind_some,
          List.map_cons, List.map_append, List.map_nil, Node.unplace_ofChildren,
          Token.unplace_leaf, unplace_leaves]
    · rw [← List.map_cons]
      simp only [Except.toOption, Option.map_some, ruleset_unplace]

end Statement

/-! ## Between braces -/

namespace Braces

open Token

variable {d : Dialect}

def OpenBlock.unplace (b : OpenBlock) : OpenBlock :=
  ⟨b.head.map Token.unplace, b.brace.unplace, b.before.map Node.unplace⟩

def Reader.unplace (r : Reader) : Reader :=
  ⟨r.blocks.map OpenBlock.unplace, r.nodes.map Node.unplace, r.head.map Token.unplace, r.depth⟩

namespace Reader

theorem endStatement_unplace (r : Reader) :
    (r.unplace.endStatement d).toOption = (r.endStatement d).toOption.map unplace := by
  unfold endStatement
  simp only [toOption_bind, unplace]
  rw [← List.map_reverse, Statement.withoutBlock_unplace]
  cases Statement.withoutBlock d r.head.reverse with
  | error e => rfl
  | ok ns => simp [pure, Except.pure, Except.toOption, unplace]

theorem closeBlock_unplace (r : Reader) (t : Token) :
    (r.unplace.closeBlock d t.unplace).toOption = (r.closeBlock d t).toOption.map unplace := by
  obtain ⟨blocks, nodes, head, depth⟩ := r
  cases blocks with
  | nil => rfl
  | cons b bs =>
    simp only [closeBlock, unplace, List.map_cons, toOption_bind]
    have hblock : Node.branch ⟨.block, d, ⟨b.unplace.brace.span.first, t.unplace.span.last⟩⟩
        (nodes.map Node.unplace).reverse =
          (Node.branch ⟨.block, d, ⟨b.brace.span.first, t.span.last⟩⟩ nodes.reverse).unplace := by
      rw [Node.unplace_branch, List.map_reverse]
      rfl
    rw [hblock]
    show ((Statement.withBlock d (b.head.map Token.unplace) _).toOption.bind _) = _
    rw [Statement.withBlock_unplace]
    cases Statement.withBlock d b.head (.branch ⟨.block, d, ⟨b.brace.span.first, t.span.last⟩⟩
      nodes.reverse) with
    | error e => rfl
    | ok n => rfl

theorem step_unplace (r : Reader) (t : Token) :
    (step d r.unplace t.unplace).toOption = (step d r t).toOption.map unplace := by
  have hend := r.endStatement_unplace (d := d)
  have hgrow : (r.grow t).unplace = r.unplace.grow t.unplace := rfl
  have hadd : ∀ r : Reader, (r.add (t.leaf d)).unplace = r.unplace.add (t.unplace.leaf d) := by
    intro r
    rw [add, add, unplace, List.map_cons, Token.unplace_leaf]
    rfl
  have hopen : (r.openBlock t).unplace = r.unplace.openBlock t.unplace := by
    simp [openBlock, unplace, OpenBlock.unplace]
  have hempty : (r.unplace.head.isEmpty && t.unplace.isTrivia) = (r.head.isEmpty && t.isTrivia) := by
    simp [unplace]
  unfold step
  rw [kind_unplace]
  show Except.toOption (if r.depth = 0 then _ else _) = _
  split
  · split
    · rw [← hopen]
      rfl
    · rw [toOption_bind, toOption_bind, hend]
      cases r.endStatement d with
      | error e => rfl
      | ok r' => simp [pure, Except.pure, Except.toOption, hadd]
    · rw [toOption_bind, toOption_bind, hend]
      cases r.endStatement d with
      | error e => rfl
      | ok r' => exact r'.closeBlock_unplace t
    · rw [hempty]
      split
      · rw [← hadd]
        rfl
      · rw [← hgrow]
        rfl
  · rw [← hgrow]
    rfl

theorem finish_unplace (r : Reader) :
    (r.unplace.finish d).toOption = (r.finish d).toOption.map (List.map Node.unplace) := by
  unfold finish
  rw [toOption_bind, toOption_bind, r.endStatement_unplace]
  cases r.endStatement d with
  | error e => rfl
  | ok r' =>
    obtain ⟨blocks, nodes, head, depth⟩ := r'
    cases blocks with
    | nil => simp [unplace, pure, Except.pure, Except.toOption]
    | cons b bs => rfl

end Reader

theorem nodes_unplace (ts : List Token) :
    (nodes d (ts.map Token.unplace)).toOption =
      (nodes d ts).toOption.map (List.map Node.unplace) := by
  have hrun := toOption_foldlM (Reader.step_unplace (d := d)) ts .start
  change ((ts.map Token.unplace).foldlM (Reader.step d) .start).toOption = _ at hrun
  rw [nodes, nodes, toOption_bind, toOption_bind, hrun]
  cases ts.foldlM (Reader.step d) .start with
  | error e => rfl
  | ok r => exact r.finish_unplace

end Braces

/-! ## Lines -/

namespace Lines

open Token

def Line.unplace (l : Line) : Line :=
  ⟨l.newline.map Token.unplace, l.indent.map Token.unplace, l.body.map Token.unplace⟩

theorem ofTokens_unplace (newline : Option Token) (ts : List Token) :
    Line.ofTokens (newline.map Token.unplace) (ts.map Token.unplace) =
      (Line.ofTokens newline ts).unplace := by
  cases ts with
  | nil => rfl
  | cons t ts =>
    rw [List.map_cons, Line.ofTokens, Line.ofTokens, kind_unplace]
    split <;> rfl

theorem cut_unplace (newline : Option Token) (line ts : List Token) :
    cut (newline.map Token.unplace) (line.map Token.unplace) (ts.map Token.unplace) =
      (cut newline line ts).map Line.unplace := by
  induction ts generalizing newline line with
  | nil => simp [cut, ← List.map_reverse, ofTokens_unplace]
  | cons t ts ih =>
    rw [List.map_cons, cut, cut, kind_unplace]
    split
    · rw [← List.map_reverse, ofTokens_unplace, List.map_cons, ← ih (some t) []]
      rfl
    · rw [← List.map_cons, ih]

@[simp] theorem isBlank_unplace (l : Line) : l.unplace.isBlank = l.isBlank := by
  simp [Line.isBlank, Line.unplace]

@[simp] theorem width_unplace (l : Line) : l.unplace.width = l.width := by
  obtain ⟨newline, indent, body⟩ := l
  cases indent <;> rfl

@[simp] theorem startsWithComment_unplace (l : Line) :
    l.unplace.startsWithComment = l.startsWithComment := by
  obtain ⟨newline, indent, body⟩ := l
  cases body <;> rfl

theorem lead_unplace (l : Line) : l.unplace.lead = l.lead.map Node.unplace := by
  obtain ⟨newline, indent, body⟩ := l
  cases newline <;> cases indent <;> simp [Line.lead, Line.unplace, leafAs, Label.unplace,
    Token.unplace]

theorem cutNested_unplace (width : Nat) (ls : List Line) :
    cutNested width (ls.map Line.unplace) =
      ((cutNested width ls).1.map Line.unplace, (cutNested width ls).2.map Line.unplace) := by
  induction ls with
  | nil => rfl
  | cons l ls ih =>
    rw [List.map_cons, cutNested, cutNested, isBlank_unplace, width_unplace, ih]
    split
    · generalize cutNested width ls = both
      obtain ⟨inner, outer⟩ := both
      cases inner <;> rfl
    · split <;> rfl

theorem cutBlock_unplace (l : Line) (ls : List Line) :
    cutBlock l.unplace (ls.map Line.unplace) =
      ((cutBlock l ls).1.map Line.unplace, (cutBlock l ls).2.map Line.unplace) := by
  rw [cutBlock, cutBlock, startsWithComment_unplace, width_unplace]
  split
  · rfl
  · exact cutNested_unplace l.width ls

theorem nodesOf_unplace (ls : List Line) :
    (nodesOf (ls.map Line.unplace)).toOption =
      (nodesOf ls).toOption.map (List.map Node.unplace) := by
  fun_induction nodesOf ls with
  | case1 => rw [List.map_nil, nodesOf]; rfl
  | case2 l ls hb ih =>
    rw [List.map_cons, nodesOf, isBlank_unplace, if_pos hb, toOption_bind, toOption_bind, ih]
    cases nodesOf ls with
    | error e => rfl
    | ok rest => simp [pure, Except.pure, Except.toOption, lead_unplace]
  | case3 l ls hb hc ih =>
    rw [List.map_cons, nodesOf, isBlank_unplace, if_neg hb, cutBlock_unplace, List.isEmpty_map,
      if_pos hc]
    show (Statement.withoutBlock .sass (l.body.map Token.unplace) >>= _).toOption = _
    rw [toOption_bind, toOption_bind, Statement.withoutBlock_unplace]
    cases Statement.withoutBlock .sass l.body with
    | error e => rfl
    | ok own =>
      show (nodesOf (ls.map Line.unplace) >>= _).toOption =
        Option.map (List.map Node.unplace) (nodesOf ls >>= _).toOption
      rw [toOption_bind, toOption_bind, ih]
      cases nodesOf ls with
      | error e => rfl
      | ok rest => simp [pure, Except.pure, Except.toOption, lead_unplace]
  | case4 l ls hb hc ihi ih =>
    rw [List.map_cons, nodesOf, isBlank_unplace, if_neg hb, cutBlock_unplace, List.isEmpty_map,
      if_neg hc, toOption_bind, toOption_bind, ihi]
    cases nodesOf (cutBlock l ls).1 with
    | error e => rfl
    | ok inner =>
      show (Statement.withBlock .sass (l.body.map Token.unplace)
          (.ofChildren .block .sass (inner.map Node.unplace)) >>= _).toOption =
        Option.map (List.map Node.unplace)
          (Statement.withBlock .sass l.body (.ofChildren .block .sass inner) >>= _).toOption
      rw [toOption_bind, toOption_bind, ← Node.unplace_ofChildren, Statement.withBlock_unplace]
      cases Statement.withBlock .sass l.body (.ofChildren .block .sass inner) with
      | error e => rfl
      | ok own =>
        show (nodesOf ((cutBlock l ls).2.map Line.unplace) >>= _).toOption =
          Option.map (List.map Node.unplace) (nodesOf (cutBlock l ls).2 >>= _).toOption
        rw [toOption_bind, toOption_bind, ih]
        cases nodesOf (cutBlock l ls).2 with
        | error e => rfl
        | ok rest => simp [pure, Except.pure, Except.toOption, lead_unplace]

end Lines

/-! ## Sheets -/

/-- **Sheets are read alike without places.** -/
theorem sheetNodes_unplace (d : Dialect) (ts : List Token) :
    (sheetNodes d (ts.map Token.unplace)).toOption =
      (sheetNodes d ts).toOption.map (List.map Node.unplace) := by
  unfold sheetNodes
  split
  · exact Braces.nodes_unplace ts
  · have hcut := Lines.cut_unplace none [] ts
    rw [Lines.nodes, Lines.nodes, ← Lines.nodesOf_unplace, ← hcut]
    rfl

/-- Tokens that differ in their places alone are read into nodes that do so. -/
theorem exists_sheetNodes {d : Dialect} {ts us : List Token} {ns : List Node}
    (h : ts.map Token.unplace = us.map Token.unplace) (hn : sheetNodes d ts = .ok ns) :
    ∃ ms, sheetNodes d us = .ok ms ∧ ms.map Node.unplace = ns.map Node.unplace := by
  have hts := sheetNodes_unplace d ts
  rw [h, sheetNodes_unplace d us, hn] at hts
  cases hm : sheetNodes d us with
  | error e =>
    rw [hm] at hts
    cases hts
  | ok ms =>
    rw [hm] at hts
    exact ⟨ms, rfl, Option.some.inj hts⟩

end TidySheet
