import Mathlib.Data.List.Basic
import TidySheet.Proofs.Forms
import TidySheet.Proofs.Items
import TidySheet.Proofs.Nesting

/-!
# Children as their parents have them

Every part of the parser makes branches with the children that their kind asks for: the parts of a
declaration, a function, a ruleset and an at-rule, blocks at the end of their statement, and a
delimiter between declarations.

* `Reading.trimmed` — trimmed tokens are read into trimmed nodes;
* `Value.plainly_nodes`, `Statement.Plain.standing`, `Statement.Opener.standing` — the nodes of a
  value and of a statement;
* `Braces.Items.standing`, `Lines.Nested.standing` — the items of a block and the lines.
-/

set_option autoImplicit false

namespace TidySheet

variable {d : Dialect}

namespace Node

/-! ## The form of a tree -/

/-- Neither the first node nor the last one is whitespace or a comment. -/
def Trimmed (ns : List Node) : Prop :=
  (∀ n ∈ ns.head?, n.isTrivia = false) ∧ ∀ n ∈ ns.getLast?, n.isTrivia = false

/-- The children that a node of the kind `k` starts with or consists of. -/
def Parts (k : Kind) (cs : List Node) : Prop :=
  match k with
  | .declaration => ∃ property gap colon lead value,
      DeclarationForm cs property gap colon lead value ∧ Trimmed property.children ∧
        Trimmed value.children
  | .function => ∃ name arguments, cs = [name, arguments] ∧ name.kind = .ident ∧
      arguments.kind = .arguments
  | .ruleset => ∃ selector rest, cs = selector :: rest ∧ selector.kind = .selector
  | .atrule => ∃ keyword rest, cs = keyword :: rest ∧ keyword.kind = .atkeyword
  | _ => True

/-- Children as a parent of the kind `k` has them. -/
structure Arranged (k : Kind) (cs : List Node) : Prop where
  parts : Parts k cs
  /-- Only the last child of a ruleset or an at-rule is a block. -/
  block : ∀ before block behind, cs = before ++ block :: behind → block.kind = .block →
    behind = [] ∧ (k = .ruleset ∨ k = .atrule)
  /-- Between two declarations there is a delimiter. -/
  delimited : ∀ before first between second behind,
    cs = before ++ first :: (between ++ second :: behind) → first.kind = .declaration →
      second.kind = .declaration → ∃ n ∈ between, n.kind = .declarationDelimiter

/-! ## Children in order -/

theorem separated_of_kind_ne {ns : List Node} (h : ∀ n ∈ ns, n.kind ≠ .declaration)
    (seen : Bool) : Separated seen ns := by
  induction ns generalizing seen with
  | nil => trivial
  | cons n ns ih =>
    rw [Separated]
    split
    · exact ih (fun m hm => h m (by simp [hm])) false
    · exact absurd (by assumption) (h n (by simp))
    · exact ih (fun m hm => h m (by simp [hm])) seen

theorem Separated.exists_delimiter {seen : Bool} {before between behind : List Node}
    {first second : Node} (h : Separated seen (before ++ first :: (between ++ second :: behind)))
    (hf : first.kind = .declaration) (hs : second.kind = .declaration) :
    ∃ n ∈ between, n.kind = .declarationDelimiter := by
  -- behind a declaration `seen` stays true up to the next delimiter
  have hbehind : ∀ between, Separated true (between ++ second :: behind) →
      ∃ n ∈ between, n.kind = .declarationDelimiter := by
    intro between
    induction between with
    | nil =>
      intro h
      rw [List.nil_append, Separated, hs] at h
      exact absurd h.1 (by decide)
    | cons n ns ih =>
      intro h
      rw [List.cons_append, Separated] at h
      split at h
      · exact ⟨n, by simp, by assumption⟩
      · exact absurd h.1 (by decide)
      · obtain ⟨m, hm, hk⟩ := ih h
        exact ⟨m, by simp [hm], hk⟩
  induction before generalizing seen with
  | nil =>
    rw [List.nil_append, Separated, hf] at h
    exact hbehind between h.2
  | cons n ns ih =>
    rw [List.cons_append, Separated] at h
    split at h
    · exact ih h
    · exact ih h.2
    · exact ih h

/-- Children without a block. -/
theorem Arranged.of_separated {k : Kind} {cs : List Node} (hp : Parts k cs)
    (hc : ∀ c ∈ cs, c.kind ≠ .block) (hs : Separated false cs) : Arranged k cs where
  parts := hp
  block before block behind he hb := absurd hb (hc block (by simp [he]))
  delimited before first between second behind he hf hs' := by
    rw [he] at hs
    exact hs.exists_delimiter hf hs'

/-- What may stand among the items of a block. -/
structure Standing (n : Node) : Prop where
  kind_ne : n.kind ≠ .block
  arranged : n.All fun m => Arranged m.kind m.children

/-- What may stand in a selector, a property or a value. -/
structure Plainly (n : Node) : Prop extends n.Standing where
  kind_ne_declaration : n.kind ≠ .declaration

theorem Standing.allOf {ns : List Node} (h : ∀ n ∈ ns, n.Standing) :
    AllOf (fun m => Arranged m.kind m.children) ns :=
  (allOf_iff ns).2 fun n hn => (h n hn).arranged

theorem Plainly.separated {ns : List Node} (h : ∀ n ∈ ns, n.Plainly) : Separated false ns :=
  separated_of_kind_ne (fun n hn => (h n hn).kind_ne_declaration) false

/-- Children without a declaration, the last of which is a block. -/
theorem Arranged.of_block {k : Kind} {init : List Node} {b : Node} (hp : Parts k (init ++ [b]))
    (hk : k = .ruleset ∨ k = .atrule) (hi : ∀ c ∈ init, c.Plainly) (hb : b.kind = .block) :
    Arranged k (init ++ [b]) where
  parts := hp
  block before block behind he hblock := by
    refine ⟨?_, hk⟩
    rcases List.eq_nil_or_concat behind with rfl | ⟨rest, last, rfl⟩
    · rfl
    · rw [List.concat_eq_append, ← List.cons_append, ← List.append_assoc] at he
      have hmem : block ∈ init := by
        rw [(List.append_inj' he rfl).1]
        simp
      exact absurd hblock (hi block hmem).kind_ne
  delimited before first between second behind he hf hs := by
    have hall : ∀ c ∈ init ++ [b], c.kind ≠ .declaration := by
      intro c hc
      rcases List.mem_append.1 hc with hc | hc
      · exact (hi c hc).kind_ne_declaration
      · rw [List.mem_singleton.1 hc, hb]
        decide
    exact absurd hf (hall first (by simp [he]))

theorem plainly_leaf {l : Label} {t : List Char} (hl : l.kind.isLeaf = true) :
    (Node.leaf l t).Plainly := by
  have hk : l.kind ≠ .block ∧ l.kind ≠ .declaration ∧ Parts l.kind [] := by
    revert hl
    cases l.kind <;> simp [Kind.isLeaf, Parts]
  exact
    { kind_ne := hk.1
      arranged := (all_leaf l t).2 (.of_separated hk.2.2 (by simp [children]) trivial)
      kind_ne_declaration := hk.2.1 }

theorem standing_branch {l : Label} {cs : List Node} (hk : l.kind ≠ .block)
    (ha : Arranged l.kind cs) (hc : AllOf (fun m => Arranged m.kind m.children) cs) :
    (Node.branch l cs).Standing :=
  ⟨hk, (all_branch l cs).2 ⟨ha, hc⟩⟩

theorem plainly_branch {l : Label} {cs : List Node} (hk : l.kind ∈ inlineKinds)
    (hp : Parts l.kind cs) (hc : ∀ c ∈ cs, c.Plainly) : (Node.branch l cs).Plainly := by
  have hne : l.kind ≠ .block ∧ l.kind ≠ .declaration := by
    revert hk
    cases l.kind <;> decide
  have ha : Arranged l.kind cs :=
    .of_separated hp (fun c hm => (hc c hm).kind_ne) (Plainly.separated hc)
  exact
    { toStanding := standing_branch hne.1 ha (Standing.allOf fun c hm => (hc c hm).toStanding)
      kind_ne_declaration := hne.2 }

end Node

namespace Token

theorem plainly_leaf (t : Token) : (t.leaf d).Plainly := Node.plainly_leaf t.leafKind_isLeaf

theorem plainly_leaves (ts : List Token) : ∀ n ∈ leaves d ts, n.Plainly := by
  intro n hn
  obtain ⟨t, -, rfl⟩ := List.mem_map.1 hn
  exact t.plainly_leaf

theorem isTrivia_leaf {t : Token} (h : t.kind ≠ .newline) :
    (t.leaf d).isTrivia = t.isTrivia := by
  cases ht : t.isTrivia with
  | true => exact leaf_isTrivia ht
  | false =>
    rw [Bool.eq_false_iff, ne_eq, Node.isTrivia_iff]
    simp only [leaf, Node.kind, Node.label, leafKind_eq_space, leafKind_eq_multilineComment,
      leafKind_eq_singlelineComment]
    rintro ((hk | hk) | hk | hk)
    · simp [isTrivia, hk] at ht
    · exact h hk
    · simp [isTrivia, hk] at ht
    · simp [isTrivia, hk] at ht

/-! ## Trimmed tokens -/

/-- Neither the first token nor the last one is whitespace or a comment. -/
def Trimmed (ts : List Token) : Prop :=
  (∀ t ∈ ts.head?, t.isTrivia = false) ∧ ∀ t ∈ ts.getLast?, t.isTrivia = false

theorem isTrivia_head_trimStart (ts : List Token) :
    ∀ t ∈ (trimStart ts).2.head?, t.isTrivia = false := by
  intro t ht
  have hd := List.head?_dropWhile_not isTrivia ts
  rw [trimStart] at ht
  rw [Option.mem_def.1 ht] at hd
  exact hd

theorem isTrivia_getLast_trimEnd (ts : List Token) :
    ∀ t ∈ (trimEnd ts).1.getLast?, t.isTrivia = false := by
  induction ts with
  | nil => simp [trimEnd]
  | cons t ts ih =>
    simp only [trimEnd]
    split
    · rename_i trivia h
      split
      · simp
      · rename_i ht
        simpa using ht
    · rename_i kept trivia hne h
      rw [h] at ih
      cases kept with
      | nil => exact absurd rfl hne
      | cons u us => simpa [List.getLast?_cons_cons] using ih

theorem mem_head_of_trimEnd {ts : List Token} {t : Token} (h : t ∈ (trimEnd ts).1.head?) :
    t ∈ ts.head? := by
  rw [← trimEnd_append ts]
  exact List.mem_head?_append_of_mem_head? h

theorem mem_getLast_of_trimStart {ts : List Token} {t : Token}
    (h : t ∈ (trimStart ts).2.getLast?) : t ∈ ts.getLast? := by
  rw [← trimStart_append ts]
  exact List.mem_getLast?_append_of_mem_getLast? h

/-- Trivia, and what starts with no trivia. -/
theorem trimStart_eq {trivia core : List Token} (ht : ∀ t ∈ trivia, t.isTrivia = true)
    (hc : ∀ t ∈ core.head?, t.isTrivia = false) : trimStart (trivia ++ core) = (trivia, core) := by
  induction trivia with
  | nil =>
    cases core with
    | nil => rfl
    | cons t core => simp [trimStart, hc t rfl]
  | cons t trivia ih =>
    have hrest := ih fun u hu => ht u (by simp [hu])
    simp only [trimStart, Prod.mk.injEq] at hrest ⊢
    simp [ht t (by simp), hrest]

/-- What stands up to the last token that is no trivia, and trivia behind it. -/
theorem trimEnd_eq {core trivia : List Token} (hc : ∀ t ∈ core.getLast?, t.isTrivia = false)
    (ht : ∀ t ∈ trivia, t.isTrivia = true) : trimEnd (core ++ trivia) = (core, trivia) := by
  induction core with
  | nil =>
    rw [List.nil_append]
    induction trivia with
    | nil => rfl
    | cons t trivia ih =>
      rw [trimEnd, ih fun u hu => ht u (by simp [hu])]
      simp [ht t (by simp)]
  | cons t core ih =>
    cases core with
    | nil =>
      rw [List.nil_append] at ih
      rw [List.cons_append, List.nil_append, trimEnd, ih (by simp)]
      simp [hc t (by simp)]
    | cons u core =>
      rw [List.cons_append, trimEnd, ih (by simpa [List.getLast?_cons_cons] using hc)]

theorem trimmed_core (ts : List Token) : Trimmed (trimEnd (trimStart ts).2).1 :=
  ⟨fun t ht => isTrivia_head_trimStart ts t (mem_head_of_trimEnd ht), isTrivia_getLast_trimEnd _⟩

/-- One token in front of what does not end in trivia. -/
theorem trimmed_cons {t : Token} {ts : List Token} (ht : t.isTrivia = false)
    (hl : ∀ u ∈ ts.getLast?, u.isTrivia = false) : Trimmed (t :: ts) := by
  refine ⟨by simpa using ht, fun u hu => ?_⟩
  rw [List.getLast?_cons] at hu
  cases hlast : ts.getLast? with
  | none =>
    rw [hlast] at hu
    cases hu
    exact ht
  | some v =>
    rw [hlast] at hu
    cases hu
    exact hl _ hlast

end Token

/-! ## What readings keep of their tokens -/

namespace Reading

variable {ts : List Token} {ns : List Node} {n : Node}

theorem isTrivia_joined {k : Kind} (hk : k = .raw ∨ k = .important) (run : List Token) :
    (Token.joined k d run).isTrivia = false := by
  rcases hk with rfl | rfl <;> rfl

theorem isTrivia_branch {l : Label} {cs : List Node} (hs : Node.Sound d (.branch l cs)) :
    (Node.branch l cs).isTrivia = false := by
  rw [Bool.eq_false_iff, ne_eq, Node.isTrivia_iff]
  have hl : l.kind.isLeaf = false := hs.2.1
  rintro (h | h | h) <;> simp only [Node.kind, Node.label] at h <;> simp [h, Kind.isLeaf] at hl

/-- Trivia at the front is the leaf of the first token. -/
theorem exists_token (h : Reading d ts (n :: ns)) (hn : n.isTrivia = true) :
    ∃ t us, ts = t :: us ∧ n = t.leaf d := by
  cases h with
  | @token t n us ns hl hr =>
    cases hl with
    | plain => exact ⟨t, us, rfl, rfl⟩
    | property => cases hn
    | colon => cases hn
    | newline => cases hn
  | @run k run us ns hk _ hr =>
    rw [isTrivia_joined hk] at hn
    cases hn
  | branch hm hs hi hr =>
    rw [isTrivia_branch hs] at hn
    cases hn

theorem eq_nil (h : Reading d ts []) : ts = [] := by
  cases h
  rfl

theorem isTrivia_head (h : Reading d ts ns) (hk : ∀ t ∈ ts, t.kind ≠ .newline)
    (ht : ∀ t ∈ ts.head?, t.isTrivia = false) : ∀ n ∈ ns.head?, n.isTrivia = false := by
  intro n hn
  obtain ⟨rest, rfl⟩ := List.head?_eq_some_iff.1 hn
  cases hn : n.isTrivia with
  | false => rfl
  | true =>
    obtain ⟨t, us, rfl, rfl⟩ := h.exists_token hn
    rw [Token.isTrivia_leaf (hk t (by simp)), ht t rfl] at hn
    cases hn

theorem isTrivia_getLast (h : Reading d ts ns) (hk : ∀ t ∈ ts, t.kind ≠ .newline)
    (ht : ∀ t ∈ ts.getLast?, t.isTrivia = false) : ∀ n ∈ ns.getLast?, n.isTrivia = false := by
  induction h with
  | nil => simp
  | @token t n ts ns hn hr ih =>
    cases ns with
    | nil =>
      rw [hr.eq_nil] at hk ht
      exact (Reading.token hn .nil).isTrivia_head hk ht
    | cons m ns =>
      rw [List.getLast?_cons_cons]
      exact ih (fun u hu => hk u (by simp [hu])) fun u hu =>
        ht u (@List.mem_getLast?_append_of_mem_getLast? _ [t] ts u hu)
  | @run k run ts ns hr _ _ ih =>
    cases ns with
    | nil => simpa using isTrivia_joined hr run
    | cons m ns =>
      rw [List.getLast?_cons_cons]
      exact ih (fun u hu => hk u (by simp [hu])) fun u hu =>
        ht u (List.mem_getLast?_append_of_mem_getLast? hu)
  | @branch l opening inner closing ts cs ns _ hs _ _ _ ih =>
    cases ns with
    | nil => simpa using isTrivia_branch hs
    | cons m ns =>
      rw [List.getLast?_cons_cons]
      refine ih (fun u hu => hk u (by simp [hu])) fun u hu => ht u ?_
      simp only [← List.append_assoc]
      exact List.mem_getLast?_append_of_mem_getLast? hu

/-- **Trimmed tokens are read into trimmed nodes.** -/
theorem trimmed (h : Reading d ts ns) (hk : ∀ t ∈ ts, t.kind ≠ .newline)
    (ht : Token.Trimmed ts) : Node.Trimmed ns :=
  ⟨h.isTrivia_head hk ht.1, h.isTrivia_getLast hk ht.2⟩

end Reading

/-! ## Values -/

namespace Value

/-- What a piece brings into a value. -/
def Piece.Fits : Piece → Prop
  | .leaf n => n.Plainly
  | .opening name _ => ∀ t ∈ name, t.kind = .ident
  | .closing _ => True

theorem fits_pieces (ts : List Token) : ∀ p ∈ pieces d ts, p.Fits := by
  have hi : ∀ run, (Token.joined .important d run).Plainly := fun run => Node.plainly_leaf rfl
  fun_induction pieces d ts with
  | case1 => simp
  | case2 t ts hk ih => exact List.forall_mem_cons.2 ⟨by simp [Piece.Fits], ih⟩
  | case3 t ts hk ih => exact List.forall_mem_cons.2 ⟨trivial, ih⟩
  | case4 t hk u us hu ih => exact List.forall_mem_cons.2 ⟨by simpa [Piece.Fits] using hk, ih⟩
  | case5 t _ u us _ ih => exact List.forall_mem_cons.2 ⟨t.plainly_leaf, ih⟩
  | case6 t _ => exact List.forall_mem_cons.2 ⟨t.plainly_leaf, by simp⟩
  | case7 t _ u us _ ih => exact List.forall_mem_cons.2 ⟨hi _, ih⟩
  | case8 t _ u _ _ v vs _ ih => exact List.forall_mem_cons.2 ⟨hi _, ih⟩
  | case9 t _ u _ _ v vs _ ih => exact List.forall_mem_cons.2 ⟨t.plainly_leaf, ih⟩
  | case10 t _ u _ _ ih => exact List.forall_mem_cons.2 ⟨t.plainly_leaf, ih⟩
  | case11 t _ u us _ _ ih => exact List.forall_mem_cons.2 ⟨t.plainly_leaf, ih⟩
  | case12 t _ => exact List.forall_mem_cons.2 ⟨t.plainly_leaf, by simp⟩
  | case13 t ts _ _ _ _ ih => exact List.forall_mem_cons.2 ⟨t.plainly_leaf, ih⟩

/-- What an open group holds. -/
structure Group.Fits (g : Group) : Prop where
  name : ∀ t ∈ g.name, t.kind = .ident
  before : ∀ n ∈ g.before, n.Plainly

/-- What the state of a value under way holds. -/
structure State.Fits (s : State) : Prop where
  groups : ∀ g ∈ s.groups, g.Fits
  nodes : ∀ n ∈ s.nodes, n.Plainly

theorem Group.Fits.close {g : Group} (h : g.Fits) {inner : List Node} (paren : Token)
    (hi : ∀ n ∈ inner, n.Plainly) : (g.close d inner paren).Plainly := by
  obtain ⟨name, open_, before⟩ := g
  unfold Group.close
  cases name with
  | none => exact Node.plainly_branch (by simp [inlineKinds]) trivial hi
  | some name =>
    have ha : (Node.branch ⟨.arguments, d, ⟨open_.span.first, paren.span.last⟩⟩ inner).Plainly :=
      Node.plainly_branch (by simp [inlineKinds]) trivial hi
    have hk : name.leafKind = .ident := by
      rw [Token.leafKind, h.name name rfl]
    refine Node.plainly_branch (by simp [inlineKinds]) ⟨_, _, rfl, hk, rfl⟩ ?_
    exact List.forall_mem_cons.2 ⟨name.plainly_leaf, by simpa using ha⟩

/-- **One piece** keeps what the state holds. -/
theorem State.Fits.step {s s' : State} {p : Piece} (hs : s.Fits) (hp : p.Fits)
    (h : s.step d p = .ok s') : s'.Fits := by
  cases p with
  | leaf n =>
    cases h
    exact ⟨hs.groups, List.forall_mem_cons.2 ⟨hp, hs.nodes⟩⟩
  | opening name paren =>
    cases h
    exact ⟨List.forall_mem_cons.2 ⟨⟨hp, hs.nodes⟩, hs.groups⟩, by simp⟩
  | closing paren =>
    obtain ⟨groups, nodes⟩ := s
    cases groups with
    | nil => cases h
    | cons g gs =>
      cases h
      have hg := List.forall_mem_cons.1 hs.groups
      have hclose : (g.close d nodes.reverse paren).Plainly := hg.1.close paren fun n hn =>
        hs.nodes n (List.mem_reverse.1 hn)
      exact ⟨hg.2, List.forall_mem_cons.2 ⟨hclose, hg.1.before⟩⟩

theorem State.Fits.foldlM {ps : List Piece} (hp : ∀ p ∈ ps, p.Fits) {s s' : State} (hs : s.Fits)
    (h : ps.foldlM (State.step d) s = .ok s') : s'.Fits := by
  induction ps generalizing s with
  | nil =>
    cases h
    exact hs
  | cons p ps ih =>
    rw [List.foldlM_cons] at h
    obtain ⟨s₁, h₁, h₂⟩ := bind_eq_ok.1 h
    have hps := List.forall_mem_cons.1 hp
    exact ih hps.2 (hs.step hps.1 h₁) h₂

theorem plainly_nodes {ts : List Token} {ns : List Node} (h : nodes d ts = .ok ns) :
    ∀ n ∈ ns, n.Plainly := by
  obtain ⟨s, hf, h⟩ := bind_eq_ok.1 h
  have hs : s.Fits := State.Fits.foldlM (fits_pieces ts) ⟨by simp [State.start], by
    simp [State.start]⟩ hf
  obtain ⟨groups, nodes⟩ := s
  cases groups with
  | nil =>
    cases h
    exact fun n hn => hs.nodes n (List.mem_reverse.1 hn)
  | cons g gs => cases h

end Value

/-! ## Statements -/

namespace Statement

open Token

theorem plainly_property (ts : List Token) : ∀ n ∈ ts.map (propertyLeaf d), n.Plainly := by
  intro n hn
  obtain ⟨t, -, rfl⟩ := List.mem_map.1 hn
  unfold propertyLeaf
  split
  · exact Node.plainly_leaf rfl
  · exact t.plainly_leaf

theorem standing_declaration {before behind : List Token} {colon : Token} {n : Node}
    (hk : ∀ t ∈ before ++ colon :: behind, t.kind ≠ .newline)
    (ht : Trimmed (before ++ colon :: behind))
    (h : declaration d before colon behind = .ok n) : n.Standing := by
  obtain ⟨vs, hv, rfl⟩ := declaration_eq_ok.1 h
  have hproperty : Trimmed (trimEnd before).1 :=
    ⟨fun t hm => ht.1 t (List.mem_head?_append_of_mem_head? (mem_head_of_trimEnd hm)),
      isTrivia_getLast_trimEnd before⟩
  have hvalue : Trimmed (trimStart behind).2 := by
    refine ⟨isTrivia_head_trimStart behind, fun t hm => ht.2 t ?_⟩
    rw [← List.singleton_append, ← List.append_assoc]
    exact List.mem_getLast?_append_of_mem_getLast? (mem_getLast_of_trimStart hm)
  have hpk : ∀ t ∈ (trimEnd before).1, t.kind ≠ .newline := fun t hm =>
    hk t (by rw [← trimEnd_append before]; simp [hm])
  have hvk : ∀ t ∈ (trimStart behind).2, t.kind ≠ .newline := fun t hm =>
    hk t (by rw [← trimStart_append behind]; simp [hm])
  have hparts : Node.Parts .declaration (declarationChildren d (trimEnd before).1
      (trimEnd before).2 colon (trimStart behind).1 vs) :=
    ⟨_, _, _, _, _, declarationForm hv,
      (inlineReading_property _).reading.trimmed hpk hproperty,
      (Value.inlineReading_nodes hv).reading.trimmed hvk hvalue⟩
  have hc : ∀ c ∈ declarationChildren d (trimEnd before).1 (trimEnd before).2 colon
      (trimStart behind).1 vs, c.Plainly := by
    simp only [declarationChildren, List.forall_mem_cons, List.forall_mem_append]
    exact ⟨Node.plainly_branch (by simp [inlineKinds]) trivial (plainly_property _),
      plainly_leaves _, Node.plainly_leaf rfl, plainly_leaves _,
      Node.plainly_branch (by simp [inlineKinds]) trivial (Value.plainly_nodes hv), by simp⟩
  exact Node.standing_branch Kind.noConfusion
    (.of_separated hparts (fun c hm => (hc c hm).kind_ne) (Node.Plainly.separated hc))
    (Node.Standing.allOf fun c hm => (hc c hm).toStanding)

theorem Core.standing {core : List Token} {own : List Node} (h : Core d core own)
    (hk : ∀ t ∈ core, t.kind ≠ .newline) (ht : Trimmed core) : ∀ n ∈ own, n.Standing := by
  cases h with
  | empty => simp
  | raw => exact List.forall_mem_cons.2 ⟨(Node.plainly_leaf rfl).toStanding, by simp⟩
  | declaration hc hn =>
    obtain ⟨rfl, -⟩ := cutColon?_eq 0 hc
    simpa using standing_declaration hk ht hn

theorem parts_atrule {keyword : Token} (hk : keyword.kind = .atKeyword) (cs : List Node) :
    Node.Parts .atrule (keyword.leaf d :: cs) :=
  ⟨_, cs, rfl, by simp [leaf, Node.kind, Node.label, leafKind, hk]⟩

/-- Statements without a block. -/
theorem Plain.standing {head : List Token} {own : List Node} (h : Plain d head own)
    (hk : ∀ t ∈ head, t.kind ≠ .newline) : ∀ n ∈ own, n.Standing := by
  cases h with
  | none => simp
  | @atrule keyword params value hkw _ hv =>
    have hc : ∀ c ∈ keyword.leaf d :: value, c.Plainly :=
      List.forall_mem_cons.2 ⟨keyword.plainly_leaf, Value.plainly_nodes hv⟩
    refine List.forall_mem_cons.2 ⟨?_, fun n hn => (plainly_leaves _ n hn).toStanding⟩
    exact Node.standing_branch Kind.noConfusion
      (.of_separated (parts_atrule hkw value) (fun c hm => (hc c hm).kind_ne)
        (Node.Plainly.separated hc))
      (Node.Standing.allOf fun c hm => (hc c hm).toStanding)
  | @other t ts own _ hc =>
    have hcore : ∀ u ∈ (trimEnd (trimStart (t :: ts)).2).1, u.kind ≠ .newline := fun u hu =>
      hk u (by rw [← trimStart_append (t :: ts), ← trimEnd_append (trimStart (t :: ts)).2]; simp [hu])
    simp only [List.forall_mem_append]
    exact ⟨fun n hn => (plainly_leaves _ n hn).toStanding, hc.standing hcore (trimmed_core _),
      fun n hn => (plainly_leaves _ n hn).toStanding⟩

/-- Statements with their block. -/
theorem Opener.standing {head : List Token} {block n : Node} (h : Opener d block head n)
    (hk : block.kind = .block) (hb : block.All fun m => Node.Arranged m.kind m.children) :
    n.Standing := by
  have hall : ∀ {k : Kind} {init : List Node}, k = .ruleset ∨ k = .atrule →
      Node.Parts k (init ++ [block]) → (∀ c ∈ init, c.Plainly) →
        (Node.ofChildren k d (init ++ [block])).Standing := by
    intro k init hkind hp hi
    refine Node.standing_branch (by rcases hkind with rfl | rfl <;> simp)
      (.of_block hp hkind hi hk) ?_
    exact (Node.allOf_append _ _).2
      ⟨Node.Standing.allOf fun c hm => (hi c hm).toStanding, by simpa using hb⟩
  cases h with
  | ruleset =>
    refine hall (.inl rfl) ⟨_, _, rfl, rfl⟩ (List.forall_mem_cons.2 ⟨?_, plainly_leaves _⟩)
    exact Node.plainly_branch (by simp [inlineKinds]) trivial (plainly_leaves _)
  | @atrule keyword params value hkw hv =>
    have hi : ∀ c ∈ keyword.leaf d :: (value ++ leaves d (trimEnd params).2), c.Plainly := by
      simp only [List.forall_mem_cons, List.forall_mem_append]
      exact ⟨keyword.plainly_leaf, Value.plainly_nodes hv, plainly_leaves _⟩
    have ha := hall (.inr rfl) (parts_atrule hkw _) hi
    simpa only [List.cons_append, List.append_assoc] using ha

end Statement

/-! ## Sheets -/

namespace Braces

open Token Statement

theorem Items.standing {ts : List Token} {ns : List Node} (h : Items d ts ns)
    (hk : ∀ t ∈ ts, t.kind ≠ .newline) : ∀ n ∈ ns, n.Standing := by
  induction h with
  | nil => simp
  | @trivia t ts ns _ _ ih =>
    exact List.forall_mem_cons.2 ⟨t.plainly_leaf.toStanding, ih fun u hu => hk u (by simp [hu])⟩
  | @statement head ts s own ns _ ho _ _ ih =>
    simp only [List.forall_mem_append, List.forall_mem_cons]
    exact ⟨ho.standing fun u hu => hk u (by simp [hu]), s.plainly_leaf.toStanding,
      ih fun u hu => hk u (by simp [hu])⟩
  | @nested head inner last ts a b cs own ns n _ _ hi _ ho _ hn _ ihi ih =>
    have hc : ∀ c ∈ cs ++ own, c.Standing := List.forall_mem_append.2
      ⟨ihi fun u hu => hk u (by simp [hu]), ho.standing fun u hu => hk u (by simp [hu])⟩
    have hblock := Node.Arranged.of_separated (k := .block) trivial
      (fun c hm => (hc c hm).kind_ne) (hi.separated ho.separated)
    refine List.forall_mem_cons.2 ⟨?_, ih fun u hu => hk u (by simp [hu])⟩
    exact hn.standing rfl ((Node.all_branch _ _).2 ⟨hblock, Node.Standing.allOf hc⟩)

end Braces

namespace Lines

open Token Statement

variable {ls : List Line} {ns : List Node}

theorem separated_lead {l : Line} {seen : Bool} (hs : seen = true → l.newline.isSome = true)
    (hn : Node.Separated false ns) : Node.Separated seen (l.lead ++ ns) := by
  obtain ⟨newline, indent, body⟩ := l
  have hi : ∀ n ∈ (indent.map fun t => t.leafAs .space .sass).toList, n.isTrivia = true := by
    cases indent with
    | none => simp
    | some t => simp [leafAs, Node.isTrivia, Node.is, Node.kind, Node.label]
  rw [Line.lead, List.append_assoc]
  cases newline with
  | none =>
    have hseen : seen = false := by simpa using hs
    rw [hseen]
    exact (separated_trivia_append hi).2 hn
  | some t => exact separated_delimiter rfl ((separated_trivia_append hi).2 hn) seen

/-- The newlines between lines delimit their declarations. -/
theorem Nested.separated (h : Nested ls ns) {seen : Bool}
    (hs : seen = true → ∀ l ∈ ls.head?, l.newline.isSome = true)
    (ht : ∀ l ∈ ls.tail, l.newline.isSome = true) : Node.Separated seen ns := by
  have hhead : ∀ {ls : List Line}, (∀ l ∈ ls, l.newline.isSome = true) →
      ∀ l ∈ ls.head?, l.newline.isSome = true := fun h l hl => h l (List.mem_of_mem_head? hl)
  induction h generalizing seen with
  | nil => trivial
  | @blank l ls ns _ _ ih =>
    refine separated_lead (fun h => hs h l rfl) (ih (fun _ => hhead ht) fun m hm => ?_)
    exact ht m (List.mem_of_mem_tail hm)
  | @statement l ls own ns _ _ ho _ ih =>
    refine separated_lead (fun h => hs h l rfl) (separated_append ho.separated fun seen => ?_)
    exact ih (fun _ => hhead ht) fun m hm => ht m (List.mem_of_mem_tail hm)
  | @block l ls inner outer cs ns n _ hc _ _ hn _ _ ih =>
    have hls : inner ++ outer = ls := append_of_cutBlock hc
    have hout : ∀ m ∈ outer, m.newline.isSome = true := fun m hm => ht m (by simp [← hls, hm])
    refine separated_lead (fun h => hs h l rfl) ?_
    have hns : Node.Separated false ns :=
      ih (fun _ => hhead hout) fun m hm => hout m (List.mem_of_mem_tail hm)
    rw [Node.Separated]
    rcases hn.kind_mem with hk | hk <;> simpa [hk] using hns

theorem Nested.standing (h : Nested ls ns) (hk : ∀ l ∈ ls, ∀ t ∈ l.body, t.kind ≠ .newline)
    (ht : ∀ l ∈ ls.tail, l.newline.isSome = true) : ∀ n ∈ ns, n.Standing := by
  have hlead : ∀ (l : Line), ∀ n ∈ l.lead, n.Standing := by
    intro l n hn
    simp only [Line.lead, List.mem_append, Option.mem_toList, Option.map_eq_some_iff] at hn
    rcases hn with ⟨t, -, rfl⟩ | ⟨t, -, rfl⟩ <;> exact (Node.plainly_leaf rfl).toStanding
  induction h with
  | nil => simp
  | @blank l ls ns _ _ ih =>
    exact List.forall_mem_append.2 ⟨hlead l, ih (fun m hm => hk m (by simp [hm])) fun m hm =>
      ht m (List.mem_of_mem_tail hm)⟩
  | @statement l ls own ns _ _ ho _ ih =>
    simp only [List.forall_mem_append]
    exact ⟨hlead l, ho.standing (hk l (by simp)), ih (fun m hm => hk m (by simp [hm]))
      fun m hm => ht m (List.mem_of_mem_tail hm)⟩
  | @block l ls inner outer cs ns n _ hc _ hi hn _ ihi ih =>
    have hls : inner ++ outer = ls := append_of_cutBlock hc
    have hin : ∀ m ∈ inner, m.newline.isSome = true := fun m hm => ht m (by simp [← hls, hm])
    have hcs := ihi (fun m hm => hk m (by simp [← hls, hm])) fun m hm =>
      hin m (List.mem_of_mem_tail hm)
    have hblock := Node.Arranged.of_separated (k := .block) trivial
      (fun c hm => (hcs c hm).kind_ne) (hi.separated (fun h => by cases h) fun m hm =>
        hin m (List.mem_of_mem_tail hm))
    simp only [List.forall_mem_append, List.forall_mem_cons]
    refine ⟨hlead l, ?_, ih (fun m hm => hk m (by simp [← hls, hm])) fun m hm =>
      ht m (by simp [← hls, List.mem_of_mem_tail hm])⟩
    exact hn.standing rfl ((Node.all_branch _ _).2 ⟨hblock, Node.Standing.allOf hcs⟩)

end Lines

end TidySheet
