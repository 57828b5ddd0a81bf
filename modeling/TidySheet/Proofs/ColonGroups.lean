import TidySheet.Proofs.Statements
import TidySheet.Rule.Colons

/-!
# The colons of a block

The alignment of colons looks at the places of the colons in each block and at nothing else. Which
colon a statement declares is a matter of its tokens, whatever whitespace stands between them:

* `Value.exists_nodes_iff` — a value can be read exactly if its parentheses match;
* `Statement.Declares` — the colon that a statement without a block declares;
* `Statement.Plain.declares`, `Statement.Declares.exists_plain` — the parser agrees;
* `Statement.Opener.groups_eq` — a statement with a block has the colons of the block.
-/

set_option autoImplicit false

namespace TidySheet

/-! ## Colons of nodes -/

namespace Colons

open Node

/-- Where the colons of the declarations among siblings stand. -/
def colons (ns : List Node) : List Position := ns.filterMap colon?

mutual

/-- The colons of each block of a tree, in document order. -/
def groups : Node → List (List Position)
  | .leaf l _ => if l.kind = .block then [[]] else []
  | .branch l cs => if l.kind = .block then colons cs :: groupsOf cs else groupsOf cs

def groupsOf : List Node → List (List Position)
  | [] => []
  | n :: ns => groups n ++ groupsOf ns

end

@[simp] theorem colons_nil : colons [] = [] := rfl

theorem colons_cons (n : Node) (ns : List Node) :
    colons (n :: ns) = (colon? n).toList ++ colons ns := by
  unfold colons
  rw [List.filterMap_cons]
  cases colon? n <;> rfl

@[simp] theorem colons_append (ms ns : List Node) : colons (ms ++ ns) = colons ms ++ colons ns :=
  List.filterMap_append

@[simp] theorem groupsOf_nil : groupsOf [] = [] := by
  simp only [groupsOf]

@[simp] theorem groupsOf_cons (n : Node) (ns : List Node) :
    groupsOf (n :: ns) = groups n ++ groupsOf ns := by
  simp only [groupsOf]

@[simp] theorem groupsOf_append (ms ns : List Node) :
    groupsOf (ms ++ ns) = groupsOf ms ++ groupsOf ns := by
  induction ms with
  | nil => simp
  | cons m ms ih => simp [ih]

theorem groupsOf_eq_flatMap (ns : List Node) : groupsOf ns = ns.flatMap groups := by
  induction ns with
  | nil => rw [groupsOf_nil, List.flatMap_nil]
  | cons n ns ih => rw [groupsOf_cons, ih, List.flatMap_cons]

theorem colon?_of_ne {n : Node} (h : n.kind ≠ .declaration) : colon? n = none :=
  if_neg (by simpa [is] using h)

theorem kind_of_colon? {n : Node} {p : Position} (h : colon? n = some p) :
    n.kind = .declaration := by
  refine Decidable.byContradiction fun hk => ?_
  rw [colon?_of_ne hk] at h
  cases h

/-- The colon of a declaration is the first one among its children. -/
theorem colon?_branch {l : Label} {property colon : Node} {gap rest : List Node}
    (hl : l.kind = .declaration) (hp : property.kind ≠ .propertyDelimiter)
    (hg : ∀ n ∈ gap, n.kind ≠ .propertyDelimiter) (hc : colon.kind = .propertyDelimiter) :
    colon? (.branch l (property :: (gap ++ colon :: rest))) = some colon.span.first := by
  have hd : (Node.branch l (property :: (gap ++ colon :: rest))).is .declaration = true := by
    simpa [is, Node.kind, Node.label] using hl
  have hgap : gap.find? (·.is .propertyDelimiter) = none := by
    rw [List.find?_eq_none]
    intro n hn
    simpa [is] using hg n hn
  have hproperty : ¬ property.is .propertyDelimiter = true := by simpa [is] using hp
  have hcolon : colon.is .propertyDelimiter = true := by simpa [is] using hc
  rw [colon?, if_pos hd, first?, Node.children, List.find?_cons_of_neg hproperty,
    List.find?_append, hgap, Option.none_or, List.find?_cons_of_pos hcolon]
  rfl

theorem colons_of_ne {ns : List Node} (h : ∀ n ∈ ns, n.kind ≠ .declaration) : colons ns = [] := by
  induction ns with
  | nil => rfl
  | cons n ns ih =>
    rw [colons_cons, colon?_of_ne (h n (by simp)), ih fun m hm => h m (by simp [hm])]
    rfl

mutual

theorem groups_of_no_block : ∀ n : Node, n.All (fun m => m.kind ≠ .block) → groups n = []
  | .leaf l t, h => by
    have hl : l.kind ≠ .block := h.self
    rw [groups, if_neg hl]
  | .branch l cs, h => by
    have hl : l.kind ≠ .block := h.self
    rw [groups, if_neg hl, groupsOf_of_no_block cs h.children]

theorem groupsOf_of_no_block :
    ∀ ns : List Node, AllOf (fun m => m.kind ≠ .block) ns → groupsOf ns = []
  | [], _ => groupsOf_nil
  | n :: ns, h => by
    rw [allOf_cons] at h
    rw [groupsOf_cons, groups_of_no_block n h.1, groupsOf_of_no_block ns h.2, List.append_nil]

end

theorem groupsOf_inline {ns : List Node} (h : ∀ n ∈ ns, n.Inline) : groupsOf ns = [] :=
  groupsOf_of_no_block ns (Statement.no_block_inline h)

theorem colons_inline {ns : List Node} (h : ∀ n ∈ ns, n.Inline) : colons ns = [] :=
  colons_of_ne fun n hn => (h n hn).self.2.1

@[simp] theorem colons_leaves {d : Dialect} (ts : List Token) : colons (Token.leaves d ts) = [] :=
  colons_inline (Statement.leaves_inline ts)

@[simp] theorem groupsOf_leaves {d : Dialect} (ts : List Token) :
    groupsOf (Token.leaves d ts) = [] :=
  groupsOf_inline (Statement.leaves_inline ts)

theorem groups_ofChildren {k : Kind} {d : Dialect} {cs : List Node} (hk : k ≠ .block) :
    groups (.ofChildren k d cs) = groupsOf cs := by
  rw [ofChildren, groups, if_neg hk]

end Colons

/-! ## Values -/

namespace Value

/-- Whether the parentheses of tokens match, with `depth` of them open before. -/
def closes : (depth : Nat) → List Token → Bool
  | depth, [] => depth == 0
  | depth, t :: ts =>
    match t.kind, depth with
    | .leftParen, depth => closes (depth + 1) ts
    | .rightParen, 0 => false
    | .rightParen, depth + 1 => closes depth ts
    | _, depth => closes depth ts

variable {d : Dialect}

theorem closes_cons_of_ne {t : Token} (ho : t.kind ≠ .leftParen) (hc : t.kind ≠ .rightParen)
    (depth : Nat) (ts : List Token) : closes depth (t :: ts) = closes depth ts := by
  rw [closes.eq_def]
  dsimp only
  split <;> simp_all

theorem closes_leftParen {t : Token} (h : t.kind = .leftParen) (depth : Nat) (ts : List Token) :
    closes depth (t :: ts) = closes (depth + 1) ts := by
  rw [closes.eq_def]
  simp only [h]

/-- The reader gets through pieces and closes all groups. -/
def Ends (d : Dialect) (s : State) (ps : List Piece) : Prop :=
  ∃ s', ps.foldlM (State.step d) s = .ok s' ∧ s'.groups = []

theorem ends_closing (s : State) (paren : Token) (ps : List Piece) :
    Ends d s (.closing paren :: ps) ↔
      ∃ g gs, s.groups = g :: gs ∧ Ends d ⟨gs, g.close d s.nodes.reverse paren :: g.before⟩ ps := by
  obtain ⟨groups, nodes⟩ := s
  unfold Ends
  simp only [List.foldlM_cons]
  cases groups with
  | nil =>
    refine ⟨fun ⟨s', h, _⟩ => (by cases h), ?_⟩
    rintro ⟨g, gs, h, -⟩
    cases h
  | cons g gs =>
    constructor
    · intro h
      exact ⟨g, gs, rfl, h⟩
    · rintro ⟨g', gs', h, hends⟩
      cases h
      exact hends

theorem isImportantWord_kind {t : Token} (h : t.isImportantWord = true) : t.kind = .ident := by
  simp only [Token.isImportantWord, Bool.and_eq_true, beq_iff_eq] at h
  exact h.1

theorem ends_nil (s : State) : Ends d s [] ↔ closes s.groups.length [] = true := by
  constructor
  · rintro ⟨s', h, hg⟩
    cases h
    simp [closes, hg]
  · intro h
    refine ⟨s, rfl, List.eq_nil_of_length_eq_zero ?_⟩
    simpa [closes] using h

/-- **The reader ends well exactly if the parentheses match.** -/
theorem ends_iff (ts : List Token) (s : State) :
    Ends d s (pieces d ts) ↔ closes s.groups.length ts = true := by
  fun_induction pieces d ts generalizing s with
  | case1 => exact ends_nil s
  | case2 t ts hk ih =>
    rw [closes_leftParen hk]
    exact ih ⟨⟨none, t, s.nodes⟩ :: s.groups, []⟩
  | case3 t ts hk ih =>
    rw [ends_closing]
    cases hg : s.groups with
    | nil => simp [closes, hk]
    | cons g gs =>
      have hcloses : closes (g :: gs).length (t :: ts) = closes gs.length ts := by
        simp [closes, hk]
      rw [hcloses, ← ih ⟨gs, g.close d s.nodes.reverse t :: g.before⟩]
      constructor
      · rintro ⟨g', gs', h, hends⟩
        cases h
        exact hends
      · intro hends
        exact ⟨g, gs, rfl, hends⟩
  | case4 t hk u us hu ih =>
    rw [closes_cons_of_ne (by simp [hk]) (by simp [hk]), closes_leftParen hu]
    exact ih ⟨⟨some t, u, s.nodes⟩ :: s.groups, []⟩
  | case5 t hk u us _ ih =>
    rw [closes_cons_of_ne (by simp [hk]) (by simp [hk])]
    exact ih ⟨s.groups, t.leaf d :: s.nodes⟩
  | case6 t hk =>
    rw [closes_cons_of_ne (by simp [hk]) (by simp [hk])]
    exact ends_nil (d := d) ⟨s.groups, t.leaf d :: s.nodes⟩
  | case7 t hk u us hu ih =>
    have hku := isImportantWord_kind hu
    rw [closes_cons_of_ne (by simp [hk]) (by simp [hk]),
      closes_cons_of_ne (by simp [hku]) (by simp [hku])]
    exact ih ⟨s.groups, Token.joined .important d [t, u] :: s.nodes⟩
  | case8 t hk u hu hw v vs hv ih =>
    have hkv := isImportantWord_kind hv
    rw [closes_cons_of_ne (by simp [hk]) (by simp [hk]),
      closes_cons_of_ne (by simp [hw]) (by simp [hw]),
      closes_cons_of_ne (by simp [hkv]) (by simp [hkv])]
    exact ih ⟨s.groups, Token.joined .important d [t, u, v] :: s.nodes⟩
  | case9 t hk u _ _ v vs _ ih =>
    rw [closes_cons_of_ne (by simp [hk]) (by simp [hk])]
    exact ih ⟨s.groups, t.leaf d :: s.nodes⟩
  | case10 t hk u _ _ ih =>
    rw [closes_cons_of_ne (by simp [hk]) (by simp [hk])]
    exact ih ⟨s.groups, t.leaf d :: s.nodes⟩
  | case11 t hk u us _ _ ih =>
    rw [closes_cons_of_ne (by simp [hk]) (by simp [hk])]
    exact ih ⟨s.groups, t.leaf d :: s.nodes⟩
  | case12 t hk =>
    rw [closes_cons_of_ne (by simp [hk]) (by simp [hk])]
    exact ends_nil (d := d) ⟨s.groups, t.leaf d :: s.nodes⟩
  | case13 t ts ho hc _ _ ih =>
    rw [closes_cons_of_ne ho hc]
    exact ih ⟨s.groups, t.leaf d :: s.nodes⟩

/-- **A value can be read exactly if its parentheses match.** -/
theorem exists_nodes_iff {ts : List Token} :
    (∃ ns, nodes d ts = .ok ns) ↔ closes 0 ts = true := by
  have hends := ends_iff (d := d) ts .start
  change _ ↔ closes 0 ts = true at hends
  rw [← hends]
  unfold nodes
  constructor
  · rintro ⟨ns, h⟩
    obtain ⟨s, hs, h⟩ := bind_eq_ok.1 h
    refine ⟨s, hs, ?_⟩
    unfold State.finish at h
    split at h
    · assumption
    · cases h
  · rintro ⟨s, hs, hg⟩
    refine ⟨s.nodes.reverse, bind_eq_ok.2 ⟨s, hs, ?_⟩⟩
    rw [State.finish, hg]

theorem closes_cons_trivia {t : Token} (h : t.isTrivia = true) (depth : Nat) (ts : List Token) :
    closes depth (t :: ts) = closes depth ts := by
  unfold Token.isTrivia at h
  refine closes_cons_of_ne (fun hk => ?_) (fun hk => ?_) depth ts <;> simp [hk] at h

theorem closes_trivia_append {us : List Token} (hu : ∀ u ∈ us, u.isTrivia = true) (depth : Nat)
    (ts : List Token) : closes depth (us ++ ts) = closes depth ts := by
  induction us with
  | nil => rfl
  | cons u us ih =>
    rw [List.cons_append, closes_cons_trivia (hu u (by simp))]
    exact ih fun v hv => hu v (by simp [hv])

theorem closes_append_trivia {us : List Token} (hu : ∀ u ∈ us, u.isTrivia = true) (depth : Nat)
    (ts : List Token) : closes depth (ts ++ us) = closes depth ts := by
  fun_induction closes depth ts with
  | case1 depth =>
    have h := closes_trivia_append hu depth []
    rwa [List.append_nil] at h
  | case2 t ts depth hk ih =>
    rw [List.cons_append, closes_leftParen hk]
    exact ih
  | case3 t ts hk => simp [closes, hk]
  | case4 t ts depth hk ih =>
    simp only [List.cons_append, closes, hk]
    exact ih
  | case5 t ts depth ho hz hs ih =>
    have hc : t.kind ≠ .rightParen := by
      intro hk
      cases depth with
      | zero => exact hz hk rfl
      | succ n => exact hs n hk rfl
    rw [List.cons_append, closes_cons_of_ne ho hc]
    exact ih

end Value

/-! ## Statements without a block -/

namespace Statement

open Token Colons

variable {d : Dialect}

theorem cutColon?_cons_of_trivia {t : Token} (h : t.isTrivia = true) (depth : Nat)
    (ts : List Token) : cutColon? depth (t :: ts) =
      (cutColon? depth ts).map fun (before, colon, behind) => (t :: before, colon, behind) := by
  unfold isTrivia at h
  split at h <;> simp_all [cutColon?]

theorem cutColon?_trivia_append {us : List Token} (hu : ∀ u ∈ us, u.isTrivia = true) (depth : Nat)
    (ts : List Token) : cutColon? depth (us ++ ts) =
      (cutColon? depth ts).map fun (before, colon, behind) => (us ++ before, colon, behind) := by
  induction us with
  | nil => simp
  | cons u us ih =>
    rw [List.cons_append, cutColon?_cons_of_trivia (hu u (by simp)),
      ih fun v hv => hu v (by simp [hv]), Option.map_map]
    rfl

theorem cutColon?_append_trivia {us : List Token} (hu : ∀ u ∈ us, u.isTrivia = true) (depth : Nat)
    (ts : List Token) : cutColon? depth (ts ++ us) =
      (cutColon? depth ts).map fun (before, colon, behind) => (before, colon, behind ++ us) := by
  induction ts generalizing depth with
  | nil =>
    have h := cutColon?_trivia_append hu depth []
    rw [List.append_nil] at h
    exact h
  | cons t ts ih =>
    rw [List.cons_append, cutColon?, cutColon?]
    split
    · rfl
    · dsimp only
      rw [ih, Option.map_map, Option.map_map]
      rfl

/-- **The colon that a statement without a block declares**, if it declares one. -/
inductive Declares (d : Dialect) : List Token → List Position → Prop
  | none : Declares d [] []
  | atrule {t : Token} {ts : List Token} (hk : t.kind = .atKeyword)
      (hl : isLessVariable d ts = false) (hv : Value.closes 0 ts = true) : Declares d (t :: ts) []
  | raw {t : Token} {ts : List Token} (hk : ¬(t.kind = .atKeyword ∧ isLessVariable d ts = false))
      (hc : cutColon? 0 (t :: ts) = none) : Declares d (t :: ts) []
  | declaration {t colon : Token} {ts before behind : List Token}
      (hk : ¬(t.kind = .atKeyword ∧ isLessVariable d ts = false))
      (hc : cutColon? 0 (t :: ts) = some (before, colon, behind))
      (hv : Value.closes 0 behind = true) : Declares d (t :: ts) [colon.span.first]

theorem colon?_declaration (property gap : List Token) (colon : Token) (lead : List Token)
    (value : List Node) :
    colon? (.ofChildren .declaration d (declarationChildren d property gap colon lead value)) =
      some colon.span.first :=
  colon?_branch rfl Kind.noConfusion (leaves_kind_ne gap) rfl

theorem Core.declares {core : List Token} {own : List Node} (h : Core d core own) :
    (cutColon? 0 core = none ∧ colons own = []) ∨
      ∃ before colon behind, cutColon? 0 core = some (before, colon, behind) ∧
        Value.closes 0 behind = true ∧ colons own = [colon.span.first] := by
  cases h with
  | empty => exact .inl ⟨rfl, rfl⟩
  | raw hne hc => exact .inl ⟨hc, colons_of_ne (by simp [joined, Node.kind, Node.label])⟩
  | @declaration _ before behind colon n hc hn =>
    obtain ⟨value, hv, rfl⟩ := declaration_eq_ok.1 hn
    refine .inr ⟨before, colon, behind, hc, ?_, ?_⟩
    · have hcloses := Value.exists_nodes_iff.1 ⟨value, hv⟩
      have htrim := trimStart_append behind
      rw [← htrim, Value.closes_trivia_append (isTrivia_trimStart behind)]
      exact hcloses
    · rw [colons_cons, colon?_declaration]
      rfl

theorem exists_core {core before behind : List Token} {colon : Token}
    (hc : cutColon? 0 core = some (before, colon, behind)) (hv : Value.closes 0 behind = true) :
    ∃ own, Core d core own := by
  have hcloses : Value.closes 0 (trimStart behind).2 = true := by
    rw [← trimStart_append behind, Value.closes_trivia_append (isTrivia_trimStart behind)] at hv
    exact hv
  obtain ⟨value, hvalue⟩ := Value.exists_nodes_iff (d := d).2 hcloses
  exact ⟨_, .declaration hc (declaration_eq_ok.2 ⟨value, hvalue, rfl⟩)⟩

theorem cutColon?_trim (ts : List Token) : cutColon? 0 ts =
    (cutColon? 0 (trimEnd (trimStart ts).2).1).map fun (before, colon, behind) =>
      ((trimStart ts).1 ++ before, colon, behind ++ (trimEnd (trimStart ts).2).2) := by
  have hend := cutColon?_append_trivia (isTrivia_trimEnd (trimStart ts).2) 0
    (trimEnd (trimStart ts).2).1
  have hstart := cutColon?_trivia_append (isTrivia_trimStart ts) 0 (trimStart ts).2
  rw [trimEnd_append] at hend
  rw [trimStart_append, hend, Option.map_map] at hstart
  exact hstart

theorem closes_trimEnd (ts : List Token) : Value.closes 0 (trimEnd ts).1 = Value.closes 0 ts := by
  have h := Value.closes_append_trivia (isTrivia_trimEnd ts) 0 (trimEnd ts).1
  rw [trimEnd_append] at h
  exact h.symm

/-- **What the parser reads is declared.** -/
theorem Plain.declares {ts : List Token} {own : List Node} (h : Plain d ts own) :
    Declares d ts (colons own) := by
  cases h with
  | none => exact .none
  | @atrule keyword params value hk hl hv =>
    have hcloses := Value.exists_nodes_iff.1 ⟨value, hv⟩
    rw [closes_trimEnd] at hcloses
    have hcolons : colons (.ofChildren .atrule d (keyword.leaf d :: value) ::
        leaves d (trimEnd params).2) = [] := by
      rw [colons_cons, colons_leaves]
      rfl
    rw [hcolons]
    exact .atrule hk hl hcloses
  | @other t ts own hk hc =>
    have hcut := cutColon?_trim (t :: ts)
    rw [colons_append, colons_append, colons_leaves, colons_leaves, List.append_nil,
      List.nil_append]
    rcases hc.declares with ⟨hnone, hown⟩ | ⟨before, colon, behind, hsome, hv, hown⟩
    · rw [hnone] at hcut
      rw [hown]
      exact .raw hk hcut
    · rw [hsome] at hcut
      rw [hown]
      refine .declaration hk hcut ?_
      rw [Value.closes_append_trivia (isTrivia_trimEnd _)]
      exact hv

theorem Declares.unique {ts : List Token} {ps qs : List Position} (h : Declares d ts ps)
    (h' : Declares d ts qs) : ps = qs := by
  cases h with
  | none => cases h'; rfl
  | atrule hk hl =>
    cases h' with
    | atrule => rfl
    | raw hn => exact absurd ⟨hk, hl⟩ hn
    | declaration hn => exact absurd ⟨hk, hl⟩ hn
  | raw hn hc =>
    cases h' with
    | atrule hk hl => exact absurd ⟨hk, hl⟩ hn
    | raw => rfl
    | declaration _ hc' =>
      rw [hc] at hc'
      cases hc'
  | declaration hn hc =>
    cases h' with
    | atrule hk hl => exact absurd ⟨hk, hl⟩ hn
    | raw _ hc' =>
      rw [hc] at hc'
      cases hc'
    | declaration _ hc' =>
      rw [hc] at hc'
      cases hc'
      rfl

theorem Declares.plain {ts : List Token} {ps : List Position} (h : Declares d ts ps) :
    ∃ own, Plain d ts own := by
  cases h with
  | none => exact ⟨[], .none⟩
  | @atrule t ts hk hl hv =>
    rw [← closes_trimEnd] at hv
    obtain ⟨value, hvalue⟩ := Value.exists_nodes_iff (d := d).2 hv
    exact ⟨_, .atrule hk hl hvalue⟩
  | @raw t ts hk hc =>
    rw [cutColon?_trim, Option.map_eq_none_iff] at hc
    by_cases hcore : (trimEnd (trimStart (t :: ts)).2).1 = []
    · exact ⟨_, .other hk (by rw [hcore]; exact .empty)⟩
    · exact ⟨_, .other hk (.raw hcore hc)⟩
  | @declaration t colon ts before behind hk hc hv =>
    rw [cutColon?_trim, Option.map_eq_some_iff] at hc
    obtain ⟨⟨b, c, r⟩, hcore, he⟩ := hc
    cases he
    rw [Value.closes_append_trivia (isTrivia_trimEnd _)] at hv
    obtain ⟨own, hown⟩ := exists_core (d := d) hcore hv
    exact ⟨_, .other hk hown⟩

/-- **What is declared can be read.** -/
theorem Declares.exists_plain {ts : List Token} {ps : List Position} (h : Declares d ts ps) :
    ∃ own, Plain d ts own ∧ colons own = ps := by
  obtain ⟨own, hown⟩ := h.plain
  exact ⟨own, hown, hown.declares.unique h⟩

/-! ## No block stands in a statement -/

theorem groups_leaf (t : Token) : groups (t.leaf d) = [] :=
  groups_of_no_block _ (Node.All.imp (fun _ hm => hm.1) _ t.leaf_inline)

theorem Plain.groupsOf_eq {ts : List Token} {own : List Node} (h : Plain d ts own) :
    groupsOf own = [] :=
  groupsOf_of_no_block own h.no_block

/-! ## Statements with a block -/

/-- A statement with a block can be read if the parentheses of an at-rule match. -/
def Opens (head : List Token) : Prop :=
  ∀ t ts, head = t :: ts → t.kind = .atKeyword → Value.closes 0 ts = true

theorem Opener.opens {head : List Token} {block n : Node} (h : Opener d block head n) :
    Opens head := by
  intro t ts hh hk
  cases h with
  | ruleset hn => exact absurd hk (hn t (by rw [hh]; rfl))
  | atrule _ hv =>
    cases hh
    rw [← closes_trimEnd]
    exact Value.exists_nodes_iff.1 ⟨_, hv⟩

theorem Opens.exists_opener {head : List Token} (h : Opens head) (block : Node) :
    ∃ n, Opener d block head n := by
  by_cases hk : ∀ t ∈ head.head?, t.kind ≠ .atKeyword
  · exact ⟨_, .ruleset hk⟩
  · cases head with
    | nil => simp at hk
    | cons t ts =>
      have hat : t.kind = .atKeyword := by simpa using hk
      have hv := h t ts rfl hat
      rw [← closes_trimEnd] at hv
      obtain ⟨value, hvalue⟩ := Value.exists_nodes_iff (d := d).2 hv
      exact ⟨_, .atrule hat hvalue⟩

/-- **A statement with a block has the colons of the block.** -/
theorem Opener.groups_eq {head : List Token} {block n : Node} (h : Opener d block head n) :
    groups n = groups block := by
  cases h with
  | ruleset => simp [Statement.ruleset, groups_ofChildren]
  | atrule hk hv =>
    have hvalue := groupsOf_inline (Value.inlineReading_nodes hv).inline
    simp [groups_ofChildren, groups_leaf, hvalue]

theorem Opener.colons_eq {head : List Token} {block n : Node} (h : Opener d block head n) :
    colon? n = none := by
  refine colon?_of_ne ?_
  rcases h.kind_mem with hk | hk <;> rw [hk] <;> exact Kind.noConfusion

end Statement

end TidySheet
