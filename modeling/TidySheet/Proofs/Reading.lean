import TidySheet.Parse.Leaf
import TidySheet.Proofs.Spelling

/-!
# Nodes read from tokens

`Reading d ts ns` says that the nodes `ns` were made from the tokens `ts`, each token used once and
in order, and that every branch among them has the form of its kind (`Node.Sound`). All that holds
of parsed trees by their construction follows from it by one induction:

* `Reading.charsOf_eq` — the nodes print the tokens' text;
* `Reading.sound` — every node below has the form of its kind;
* `Reading.colonPlaces_sublist` — colons stand where colon tokens stand, in the same order.
-/

set_option autoImplicit false

namespace TidySheet

namespace Node

/-! ## Facts about all nodes of a tree -/

mutual

/-- `P` holds of a node and of all nodes below it. -/
def All (P : Node → Prop) : Node → Prop
  | .leaf l t => P (.leaf l t)
  | .branch l cs => P (.branch l cs) ∧ AllOf P cs

def AllOf (P : Node → Prop) : List Node → Prop
  | [] => True
  | n :: ns => All P n ∧ AllOf P ns

end

variable {P Q : Node → Prop}

@[simp] theorem all_leaf (l : Label) (t : List Char) : All P (.leaf l t) ↔ P (.leaf l t) := by
  simp only [All]

@[simp] theorem all_branch (l : Label) (cs : List Node) :
    All P (.branch l cs) ↔ P (.branch l cs) ∧ AllOf P cs := by
  simp only [All]

@[simp] theorem allOf_nil : AllOf P [] := by
  simp only [AllOf]

@[simp] theorem allOf_cons (n : Node) (ns : List Node) :
    AllOf P (n :: ns) ↔ All P n ∧ AllOf P ns := by
  simp only [AllOf]

@[simp] theorem allOf_append (ms ns : List Node) :
    AllOf P (ms ++ ns) ↔ AllOf P ms ∧ AllOf P ns := by
  induction ms with
  | nil => simp
  | cons m ms ih => simp [ih, and_assoc]

theorem allOf_iff (ns : List Node) : AllOf P ns ↔ ∀ n ∈ ns, All P n := by
  induction ns with
  | nil => simp
  | cons n ns ih => simp [ih]

theorem All.self {n : Node} (h : All P n) : P n := by
  cases n with
  | leaf l t => simpa using h
  | branch l cs => exact ((all_branch l cs).1 h).1

theorem All.children {n : Node} (h : All P n) : AllOf P n.children := by
  cases n with
  | leaf l t => simp [Node.children]
  | branch l cs => exact ((all_branch l cs).1 h).2

mutual

theorem All.imp (hi : ∀ n, P n → Q n) : ∀ n : Node, All P n → All Q n
  | .leaf l t, h => by simpa using hi _ h.self
  | .branch l cs, h => by
    rw [all_branch] at h ⊢
    exact ⟨hi _ h.1, AllOf.imp hi cs h.2⟩

theorem AllOf.imp (hi : ∀ n, P n → Q n) : ∀ ns : List Node, AllOf P ns → AllOf Q ns
  | [], _ => allOf_nil
  | n :: ns, h => by
    rw [allOf_cons] at h ⊢
    exact ⟨All.imp hi n h.1, AllOf.imp hi ns h.2⟩

end

mutual

/-- What holds of all nodes of a tree holds of all nodes of its subtrees. -/
theorem All.below : ∀ n : Node, All P n → All (All P) n
  | .leaf l t, h => by
    rw [all_leaf]
    exact h
  | .branch l cs, h => by
    rw [all_branch]
    exact ⟨h, AllOf.below cs h.children⟩

theorem AllOf.below : ∀ ns : List Node, AllOf P ns → AllOf (All P) ns
  | [], _ => allOf_nil
  | n :: ns, h => by
    rw [allOf_cons] at h ⊢
    exact ⟨All.below n h.1, AllOf.below ns h.2⟩

end

/-! ## The form of a node -/

/-- Whitespace and comments. -/
def isTrivia (n : Node) : Bool :=
  n.is .space || n.is .multilineComment || n.is .singlelineComment

/-- Nothing of a block's structure stands in a property or a value. -/
def Inline (n : Node) : Prop :=
  n.All fun m => m.kind ≠ .block ∧ m.kind ≠ .declaration ∧ m.kind ≠ .propertyDelimiter

/-- A property, its colon and its value, with whitespace and comments between them. -/
structure DeclarationForm (cs : List Node) (property : Node) (gap : List Node) (colon : Node)
    (lead : List Node) (value : Node) : Prop where
  children : cs = property :: (gap ++ colon :: (lead ++ [value]))
  property_kind : property.kind = .property
  property_inline : Inline property
  gap_trivia : ∀ n ∈ gap, n.isTrivia = true
  colon_kind : colon.kind = .propertyDelimiter
  colon_chars : colon.chars = [':']
  lead_trivia : ∀ n ∈ lead, n.isTrivia = true
  value_kind : value.kind = .value
  value_inline : Inline value

/-- Whether a delimiter stands between any two declarations; `seen` tells that one stands before
all of the nodes with no delimiter behind it. -/
def Separated : (seen : Bool) → List Node → Prop
  | _, [] => True
  | seen, n :: ns =>
    match n.kind with
    | .declarationDelimiter => Separated false ns
    | .declaration => seen = false ∧ Separated true ns
    | _ => Separated seen ns

/-- The form that the kind of a node asks for in the dialect `d`. -/
def Sound (d : Dialect) : Node → Prop
  | .leaf l t => l.dialect = d ∧ l.kind.isLeaf = true ∧
      (l.kind = .space → ∀ c ∈ t, isBlank c = true)
  | .branch l cs => l.dialect = d ∧ l.kind.isLeaf = false ∧
      (l.kind = .declaration →
        ∃ property gap colon lead value, DeclarationForm cs property gap colon lead value) ∧
      (l.kind ≠ .declaration → ∀ c ∈ cs, c.kind ≠ .propertyDelimiter) ∧
      (l.kind = .block → d.usesBraces = true → Separated false cs)

mutual

/-- Where the colons of the declarations in a tree stand, in document order. -/
def colonPlaces : Node → List Position
  | .leaf l _ => if l.kind = .propertyDelimiter then [l.span.first] else []
  | .branch _ cs => colonPlacesOf cs

def colonPlacesOf : List Node → List Position
  | [] => []
  | n :: ns => colonPlaces n ++ colonPlacesOf ns

end

end Node

namespace Token

/-! ## Leaves -/

/-- The leaves that a token can become. -/
inductive LeafOf (d : Dialect) (t : Token) : Node → Prop
  | plain : LeafOf d t (t.leaf d)
  | property (h : t.kind = .atKeyword) : LeafOf d t (t.leafAs .namedVariable d)
  | colon (h : t.kind = .colon) : LeafOf d t (.leaf ⟨.propertyDelimiter, d, t.span⟩ [':'])
  | newline (h : t.kind = .newline) : LeafOf d t (.leaf ⟨.declarationDelimiter, d, t.span⟩ ['\n'])

variable {d : Dialect} {t : Token} {n : Node}

theorem leafKind_eq_space (t : Token) :
    t.leafKind = .space ↔ t.kind = .whitespace ∨ t.kind = .newline := by
  unfold leafKind
  split <;> (try split) <;> simp_all

theorem leafKind_eq_multilineComment (t : Token) :
    t.leafKind = .multilineComment ↔ t.kind = .comment := by
  unfold leafKind
  split <;> (try split) <;> simp_all

theorem leafKind_eq_singlelineComment (t : Token) :
    t.leafKind = .singlelineComment ↔ t.kind = .lineComment := by
  unfold leafKind
  split <;> (try split) <;> simp_all

theorem leafKind_isLeaf (t : Token) : t.leafKind.isLeaf = true := by
  unfold leafKind
  split <;> (try split) <;> rfl

theorem leafKind_ne_propertyDelimiter (t : Token) : t.leafKind ≠ .propertyDelimiter := by
  unfold leafKind
  split <;> (try split) <;> simp

theorem leafKind_ne_declaration (t : Token) : t.leafKind ≠ .declaration := by
  unfold leafKind
  split <;> (try split) <;> simp

theorem leafText_eq_text (hc : t.kind ≠ .comment) (hl : t.kind ≠ .lineComment) :
    t.leafText = t.text := by
  unfold leafText
  split <;> simp_all

theorem leafMarks_leafKind (hc : t.kind ≠ .comment) (hl : t.kind ≠ .lineComment) :
    Node.leafMarks t.leafKind = ([], []) := by
  unfold Node.leafMarks
  split
  · rename_i h
    exact absurd ((leafKind_eq_multilineComment t).1 h) hc
  · rename_i h
    exact absurd ((leafKind_eq_singlelineComment t).1 h) hl
  · rfl

theorem leaf_chars (h : t.Spelled) : (t.leaf d).chars = t.text := by
  by_cases hc : t.kind = .comment
  · simp only [Spelled, hc] at h
    obtain ⟨inner, hi⟩ := h
    simp [leaf, leafKind, leafText, hc, hi, Node.chars, Node.leafMarks]
  by_cases hl : t.kind = .lineComment
  · simp only [Spelled, hl] at h
    obtain ⟨inner, hi⟩ := h
    simp [leaf, leafKind, leafText, hl, hi, Node.chars, Node.leafMarks]
  · simp [leaf, Node.chars, leafMarks_leafKind hc hl, leafText_eq_text hc hl]

theorem leafText_blank (h : t.Spelled) (hk : t.leafKind = .space) :
    ∀ c ∈ t.leafText, isBlank c = true := by
  rcases (leafKind_eq_space t).1 hk with hw | hw
  · rw [leafText_eq_text (by simp [hw]) (by simp [hw])]
    simpa [Spelled, hw] using h
  · rw [leafText_eq_text (by simp [hw]) (by simp [hw])]
    simp only [Spelled, hw] at h
    intro c hc
    rw [h] at hc
    rw [List.mem_singleton.1 hc]
    rfl

theorem LeafOf.chars_eq (h : LeafOf d t n) (hs : t.Spelled) : n.chars = t.text := by
  obtain ⟨k, text, s⟩ := t
  cases h with
  | plain => exact leaf_chars hs
  | property hk => simp [leafAs, Node.chars, Node.leafMarks]
  | colon hk =>
    cases hk
    simpa [Node.chars, Node.leafMarks, Spelled, eq_comm] using hs
  | newline hk =>
    cases hk
    simpa [Node.chars, Node.leafMarks, Spelled, eq_comm] using hs

theorem LeafOf.sound (h : LeafOf d t n) (hs : t.Spelled) : n.Sound d := by
  cases h with
  | plain => exact ⟨rfl, leafKind_isLeaf t, leafText_blank hs⟩
  | property hk => exact ⟨rfl, rfl, fun h => by cases h⟩
  | colon hk => exact ⟨rfl, rfl, fun h => by cases h⟩
  | newline hk => exact ⟨rfl, rfl, fun h => by cases h⟩

theorem LeafOf.eq_leaf (h : LeafOf d t n) : ∃ l text, n = .leaf l text ∧ l.span = t.span := by
  cases h <;> exact ⟨_, _, rfl, rfl⟩

theorem chars_joined {k : Kind} (hk : k = .raw ∨ k = .important) (run : List Token) :
    (joined k d run).chars = textOf run := by
  rcases hk with rfl | rfl <;> simp [joined, Node.chars, Node.leafMarks]

theorem colonPlaces_joined {k : Kind} (hk : k = .raw ∨ k = .important) (run : List Token) :
    (joined k d run).colonPlaces = [] := by
  rcases hk with rfl | rfl <;> simp [joined, Node.colonPlaces]

theorem LeafOf.colonPlaces_eq (h : LeafOf d t n) (hk : t.kind ≠ .colon) : n.colonPlaces = [] := by
  cases h with
  | plain => rw [leaf, Node.colonPlaces, if_neg (leafKind_ne_propertyDelimiter t)]
  | property => simp [leafAs, Node.colonPlaces]
  | colon hc => exact absurd hc hk
  | newline => simp [Node.colonPlaces]

end Token

/-! ## Readings -/

/-- The tokens of the marks around the children of a branch, which reaches from the one to the
other. -/
inductive MarksOf (l : Label) : List Token → List Token → Prop
  | braces {a b : Token} (hl : Node.branchMarks l = (['{'], ['}'])) (ha : a.kind = .leftBrace)
      (hb : b.kind = .rightBrace) (hs : l.span = ⟨a.span.first, b.span.last⟩) : MarksOf l [a] [b]
  | parentheses {a b : Token} (hl : Node.branchMarks l = (['('], [')'])) (ha : a.kind = .leftParen)
      (hb : b.kind = .rightParen) (hs : l.span = ⟨a.span.first, b.span.last⟩) : MarksOf l [a] [b]
  | none (hl : Node.branchMarks l = ([], [])) : MarksOf l [] []

/-- **The nodes `ns` are read from the tokens `ts`.** -/
inductive Reading (d : Dialect) : List Token → List Node → Prop
  | nil : Reading d [] []
  | token {t : Token} {n : Node} {ts : List Token} {ns : List Node} (hn : t.LeafOf d n)
      (hr : Reading d ts ns) : Reading d (t :: ts) (n :: ns)
  | run {k : Kind} {run ts : List Token} {ns : List Node} (hk : k = .raw ∨ k = .important)
      (hne : run ≠ []) (hr : Reading d ts ns) : Reading d (run ++ ts) (Token.joined k d run :: ns)
  | branch {l : Label} {opening inner closing ts : List Token} {cs ns : List Node}
      (hm : MarksOf l opening closing) (hs : Node.Sound d (.branch l cs)) (hi : Reading d inner cs)
      (hr : Reading d ts ns) :
      Reading d (opening ++ (inner ++ (closing ++ ts))) (.branch l cs :: ns)

theorem MarksOf.eq_text {l : Label} {opening closing : List Token} (h : MarksOf l opening closing)
    (hs : ∀ t ∈ opening ++ closing, t.Spelled) :
    Node.branchMarks l = (Token.textOf opening, Token.textOf closing) := by
  cases h with
  | @braces a b hl ha hb _ =>
    have hsa := hs a (by simp)
    have hsb := hs b (by simp)
    simp only [Token.Spelled, ha, hb] at hsa hsb
    simp [hl, hsa, hsb]
  | @parentheses a b hl ha hb _ =>
    have hsa := hs a (by simp)
    have hsb := hs b (by simp)
    simp only [Token.Spelled, ha, hb] at hsa hsb
    simp [hl, hsa, hsb]
  | none hl => simp [hl]

namespace Reading

variable {d : Dialect} {ts us : List Token} {ns ms : List Node}

theorem append (h : Reading d ts ns) (h' : Reading d us ms) : Reading d (ts ++ us) (ns ++ ms) := by
  induction h with
  | nil => exact h'
  | token hn _ ih => exact .token hn ih
  | run hk hne _ ih => rw [List.append_assoc]; exact .run hk hne ih
  | branch hm hs hi _ _ ih =>
    simp only [List.append_assoc]
    exact .branch hm hs hi ih

/-- **The nodes print the text of the tokens.** -/
theorem charsOf_eq (h : Reading d ts ns) (hs : ∀ t ∈ ts, t.Spelled) :
    Node.charsOf ns = Token.textOf ts := by
  induction h with
  | nil => simp
  | token hn _ ih =>
    have ht := hn.chars_eq (hs _ (by simp))
    simp [ht, ih fun t h => hs t (by simp [h])]
  | @run k run ts ns hk _ _ ih =>
    simp [Token.chars_joined hk, ih fun t h => hs t (by simp [h])]
  | @branch l opening inner closing ts cs ns hm _ _ _ ihi ih =>
    have hl := hm.eq_text fun t h => hs t (by
      rcases List.mem_append.1 h with h | h <;> simp [h])
    have hi := ihi fun t h => hs t (by simp [h])
    simp [Node.chars, hl, hi, ih fun t h => hs t (by simp [h])]

/-- Every node below has the form of its kind. -/
theorem sound (h : Reading d ts ns) (hs : ∀ t ∈ ts, t.Spelled) : Node.AllOf (Node.Sound d) ns := by
  induction h with
  | nil => simp
  | token hn _ ih =>
    obtain ⟨l, text, rfl, -⟩ := hn.eq_leaf
    simp only [Node.allOf_cons, Node.all_leaf]
    exact ⟨hn.sound (hs _ (by simp)), ih fun t h => hs t (by simp [h])⟩
  | @run k run ts ns hk _ _ ih =>
    simp only [Node.allOf_cons, Token.joined, Node.all_leaf]
    refine ⟨?_, ih fun t h => hs t (by simp [h])⟩
    rcases hk with rfl | rfl <;> exact ⟨rfl, rfl, fun h => by cases h⟩
  | branch _ hb _ _ ihi ih =>
    simp only [Node.allOf_cons, Node.all_branch]
    exact ⟨⟨hb, ihi fun t h => hs t (by simp [h])⟩, ih fun t h => hs t (by simp [h])⟩

/-- **Colons of declarations stand where colons of the text stand.** -/
theorem colonPlaces_sublist (h : Reading d ts ns) : (Node.colonPlacesOf ns).Sublist
    ((ts.filter (·.kind == .colon)).map fun t => t.span.first) := by
  induction h with
  | nil => simp [Node.colonPlacesOf]
  | @token t n ts ns hn _ ih =>
    rw [Node.colonPlacesOf]
    by_cases ht : t.kind = .colon
    · rw [List.filter_cons_of_pos (by simpa using ht), List.map_cons]
      obtain ⟨l, text, rfl, hl⟩ := hn.eq_leaf
      rw [Node.colonPlaces, ← hl]
      split
      · exact ih.cons_cons _
      · exact ih.cons _
    · rw [List.filter_cons_of_neg (by simpa using ht), hn.colonPlaces_eq ht]
      exact ih
  | @run k run ts ns hk _ _ ih =>
    simp only [Node.colonPlacesOf, Token.colonPlaces_joined hk, List.nil_append, List.filter_append, List.map_append]
    exact ih.trans (List.sublist_append_right _ _)
  | @branch l opening inner closing ts cs ns _ _ _ _ ihi ih =>
    simp only [Node.colonPlacesOf, Node.colonPlaces, List.filter_append, List.map_append]
    have hr := ih.trans (List.sublist_append_right
      ((closing.filter (·.kind == .colon)).map fun t => t.span.first) _)
    exact (ihi.append hr).trans (List.sublist_append_right _ _)

theorem exists_colon (h : Reading d ts ns) {p : Position} (hp : p ∈ Node.colonPlacesOf ns) :
    ∃ t ∈ ts, t.kind = .colon ∧ t.span.first = p := by
  obtain ⟨t, ht, htp⟩ := List.mem_map.1 (h.colonPlaces_sublist.subset hp)
  obtain ⟨hmem, hk⟩ := List.mem_filter.1 ht
  exact ⟨t, hmem, by simpa using hk, htp⟩

end Reading

end TidySheet
