import TidySheet.Proofs.Forms
import TidySheet.Proofs.Lossless
import TidySheet.Proofs.Respacing

/-!
# Spans are exact

The lexer counts lines and columns token by token, and the parser puts the spans of nodes together
from those of tokens. Here places are told from the text alone: `Position.behind s` is the place of
the character that follows the text `s`.

* `Lexes.located` — every token stands where the text before it ends;
* `Node.printed` — the nodes of a tree in document order, each with the text printed before it;
* `Reading.exact` — nodes read from located tokens have the spans of what they print;
* `exactSpans_of_parse` — the spans of leaves and brackets in a parsed tree, and that leaves follow
  each other and leave out only brackets.
-/

set_option autoImplicit false

namespace TidySheet

/-! ## Places in a text -/

namespace Position

/-- The place of the character that follows a text: its line counts the newlines of the text, its
column the characters since the last one. -/
def behind (before : List Char) : Position :=
  ⟨before.count '\n' + 1, (before.reverse.takeWhile (· != '\n')).length + 1⟩

theorem next_behind (s : List Char) (c : Char) : (behind s).next c = behind (s ++ [c]) := by
  unfold next behind
  by_cases hc : c = '\n'
  · simp [hc]
  · simp [hc]

/-- Counting on from a place is counting from the start. -/
theorem behind_append (s t : List Char) : behind (s ++ t) = (behind s).after t := by
  induction t generalizing s with
  | nil => simp
  | cons c t ih => rw [after_cons, next_behind, ← ih, List.append_assoc, List.singleton_append]

theorem behind_before (s : List Char) {t : List Char} (ht : t ≠ []) :
    (behind s).Before (behind (s ++ t)) := by
  rw [behind_append]
  exact before_after _ ht

theorem not_before_behind (s t : List Char) : ¬ (behind (s ++ t)).Before (behind s) := by
  intro h
  by_cases ht : t = []
  · rw [ht, List.append_nil] at h
    exact Before.irrefl _ h
  · exact Before.irrefl _ (h.trans (behind_before s ht))

end Position

namespace Token

/-- The tokens stand behind `before`, one after the other. -/
def Located : List Char → List Token → Prop
  | _, [] => True
  | before, t :: ts =>
    t.text ≠ [] ∧ t.span = .ofText (.behind before) t.text ∧ Located (before ++ t.text) ts

variable {before : List Char} {ts us : List Token}

theorem located_append : Located before (ts ++ us) ↔
    Located before ts ∧ Located (before ++ textOf ts) us := by
  induction ts generalizing before with
  | nil => simp [Located]
  | cons t ts ih => simp [Located, ih, and_assoc]

/-- A run of tokens reaches from its first character to its last. -/
theorem spanOf_of_located (h : Located before ts) (hne : ts ≠ []) :
    textOf ts ≠ [] ∧ spanOf ts = .ofText (.behind before) (textOf ts) := by
  have hfirst : (ts.head?.map fun t => t.span.first).getD .unplaced = .behind before := by
    cases ts with
    | nil => exact absurd rfl hne
    | cons t ts =>
      show t.span.first = _
      rw [h.2.1]
      rfl
  rcases List.eq_nil_or_concat ts with rfl | ⟨init, t, rfl⟩
  · exact absurd rfl hne
  · rw [List.concat_eq_append] at h hfirst ⊢
    obtain ⟨htext, hspan, -⟩ := (located_append.1 h).2
    have hlast : t.span.last = (Position.behind before).after (textOf init ++ t.text.dropLast) := by
      rw [hspan, Position.after_append, ← Position.behind_append]
      rfl
    refine ⟨by simp [htext], ?_⟩
    unfold spanOf Span.ofText
    rw [hfirst]
    simp [hlast, List.dropLast_append_of_ne_nil htext]

end Token

theorem Lexes.located {d : Dialect} {p : Position} {cs : List Char} {ts : List Token}
    (h : Lexes d p cs ts) : ∀ before, p = .behind before → Token.Located before ts := by
  induction h with
  | nil p => exact fun _ _ => trivial
  | @cons p c a r k ts _ _ ih =>
    rintro before rfl
    exact ⟨by simp, rfl, ih _ (Position.behind_append before (c :: a)).symm⟩

/-! ## Nodes and the text before them -/

namespace Node

mutual

/-- The nodes of a tree in document order, each with the text printed before it; `before` stands
before the whole tree. -/
def printed (before : List Char) (n : Node) : List (List Char × Node) :=
  match n with
  | .leaf l t => [(before, .leaf l t)]
  | .branch l cs => (before, .branch l cs) :: printedOf (before ++ (branchMarks l).1) cs

def printedOf (before : List Char) (ns : List Node) : List (List Char × Node) :=
  match ns with
  | [] => []
  | n :: ns => printed before n ++ printedOf (before ++ n.chars) ns

end

/-- The leaves of a tree in document order, each with the text printed before it. -/
def printedLeaves (before : List Char) (n : Node) : List (List Char × Node) :=
  (n.printed before).filter (·.2.text?.isSome)

theorem printed_eq (before : List Char) (n : Node) :
    ∃ lead, n.printed before = (before, n) :: printedOf lead n.children := by
  cases n with
  | leaf l t => exact ⟨before, by rw [printed, children, printedOf]⟩
  | branch l cs => exact ⟨before ++ (branchMarks l).1, by rw [printed, children]⟩

/-- No node is left out. -/
theorem map_snd_printed (n : Node) (before : List Char) :
    (n.printed before).map Prod.snd = n :: n.visits.map Visit.node := by
  have hbelow : ∀ before, (printedOf before n.children).map Prod.snd = n.visits.map Visit.node := by
    refine visits_induction (motive := fun _ ns vs => ∀ before,
      (printedOf before ns).map Prod.snd = vs.map Visit.node) ?_ ?_ n
    · exact fun _ before => by rw [printedOf]; rfl
    · intro _ _ m ms _ _ hm hms before
      obtain ⟨lead, hlead⟩ := printed_eq before m
      rw [printedOf, hlead, List.map_append, List.map_cons, hm, hms, List.map_cons,
        List.map_append, List.cons_append]
  obtain ⟨lead, hlead⟩ := printed_eq before n
  rw [hlead, List.map_cons, hbelow]

theorem forall_mem_printed {P : Node → Prop} {n : Node} (h : n.All P) (before : List Char) :
    ∀ x ∈ n.printed before, P x.2 := by
  intro x hx
  have hmem : x.2 ∈ n :: n.visits.map Visit.node := by
    rw [← map_snd_printed n before]
    exact List.mem_map_of_mem hx
  rcases List.mem_cons.1 hmem with he | hmem
  · rw [he]
    exact h.self
  · obtain ⟨v, hv, he⟩ := List.mem_map.1 hmem
    rw [← he]
    exact (forall_visits n).2 h.children v hv

mutual

/-- What a node prints stands in what the tree prints. -/
theorem exists_of_mem_printed : ∀ (n : Node) {before : List Char} {x : List Char × Node},
    x ∈ n.printed before → ∃ a b, x.1 = before ++ a ∧ n.chars = a ++ (x.2.chars ++ b)
  | .leaf l t, before, x, hx => by
    rw [printed, List.mem_singleton] at hx
    rw [hx]
    exact ⟨[], [], by simp, by simp⟩
  | .branch l cs, before, x, hx => by
    rw [printed] at hx
    rcases List.mem_cons.1 hx with rfl | hx
    · exact ⟨[], [], by simp, by simp⟩
    · obtain ⟨a, b, ha, hb⟩ := exists_of_mem_printedOf cs hx
      exact ⟨(branchMarks l).1 ++ a, b ++ (branchMarks l).2, by simp [ha], by simp [chars, hb]⟩

theorem exists_of_mem_printedOf : ∀ (ns : List Node) {before : List Char} {x : List Char × Node},
    x ∈ printedOf before ns → ∃ a b, x.1 = before ++ a ∧ charsOf ns = a ++ (x.2.chars ++ b)
  | [], before, x, hx => by simp [printedOf] at hx
  | n :: ns, before, x, hx => by
    rw [printedOf] at hx
    rcases List.mem_append.1 hx with hx | hx
    · obtain ⟨a, b, ha, hb⟩ := exists_of_mem_printed n hx
      exact ⟨a, b ++ charsOf ns, ha, by simp [hb]⟩
    · obtain ⟨a, b, ha, hb⟩ := exists_of_mem_printedOf ns hx
      exact ⟨n.chars ++ a, b, by simp [ha], by simp [hb]⟩

end

/-- What the first node prints stands before the second. -/
def Precedes (x y : List Char × Node) : Prop := ∃ gap, y.1 = x.1 ++ (x.2.chars ++ gap)

mutual

/-- Leaves follow each other. -/
theorem pairwise_printed : ∀ (n : Node) (before : List Char),
    ((n.printed before).filter (·.2.text?.isSome)).Pairwise Precedes
  | .leaf l t, before => by
    rw [printed]
    exact (List.pairwise_singleton Precedes _).filter _
  | .branch l cs, before => by
    rw [printed, List.filter_cons_of_neg (by simp [text?])]
    exact pairwise_printedOf cs _

theorem pairwise_printedOf : ∀ (ns : List Node) (before : List Char),
    ((printedOf before ns).filter (·.2.text?.isSome)).Pairwise Precedes
  | [], before => by simp [printedOf]
  | n :: ns, before => by
    rw [printedOf, List.filter_append, List.pairwise_append]
    refine ⟨pairwise_printed n before, pairwise_printedOf ns _, fun x hx y hy => ?_⟩
    obtain ⟨a, b, ha, hb⟩ := exists_of_mem_printed n (List.mem_filter.1 hx).1
    obtain ⟨a', b', ha', -⟩ := exists_of_mem_printedOf ns (List.mem_filter.1 hy).1
    exact ⟨b ++ a', by simp [ha', ha, hb]⟩

end

/-! ## Where each character comes from -/

/-- The character behind `before` is one of the node's own: one of a leaf, or the bracket that
opens or closes a branch. -/
inductive Prints (before : List Char) (c : Char) : List Char × Node → Prop
  | leaf {start a b text : List Char} {l : Label} (hc : (Node.leaf l text).chars = a ++ c :: b)
      (hb : before = start ++ a) : Prints before c (start, .leaf l text)
  | opening {l : Label} {cs : List Node} (hc : (branchMarks l).1 = [c]) :
      Prints before c (before, .branch l cs)
  | closing {start : List Char} {l : Label} {cs : List Node} (hc : (branchMarks l).2 = [c])
      (hb : before ++ [c] = start ++ (Node.branch l cs).chars) :
      Prints before c (start, .branch l cs)

theorem length_branchMarks_le (l : Label) :
    (branchMarks l).1.length ≤ 1 ∧ (branchMarks l).2.length ≤ 1 := by
  unfold branchMarks
  split <;> (try split) <;> simp

theorem mem_brackets {l : Label} {c : Char} (h : c ∈ (branchMarks l).1 ++ (branchMarks l).2) :
    c ∈ ['{', '}', '(', ')'] := by
  have hmarks : branchMarks l ∈ [([], []), (['{'], ['}']), (['('], [')'])] := by
    unfold branchMarks
    split <;> (try split) <;> simp
  simp only [List.mem_cons, List.not_mem_nil, or_false] at hmarks
  rcases hmarks with hm | hm | hm <;> rw [hm] at h
  · cases h
  · exact List.mem_append_left ['(', ')'] h
  · exact List.mem_append_right ['{', '}'] h

/-- A text of one character at most is that character. -/
theorem eq_singleton_of_length_le {s a b : List Char} {c : Char} (h : s.length ≤ 1)
    (hs : s = a ++ c :: b) : a = [] ∧ b = [] ∧ s = [c] := by
  rw [hs, List.length_append, List.length_cons] at h
  have ha : a = [] := List.length_eq_zero_iff.1 (by omega)
  have hb : b = [] := List.length_eq_zero_iff.1 (by omega)
  exact ⟨ha, hb, by rw [hs, ha, hb]; rfl⟩

/-- A character of two texts in a row is one of the first or one of the second. -/
theorem append_eq_append_cons {s t a b : List Char} {c : Char} (h : s ++ t = a ++ c :: b) :
    (∃ u, s = a ++ c :: u) ∨ ∃ v, a = s ++ v ∧ t = v ++ c :: b := by
  rcases List.append_eq_append_iff.1 h with ⟨v, ha, ht⟩ | ⟨u, hs, hu⟩
  · exact .inr ⟨v, ha, ht⟩
  · cases u with
    | nil => exact .inr ⟨[], by simpa using hs.symm, by simpa using hu.symm⟩
    | cons x u =>
      rw [List.cons_append, List.cons.injEq] at hu
      exact .inl ⟨u, by rw [hs, hu.1]⟩

mutual

/-- Each printed character is some node's own. -/
theorem exists_prints : ∀ (n : Node) (before : List Char) {a b : List Char} {c : Char},
    n.chars = a ++ c :: b → ∃ x ∈ n.printed before, Prints (before ++ a) c x
  | .leaf l t, before, a, b, c, h => ⟨(before, .leaf l t), by simp [printed], .leaf h rfl⟩
  | .branch l cs, before, a, b, c, h => by
    have hself : (before, Node.branch l cs) ∈ (Node.branch l cs).printed before := by
      rw [printed]
      exact List.mem_cons_self
    obtain ⟨hopen, hclose⟩ := length_branchMarks_le l
    have hparts : (branchMarks l).1 ++ (charsOf cs ++ (branchMarks l).2) = a ++ c :: b := by
      rw [← h, chars, List.append_assoc]
    rcases append_eq_append_cons hparts with ⟨u, hu⟩ | ⟨v, rfl, hv⟩
    · obtain ⟨rfl, -, hc⟩ := eq_singleton_of_length_le hopen hu
      rw [List.append_nil]
      exact ⟨_, hself, .opening hc⟩
    rcases append_eq_append_cons hv with ⟨u, hu⟩ | ⟨w, rfl, hw⟩
    · obtain ⟨x, hx, hp⟩ := exists_printsOf cs (before ++ (branchMarks l).1) hu
      refine ⟨x, ?_, by rwa [← List.append_assoc]⟩
      rw [printed]
      exact List.mem_cons_of_mem _ hx
    · obtain ⟨rfl, -, hc⟩ := eq_singleton_of_length_le hclose hw
      exact ⟨_, hself, .closing hc (by simp [chars, hc])⟩

theorem exists_printsOf : ∀ (ns : List Node) (before : List Char) {a b : List Char} {c : Char},
    charsOf ns = a ++ c :: b → ∃ x ∈ printedOf before ns, Prints (before ++ a) c x
  | [], before, a, b, c, h => by simp at h
  | n :: ns, before, a, b, c, h => by
    rw [charsOf_cons] at h
    rw [printedOf]
    rcases append_eq_append_cons h with ⟨u, hu⟩ | ⟨v, rfl, hv⟩
    · obtain ⟨x, hx, hp⟩ := exists_prints n before hu
      exact ⟨x, List.mem_append_left _ hx, hp⟩
    · obtain ⟨x, hx, hp⟩ := exists_printsOf ns (before ++ n.chars) hv
      exact ⟨x, List.mem_append_right _ hx, by rwa [← List.append_assoc]⟩

end

/-! ## Spans -/

/-- Whether the first and the last character that a node prints are its own. -/
def hasEnds : Node → Bool
  | .leaf _ _ => true
  | .branch l _ => branchMarks l != ([], [])

/-- A node with characters of its own at its ends has the span of what it prints behind
`before`. -/
def Exact (before : List Char) (n : Node) : Prop :=
  n.hasEnds = true → n.chars ≠ [] ∧ n.span = .ofText (.behind before) n.chars

end Node

theorem Token.spanOf_enclosed (a b : Token) (inner : List Token) :
    spanOf ([a] ++ (inner ++ [b])) = ⟨a.span.first, b.span.last⟩ := by
  unfold spanOf
  rw [← List.append_assoc, List.getLast?_concat]
  rfl

/-- A branch with marks reaches from the one to the other. -/
theorem MarksOf.spanOf_eq {l : Label} {opening closing : List Token} (h : MarksOf l opening closing)
    (hm : Node.branchMarks l ≠ ([], [])) (inner : List Token) :
    opening ≠ [] ∧ l.span = Token.spanOf (opening ++ (inner ++ closing)) := by
  cases h with
  | braces _ _ _ hs => exact ⟨by simp, by rw [hs, Token.spanOf_enclosed]⟩
  | parentheses _ _ _ hs => exact ⟨by simp, by rw [hs, Token.spanOf_enclosed]⟩
  | none hl => exact absurd hl hm

/-- **Nodes have the spans of what they print**, if they are read from located tokens. -/
theorem Reading.exact {d : Dialect} {ts : List Token} {ns : List Node} (h : Reading d ts ns)
    (hs : ∀ t ∈ ts, t.Spelled) : ∀ before, Token.Located before ts →
      ∀ x ∈ Node.printedOf before ns, Node.Exact x.1 x.2 := by
  induction h with
  | nil => simp [Node.printedOf]
  | @token t n ts ns hn _ ih =>
    intro before hl x hx
    obtain ⟨htext, hspan, hrest⟩ := hl
    have hchars := hn.chars_eq (hs t (by simp))
    rw [Node.printedOf, hchars] at hx
    rcases List.mem_append.1 hx with hx | hx
    · obtain ⟨l, text, rfl, hlabel⟩ := hn.eq_leaf
      rw [Node.printed, List.mem_singleton] at hx
      rw [hx]
      intro _
      rw [hchars]
      exact ⟨htext, hlabel.trans hspan⟩
    · exact ih (fun u hu => hs u (by simp [hu])) _ hrest x hx
  | @run k run ts ns hk hne _ ih =>
    intro before hl x hx
    obtain ⟨hrun, hrest⟩ := Token.located_append.1 hl
    have hchars := Token.chars_joined (d := d) hk run
    rw [Node.printedOf, hchars] at hx
    rcases List.mem_append.1 hx with hx | hx
    · rw [Token.joined, Node.printed, List.mem_singleton] at hx
      rw [hx]
      intro _
      rw [← Token.joined, hchars]
      exact Token.spanOf_of_located hrun hne
    · exact ih (fun u hu => hs u (by simp [hu])) _ hrest x hx
  | @branch l opening inner closing ts cs ns hm _ hi _ ihi ih =>
    intro before hl x hx
    have hmarks := hm.eq_text fun t ht => hs t (by
      rcases List.mem_append.1 ht with ht | ht <;> simp [ht])
    have hinner := hi.charsOf_eq fun t ht => hs t (by simp [ht])
    have hchars : (Node.branch l cs).chars = Token.textOf (opening ++ (inner ++ closing)) := by
      simp [Node.chars, hmarks, hinner]
    have hcut : opening ++ (inner ++ (closing ++ ts)) = (opening ++ (inner ++ closing)) ++ ts := by
      simp
    rw [hcut] at hl
    obtain ⟨hown, hrest⟩ := Token.located_append.1 hl
    rw [Node.printedOf, hchars] at hx
    rcases List.mem_append.1 hx with hx | hx
    · rw [Node.printed] at hx
      rcases List.mem_cons.1 hx with rfl | hx
      · intro hends
        obtain ⟨hne, hspan⟩ := hm.spanOf_eq (by simpa [Node.hasEnds] using hends) inner
        have hspanOf := Token.spanOf_of_located hown (by simp [hne])
        rw [← hspan, ← hchars] at hspanOf
        exact hspanOf
      · have hopen := (Token.located_append.1 (Token.located_append.1 hown).2).1
        rw [hmarks] at hx
        exact ihi (fun t ht => hs t (by simp [ht])) _ hopen x hx
    · exact ih (fun t ht => hs t (by simp [ht])) _ hrest x hx

/-! ## Exact spans -/

/-- The span names the places of the first and of the last character of `text`, which stands in the
source behind `before`. -/
structure Span.Covers (source before text : List Char) (s : Span) : Prop where
  ne_nil : text ≠ []
  stands : before ++ text <+: source
  first_eq : s.first = .behind before
  last_eq : s.last = .behind (before ++ text.dropLast)

/-- Whether a place is in a span. -/
def Span.Holds (s : Span) (p : Position) : Prop := ¬ p.Before s.first ∧ ¬ s.last.Before p

/-- The children of the node stand in the source between two brackets, the first of them behind
`before`, and the span of the node names the places of these two. -/
structure Node.Bracketed (source : List Char) (opening closing : Char) (before : List Char)
    (n : Node) : Prop where
  stands : before ++ opening :: (charsOf n.children ++ [closing]) <+: source
  first_eq : n.span.first = .behind before
  last_eq : n.span.last = .behind (before ++ opening :: charsOf n.children)

/-- Every place of the source belongs to the leaf or the bracket that stands there. -/
structure ExactSpans (d : Dialect) (source : List Char) (tree : Node) : Prop where
  leaf : ∀ x ∈ tree.printedLeaves [], x.2.span.Covers source x.1 x.2.chars
  group : ∀ x ∈ tree.printed [], x.2.kind = .arguments ∨ x.2.kind = .parentheses →
    x.2.Bracketed source '(' ')' x.1
  block : ∀ x ∈ tree.printed [], x.2.kind = .block → d.usesBraces = true →
    x.2.Bracketed source '{' '}' x.1
  forward : ∀ x ∈ tree.printedLeaves [], ¬ x.2.span.last.Before x.2.span.first
  ascending : (tree.printedLeaves []).Pairwise fun x y => x.2.span.last.Before y.2.span.first
  gapless : ∀ a c b, source = a ++ c :: b →
    (∃ x ∈ tree.printedLeaves [], x.2.span.Holds (.behind a)) ∨
    c ∈ ['{', '}', '(', ')'] ∧ ∃ x ∈ tree.printed [],
      (Node.branchMarks x.2.label).1 = [c] ∧ x.2.span.first = .behind a ∨
      (Node.branchMarks x.2.label).2 = [c] ∧ x.2.span.last = .behind a

variable {d : Dialect} {source : List Char} {tree : Node}

theorem Parsed.exact {ts : List Token} {ns : List Node} (hp : Parsed d source tree ts ns) :
    ∀ x ∈ tree.printed [], x.2.Exact x.1 := by
  have hlocated := (tokens_eq_ok.1 hp.tokens_eq).located [] rfl
  intro x hx
  rw [hp.tree_eq, Node.ofChildren, Node.printed] at hx
  rcases List.mem_cons.1 hx with rfl | hx
  · intro hends
    cases hends
  · exact hp.reading.exact hp.spelled [] hlocated x hx

namespace Node

variable {x : List Char × Node}

theorem Exact.covers (h : x.2.Exact x.1) (hx : x ∈ tree.printed []) (hends : x.2.hasEnds = true) :
    x.2.span.Covers tree.chars x.1 x.2.chars := by
  obtain ⟨hne, hspan⟩ := h hends
  obtain ⟨a, b, ha, hb⟩ := exists_of_mem_printed tree hx
  refine ⟨hne, ⟨b, ?_⟩, by rw [hspan]; rfl, ?_⟩
  · rw [hb, ha, List.nil_append, List.append_assoc]
  · rw [hspan, Position.behind_append]
    rfl

theorem Exact.bracketed {o c : Char} (h : x.2.Exact x.1) (hx : x ∈ tree.printed [])
    (hs : x.2.Sound d) (hl : x.2.kind.isLeaf = false) (hm : branchMarks x.2.label = ([o], [c])) :
    x.2.Bracketed tree.chars o c x.1 := by
  obtain ⟨before, n⟩ := x
  obtain ⟨l, cs, rfl⟩ := hs.kindFits.eq_branch hl
  have hmarks : branchMarks l = ([o], [c]) := hm
  have hchars : (branch l cs).chars = o :: (charsOf cs ++ [c]) := by simp [chars, hmarks]
  have hcovers := h.covers hx (by simp [hasEnds, hmarks])
  rw [hchars] at hcovers
  refine ⟨hcovers.stands, hcovers.first_eq, ?_⟩
  rw [hcovers.last_eq, ← List.cons_append, List.dropLast_concat]
  rfl

theorem hasEnds_of_mem_printedLeaves (hx : x ∈ tree.printedLeaves []) :
    x ∈ tree.printed [] ∧ x.2.hasEnds = true := by
  obtain ⟨hx, hleaf⟩ := List.mem_filter.1 hx
  refine ⟨hx, ?_⟩
  cases h : x.2 with
  | leaf l t => rfl
  | branch l cs => simp [h, text?] at hleaf

end Node

namespace Span.Covers

variable {before text : List Char} {s : Span}

theorem forward (h : s.Covers source before text) : ¬ s.last.Before s.first := by
  rw [h.first_eq, h.last_eq]
  exact Position.not_before_behind _ _

/-- A span ends before whatever stands behind its text. -/
theorem last_before (h : s.Covers source before text) (gap : List Char) :
    s.last.Before (.behind (before ++ (text ++ gap))) := by
  have hcut := List.dropLast_concat_getLast h.ne_nil
  have htext : before ++ (text ++ gap) =
      (before ++ text.dropLast) ++ (text.getLast h.ne_nil :: gap) :=
    calc before ++ (text ++ gap)
      _ = before ++ ((text.dropLast ++ [text.getLast h.ne_nil]) ++ gap) := by rw [hcut]
      _ = (before ++ text.dropLast) ++ (text.getLast h.ne_nil :: gap) := by simp
  rw [h.last_eq, htext]
  exact Position.behind_before _ (List.cons_ne_nil _ _)

/-- A span holds the place of every character of its text. -/
theorem holds (h : s.Covers source before text) {a b : List Char} {c : Char}
    (ht : text = a ++ c :: b) : s.Holds (.behind (before ++ a)) := by
  constructor
  · rw [h.first_eq]
    exact Position.not_before_behind _ _
  · rw [h.last_eq, ht, List.dropLast_append_cons, ← List.append_assoc]
    exact Position.not_before_behind _ _

end Span.Covers

namespace Node

/-- A character of a node's own is in the node's span, or the bracket at an end of it. -/
theorem Exact.holds {x : List Char × Node} {a : List Char} {c : Char} (h : x.2.Exact x.1)
    (hx : x ∈ tree.printed []) (hp : Prints a c x) :
    x.2.text?.isSome = true ∧ x.2.span.Holds (.behind a) ∨
    c ∈ ['{', '}', '(', ')'] ∧
      ((branchMarks x.2.label).1 = [c] ∧ x.2.span.first = .behind a ∨
        (branchMarks x.2.label).2 = [c] ∧ x.2.span.last = .behind a) := by
  cases hp with
  | leaf hc hb =>
    refine .inl ⟨rfl, ?_⟩
    rw [hb]
    exact (h.covers hx rfl).holds hc
  | opening hc =>
    have hcovers := h.covers hx (by simp [hasEnds, Prod.ext_iff, hc])
    exact .inr ⟨mem_brackets (List.mem_append_left _ (by rw [hc]; exact List.mem_singleton_self c)),
      .inl ⟨hc, hcovers.first_eq⟩⟩
  | closing hc hb =>
    have hcovers := h.covers hx (by simp [hasEnds, Prod.ext_iff, hc])
    refine .inr ⟨mem_brackets (List.mem_append_right _ (by rw [hc]; exact List.mem_singleton_self c)),
      .inr ⟨hc, ?_⟩⟩
    rw [hcovers.last_eq, ← List.dropLast_append_of_ne_nil hcovers.ne_nil, ← hb,
      List.dropLast_concat]

theorem branchMarks_of_group {l : Label} (hk : l.kind = .arguments ∨ l.kind = .parentheses) :
    branchMarks l = (['('], [')']) := by
  rcases hk with hk | hk <;> simp only [branchMarks, hk]

theorem branchMarks_of_block {l : Label} (hk : l.kind = .block)
    (hb : l.dialect.usesBraces = true) : branchMarks l = (['{'], ['}']) := by
  simp only [branchMarks, hk, hb, if_true]

theorem Sound.dialect_eq : ∀ {n : Node}, n.Sound d → n.label.dialect = d
  | .leaf _ _, h => h.1
  | .branch _ _, h => h.1

end Node

/-- **Spans are exact.** In every sheet and dialect, a leaf of the parsed tree has the span of the
characters that it prints, comment markers included, and arguments, groups in parentheses and, in
the dialects with braces, blocks reach from their opening bracket to their closing one. Leaves
follow each other without overlap, and only brackets stand outside of them. -/
theorem exactSpans_of_parse (d : Dialect) (source : String) (tree : Node)
    (h : parse d source = .ok tree) : ExactSpans d source.toList tree := by
  obtain ⟨ts, ns, hp⟩ := parsed_of_parseChars h
  have hexact := hp.exact
  have hsound := Node.forall_mem_printed (sound_of_parseChars h) []
  rw [← chars_of_parseChars h]
  have hcovers : ∀ x ∈ tree.printedLeaves [], x.2.span.Covers tree.chars x.1 x.2.chars := by
    intro x hx
    obtain ⟨hx, hends⟩ := Node.hasEnds_of_mem_printedLeaves hx
    exact (hexact x hx).covers hx hends
  constructor
  case leaf => exact hcovers
  case group =>
    intro x hx hk
    have hl : x.2.kind.isLeaf = false := by rcases hk with hk | hk <;> rw [hk] <;> rfl
    exact (hexact x hx).bracketed hx (hsound x hx) hl (Node.branchMarks_of_group hk)
  case block =>
    intro x hx hk hd
    have hl : x.2.kind.isLeaf = false := by rw [hk]; rfl
    rw [← (hsound x hx).dialect_eq] at hd
    exact (hexact x hx).bracketed hx (hsound x hx) hl (Node.branchMarks_of_block hk hd)
  case forward => exact fun x hx => (hcovers x hx).forward
  case ascending =>
    refine (Node.pairwise_printed tree []).imp_of_mem fun {x y} hx hy hxy => ?_
    obtain ⟨gap, hgap⟩ := hxy
    rw [(hcovers y hy).first_eq, hgap]
    exact (hcovers x hx).last_before gap
  case gapless =>
    intro a c b hsource
    obtain ⟨x, hx, hprints⟩ := Node.exists_prints tree [] hsource
    rcases (hexact x hx).holds hx hprints with ⟨hleaf, hholds⟩ | ⟨hc, hends⟩
    · exact .inl ⟨x, List.mem_filter.2 ⟨hx, hleaf⟩, hholds⟩
    · exact .inr ⟨hc, x, hx, hends⟩

/-- A sheet with a comment and a string over several lines, an escape, a call in a value, and an
important mark that is read from three tokens. -/
def sprawlingSheet : String :=
  "a /*b\nc*/\x7b\n  d :f(\"g\\\n\" )! important;\n\\e  \x7d"

theorem exactSpans_of_parse_sprawling :
    ∃ tree, parse .scss sprawlingSheet = .ok tree ∧ ExactSpans .scss sprawlingSheet.toList tree ∧
      (tree.printedLeaves []).map (fun x => (x.2.span.first, x.2.span.last)) =
        [(⟨1, 1⟩, ⟨1, 1⟩), (⟨1, 2⟩, ⟨1, 2⟩), (⟨1, 3⟩, ⟨2, 3⟩), (⟨2, 5⟩, ⟨3, 2⟩), (⟨3, 3⟩, ⟨3, 3⟩),
          (⟨3, 4⟩, ⟨3, 4⟩), (⟨3, 5⟩, ⟨3, 5⟩), (⟨3, 6⟩, ⟨3, 6⟩), (⟨3, 8⟩, ⟨4, 1⟩), (⟨4, 2⟩, ⟨4, 2⟩),
          (⟨4, 4⟩, ⟨4, 14⟩), (⟨4, 15⟩, ⟨4, 15⟩), (⟨4, 16⟩, ⟨4, 16⟩), (⟨5, 1⟩, ⟨5, 2⟩),
          (⟨5, 3⟩, ⟨5, 4⟩)] := by
  have hread : (parse .scss sprawlingSheet).toOption.map (fun tree =>
      (tree.printedLeaves []).map fun x => (x.2.span.first, x.2.span.last)) =
        some [(⟨1, 1⟩, ⟨1, 1⟩), (⟨1, 2⟩, ⟨1, 2⟩), (⟨1, 3⟩, ⟨2, 3⟩), (⟨2, 5⟩, ⟨3, 2⟩),
          (⟨3, 3⟩, ⟨3, 3⟩), (⟨3, 4⟩, ⟨3, 4⟩), (⟨3, 5⟩, ⟨3, 5⟩), (⟨3, 6⟩, ⟨3, 6⟩), (⟨3, 8⟩, ⟨4, 1⟩),
          (⟨4, 2⟩, ⟨4, 2⟩), (⟨4, 4⟩, ⟨4, 14⟩), (⟨4, 15⟩, ⟨4, 15⟩), (⟨4, 16⟩, ⟨4, 16⟩),
          (⟨5, 1⟩, ⟨5, 2⟩), (⟨5, 3⟩, ⟨5, 4⟩)] := by
    decide +kernel
  cases h : parse .scss sprawlingSheet with
  | error e => rw [h] at hread; cases hread
  | ok tree =>
    rw [h] at hread
    exact ⟨tree, rfl, exactSpans_of_parse _ _ _ h, Option.some.inj hread⟩

end TidySheet
