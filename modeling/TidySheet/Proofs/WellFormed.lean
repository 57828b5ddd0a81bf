import Mathlib.Data.List.Chain
import TidySheet.Proofs.Arrangement
import TidySheet.Proofs.Lossless
import TidySheet.Proofs.Respacing

/-!
# Parsed trees are well formed

What the rules rely on at every node of a parsed tree: text in leaves only, one dialect, whitespace
in one piece, and the children that the node's kind asks for.

* `Reading.apart` — whitespace comes in one piece where it does so in the tokens;
* `Lexes.apart` — the lexer cuts whitespace in one piece;
* `wellFormed_of_parse` — every parsed tree is well formed.
-/

set_option autoImplicit false

namespace TidySheet

variable {d : Dialect}

namespace Node

/-- No two nodes side by side are whitespace. -/
def Apart (ns : List Node) : Prop := ns.IsChain fun m n => ¬(m.kind = .space ∧ n.kind = .space)

/-- **The form of a node in a tree of the dialect `d`.** -/
structure WellFormed (d : Dialect) (n : Node) : Prop where
  text : n.text?.isSome = n.kind.isLeaf
  dialect : n.dialect = d
  space : n.kind = .space → ∃ t, n.text? = some t ∧ t ≠ [] ∧ ∀ c ∈ t, isBlank c = true
  apart : Apart n.children
  arranged : Arranged n.kind n.children

mutual

theorem All.and {P Q : Node → Prop} : ∀ n : Node, All P n → All Q n → All (fun m => P m ∧ Q m) n
  | .leaf l t, hp, hq => (all_leaf l t).2 ⟨hp.self, hq.self⟩
  | .branch l cs, hp, hq =>
    (all_branch l cs).2 ⟨⟨hp.self, hq.self⟩, AllOf.and cs hp.children hq.children⟩

theorem AllOf.and {P Q : Node → Prop} :
    ∀ ns : List Node, AllOf P ns → AllOf Q ns → AllOf (fun m => P m ∧ Q m) ns
  | [], _, _ => allOf_nil
  | n :: ns, hp, hq => by
    rw [allOf_cons] at hp hq ⊢
    exact ⟨All.and n hp.1 hq.1, AllOf.and ns hp.2 hq.2⟩

end

end Node

namespace Token

/-- Whitespace comes in one piece. -/
def Apart (ts : List Token) : Prop :=
  ts.IsChain fun t u => ¬(t.kind = .whitespace ∧ u.kind = .whitespace)

end Token

/-! ## Whitespace in readings -/

namespace Reading

variable {ts : List Token} {ns : List Node} {n : Node}

theorem kind_of_space {t : Token} (h : t.LeafOf d n) (hn : n.kind = .space)
    (hk : t.kind ≠ .newline) : t.kind = .whitespace := by
  cases h with
  | plain => exact ((Token.leafKind_eq_space t).1 hn).resolve_right hk
  | property => cases hn
  | colon => cases hn
  | newline => cases hn

/-- **Whitespace comes in one piece where it does so in the tokens.** -/
theorem apart (h : Reading d ts ns) (hk : ∀ t ∈ ts, t.kind ≠ .newline) (ht : Token.Apart ts) :
    Node.Apart ns ∧ Node.AllOf (fun m => Node.Apart m.children) ns := by
  induction h with
  | nil => exact ⟨List.isChain_nil, Node.allOf_nil⟩
  | @token t n ts ns hn hr ih =>
    have hih := ih (fun u hu => hk u (by simp [hu])) ht.tail
    refine ⟨hih.1.cons fun m hm hboth => ?_, ?_⟩
    · obtain ⟨rest, rfl⟩ := List.head?_eq_some_iff.1 hm
      obtain ⟨u, us, rfl, rfl⟩ := hr.exists_token (Node.isTrivia_iff.2 (.inl hboth.2))
      have hwt := kind_of_space hn hboth.1 (hk t (by simp))
      have hwu := kind_of_space (.plain (d := d)) hboth.2 (hk u (by simp))
      exact List.rel_of_isChain_cons_cons ht ⟨hwt, hwu⟩
    · obtain ⟨l, text, rfl, -⟩ := hn.eq_leaf
      exact (Node.allOf_cons _ _).2 ⟨(Node.all_leaf l text).2 List.isChain_nil, hih.2⟩
  | @run k run ts ns hr _ _ ih =>
    have hih := ih (fun u hu => hk u (by simp [hu])) ht.right_of_append
    refine ⟨hih.1.cons fun m _ hboth => ?_, ?_⟩
    · rcases hr with rfl | rfl <;> cases hboth.1
    · exact (Node.allOf_cons _ _).2 ⟨(Node.all_leaf _ _).2 List.isChain_nil, hih.2⟩
  | @branch l opening inner closing ts cs ns _ hs _ _ ihi ih =>
    have hright := ht.right_of_append
    have hin := ihi (fun u hu => hk u (by simp [hu])) hright.left_of_append
    have hih := ih (fun u hu => hk u (by simp [hu])) hright.right_of_append.right_of_append
    refine ⟨hih.1.cons fun m _ hboth => ?_, ?_⟩
    · have htrivia := Node.isTrivia_iff.2 (.inl hboth.1)
      rw [isTrivia_branch hs] at htrivia
      cases htrivia
    · exact (Node.allOf_cons _ _).2 ⟨(Node.all_branch l cs).2 hin, hih.2⟩

/-- What holds of all leaves that tokens become, of joined ones and of branches holds of all
nodes. -/
theorem allOf {P : Node → Prop} (h : Reading d ts ns) (ht : ∀ t ∈ ts, ∀ n, t.LeafOf d n → P n)
    (hrun : ∀ k run, k = .raw ∨ k = .important → P (Token.joined k d run))
    (hbranch : ∀ l cs, Node.Sound d (.branch l cs) → P (.branch l cs)) : Node.AllOf P ns := by
  induction h with
  | nil => exact Node.allOf_nil
  | @token t n ts ns hn _ ih =>
    have hleaf := ht t (by simp) n hn
    obtain ⟨l, text, rfl, -⟩ := hn.eq_leaf
    exact (Node.allOf_cons _ _).2
      ⟨(Node.all_leaf l text).2 hleaf, ih fun u hu => ht u (by simp [hu])⟩
  | @run k run ts ns hk _ _ ih =>
    exact (Node.allOf_cons _ _).2
      ⟨(Node.all_leaf _ _).2 (hrun k run hk), ih fun u hu => ht u (by simp [hu])⟩
  | @branch l opening inner closing ts cs ns _ hs _ _ ihi ih =>
    exact (Node.allOf_cons _ _).2 ⟨(Node.all_branch l cs).2
      ⟨hbranch l cs hs, ihi fun u hu => ht u (by simp [hu])⟩, ih fun u hu => ht u (by simp [hu])⟩

/-- Whitespace is not empty where tokens are not. -/
theorem space_ne_nil (h : Reading d ts ns) (ht : ∀ t ∈ ts, t.text ≠ []) :
    Node.AllOf (fun m => m.kind = .space → m.text? ≠ some []) ns := by
  refine h.allOf (fun t hmem n hn hs => ?_) (fun k run hk hs => ?_) fun l cs _ _ h => (by cases h)
  · cases hn with
    | plain =>
      have hk := (Token.leafKind_eq_space t).1 hs
      rw [Token.leaf, Node.text?, Token.leafText_eq_text (by rcases hk with h | h <;> simp [h])
        (by rcases hk with h | h <;> simp [h])]
      simpa using ht t hmem
    | property => cases hs
    | colon => cases hs
    | newline => cases hs
  · rcases hk with rfl | rfl <;> cases hs

end Reading

/-! ## Lines with delimiters -/

namespace Lines

open Token

/-- A newline as the delimiter that it is read into. -/
def delimiter (t : Token) : Token := if t.kind = .newline then { t with kind := .semicolon } else t

theorem delimiter_of_ne {t : Token} (h : t.kind ≠ .newline) : delimiter t = t := if_neg h

theorem delimiter_text (t : Token) : (delimiter t).text = t.text := by
  unfold delimiter
  split <;> rfl

theorem delimiter_kind_ne (t : Token) : (delimiter t).kind ≠ .newline := by
  unfold delimiter
  split
  · exact TokenKind.noConfusion
  · assumption

theorem delimiter_kind_eq {t : Token} (h : (delimiter t).kind = .whitespace) :
    t.kind = .whitespace := by
  unfold delimiter at h
  split at h
  · cases h
  · exact h

theorem kind_ne_of_mem_cut {l : Line} {t : Token} {ts : List Token} (hl : l ∈ cut none [] ts)
    (ht : t ∈ l.body) : t.kind ≠ .newline := by
  have hcut := flatMap_cut delimiter (fun _ => delimiter_of_ne) none [] ts
  simp only [Option.toList_none, List.map_nil, List.reverse_nil, List.nil_append] at hcut
  have hmem : t ∈ ts.map delimiter := by
    rw [← hcut]
    exact List.mem_flatMap.2 ⟨l, hl, by simp [ht]⟩
  obtain ⟨u, -, rfl⟩ := List.mem_map.1 hmem
  exact delimiter_kind_ne u

theorem Line.reading_delimiter {l : Line} (h : l.Framed) (hs : ∀ t ∈ l.newline, t.Spelled) :
    Reading .sass (l.newline.toList.map delimiter ++ l.indent.toList) l.lead := by
  obtain ⟨newline, indent, body⟩ := l
  have hi := Line.reading_lead (l := ⟨none, indent, body⟩) ⟨by simp, h.indent_kind⟩
  cases newline with
  | none => exact hi
  | some t =>
    have hk : t.kind = .newline := h.newline_kind t rfl
    have ht : t.text = ['\n'] := by simpa [Spelled, hk] using hs t rfl
    have hleaf : (delimiter t).leaf .sass =
        .leaf ⟨.declarationDelimiter, .sass, t.span⟩ ['\n'] := by
      simp [delimiter, hk, leaf, leafKind, leafText, ht]
    have hr : Reading .sass [delimiter t] [(delimiter t).leaf .sass] := .token .plain .nil
    rw [hleaf] at hr
    exact hr.append hi

end Lines

/-! ## Texts -/

namespace Lexes

variable {p : Position} {cs : List Char} {ts : List Token}

theorem text_ne_nil (h : Lexes d p cs ts) : ∀ t ∈ ts, t.text ≠ [] := by
  induction h with
  | nil p => simp
  | cons _ _ ih => exact List.forall_mem_cons.2 ⟨by simp, ih⟩

theorem apart (h : Lexes d p cs ts) : Token.Apart ts := by
  induction h with
  | nil p => exact List.isChain_nil
  | @cons p c a r k ts he h ih =>
    refine ih.cons fun u hu hboth => ?_
    obtain ⟨us, rfl⟩ := List.head?_eq_some_iff.1 hu
    have hk : k = .whitespace := hboth.1
    rw [hk] at he
    cases h with
    | @cons _ x b r k' _ hx _ =>
      have hk' : k' = .whitespace := hboth.2
      rw [hk'] at hx
      have hfalse := (isBlankIn_of_lexeme he).2 x rfl
      rw [(isBlankIn_of_lexeme hx).1 x (by simp)] at hfalse
      cases hfalse

theorem kind_ne_newline (h : Lexes d p cs ts) (hd : d.usesBraces = true) :
    ∀ t ∈ ts, t.kind ≠ .newline := by
  induction h with
  | nil p => simp
  | @cons p c a r k ts he _ ih =>
    refine List.forall_mem_cons.2 ⟨fun hk => ?_, ih⟩
    have hk : k = .newline := hk
    generalize hext : Extent.mk k (a.length + 1) = e at he
    have hnl : c = '\n' := by
      cases lexed_of_lexeme he with
      | newline hc => exact hc
      | mark =>
        have hmark : k = markKind c := (Extent.mk.inj hext).1
        rw [hk] at hmark
        unfold markKind at hmark
        split at hmark <;> cases hmark
      | _ => simp [hk] at hext
    have hne : ¬(c == '\n' && d == .sass) = true := by
      intro h
      simp only [Bool.and_eq_true, beq_iff_eq] at h
      rw [h.2] at hd
      cases hd
    rw [lexeme, if_neg hne, if_pos (by rw [hnl]; rfl)] at he
    rw [← hext, hk] at he
    cases he

end Lexes

namespace Parsed

variable {source : List Char} {tree : Node} {ts : List Token} {ns : List Node}

/-- The nodes are read from tokens without newlines and with whitespace in one piece: in the
indented dialect, from those with the delimiters that the newlines are. -/
theorem exists_delimited (h : Parsed d source tree ts ns) : ∃ us, Reading d us ns ∧
    (∀ t ∈ us, t.kind ≠ .newline) ∧ (∀ t ∈ us, t.text ≠ []) ∧ Token.Apart us ∧
      ∀ t ∈ us, t.kind = .whitespace → t ∈ ts := by
  have hl := tokens_eq_ok.1 h.tokens_eq
  by_cases hd : d.usesBraces = true
  · exact ⟨ts, h.reading, hl.kind_ne_newline hd, hl.text_ne_nil, hl.apart, fun _ ht _ => ht⟩
  · have hsass : d = .sass := by simpa [Dialect.usesBraces] using hd
    subst hsass
    have hcut := Lines.flatMap_cut Lines.delimiter (fun _ => Lines.delimiter_of_ne) none [] ts
    simp only [Option.toList_none, List.map_nil, List.reverse_nil, List.nil_append] at hcut
    have htokens := Lines.flatMap_tokens_cut none [] ts
    simp only [Option.toList_none, List.reverse_nil, List.nil_append] at htokens
    have hread := (Lines.nodesOf_eq_ok.1 h.nodes_eq).reading_of
      (fun l => l.newline.toList.map Lines.delimiter ++ l.indent.toList) fun l hm =>
        Lines.Line.reading_delimiter (Lines.framed_cut (by simp) [] ts l hm) fun t ht =>
          h.spelled t (by
            rw [← htokens]
            exact List.mem_flatMap.2 ⟨l, hm, by simp [Lines.Line.tokens, Option.mem_def.1 ht]⟩)
    simp only [List.append_assoc] at hread
    rw [hcut] at hread
    refine ⟨_, hread, ?_, ?_, ?_, ?_⟩
    · exact List.forall_mem_map.2 fun t _ => Lines.delimiter_kind_ne t
    · exact List.forall_mem_map.2 fun t ht => by
        rw [Lines.delimiter_text]
        exact hl.text_ne_nil t ht
    · refine (List.isChain_map _).2 (hl.apart.imp fun t u htu hboth => htu ?_)
      exact ⟨Lines.delimiter_kind_eq hboth.1, Lines.delimiter_kind_eq hboth.2⟩
    · refine List.forall_mem_map.2 fun t ht hk => ?_
      rwa [Lines.delimiter_of_ne (by rw [Lines.delimiter_kind_eq hk]; exact TokenKind.noConfusion)]

theorem exists_reading (h : Parsed d source tree ts ns) : ∃ us, Reading d us ns ∧
    (∀ t ∈ us, t.kind ≠ .newline) ∧ (∀ t ∈ us, t.text ≠ []) ∧ Token.Apart us := by
  obtain ⟨us, hread, hk, hne, hapart, -⟩ := h.exists_delimited
  exact ⟨us, hread, hk, hne, hapart⟩

theorem standing (h : Parsed d source tree ts ns) :
    (∀ n ∈ ns, n.Standing) ∧ Node.Separated false ns := by
  have hl := tokens_eq_ok.1 h.tokens_eq
  have hn := h.nodes_eq
  unfold sheetNodes at hn
  split at hn
  · rename_i hd
    have hk := hl.kind_ne_newline hd
    cases Braces.nodes_eq_ok.1 hn with
    | intro hi _ ho =>
      refine ⟨List.forall_mem_append.2 ⟨hi.standing fun t ht => hk t (by simp [ht]),
        ho.standing fun t ht => hk t (by simp [ht])⟩, hi.separated ho.separated⟩
  · have hnested := Lines.nodesOf_eq_ok.1 hn
    obtain ⟨l, ls, hcut, -, hls⟩ := Lines.exists_cut_eq none [] ts
    have htail : ∀ m ∈ (Lines.cut none [] ts).tail, m.newline.isSome = true := by
      rw [hcut]
      intro m hm
      obtain ⟨t, ht⟩ := hls m hm
      rw [ht]
      rfl
    exact ⟨hnested.standing (fun l hm t => Lines.kind_ne_of_mem_cut hm) htail,
      hnested.separated (fun h => by cases h) htail⟩

end Parsed

/-- The nodes of a parsed tree are well formed. -/
theorem Parsed.wellFormed {source : List Char} {tree : Node} {ts : List Token} {ns : List Node}
    (hp : Parsed d source tree ts ns) : Node.AllOf (Node.WellFormed d) ns := by
  obtain ⟨us, hread, hk, hne, hapart⟩ := hp.exists_reading
  have hsound := hp.reading.sound hp.spelled
  refine Node.AllOf.imp (fun n hn => ?_) ns
    (((hsound.and ns (Node.Standing.allOf hp.standing.1)).and ns (hread.apart hk hapart).2).and ns
      (hread.space_ne_nil hne))
  obtain ⟨⟨⟨hs, ha⟩, hc⟩, ht⟩ := hn
  cases n with
  | leaf l t =>
    have hne : l.kind = .space → t ≠ [] := fun hk => by simpa [Node.text?] using ht hk
    exact ⟨hs.2.1.symm, hs.1, fun hk => ⟨t, rfl, hne hk, hs.2.2 hk⟩, hc, ha⟩
  | branch l cs =>
    refine ⟨hs.2.1.symm, hs.1, fun hk => ?_, hc, ha⟩
    have hleaf : l.kind.isLeaf = false := hs.2.1
    rw [show l.kind = .space from hk] at hleaf
    cases hleaf

/-- **Every parsed tree is well formed**, whatever the dialect and the text. -/
theorem wellFormed_of_parse (d : Dialect) (source : String) (tree : Node)
    (h : parse d source = .ok tree) : tree.kind = .stylesheet ∧ tree.All (Node.WellFormed d) := by
  obtain ⟨ts, ns, hp⟩ := parsed_of_parseChars h
  obtain ⟨us, hread, hk, -, hapart⟩ := hp.exists_reading
  obtain ⟨hstanding, hseparated⟩ := hp.standing
  have harranged : Node.Arranged .stylesheet ns :=
    .of_separated trivial (fun c hc => (hstanding c hc).kind_ne) hseparated
  rw [hp.tree_eq]
  refine ⟨rfl, (Node.all_branch _ _).2 ⟨?_, hp.wellFormed⟩⟩
  exact ⟨rfl, rfl, fun hs => (by cases hs), (hread.apart hk hapart).1, harranged⟩

/-- A sheet with stray tokens, an empty property and an empty value. -/
def straySheet : String := "@m (x) \x7b :;a /*b*/:/*c*/;f( 1 )\x7d\x7b d: f( (1) )  ! important ;e:\x7d ,"

theorem wellFormed_of_parse_stray :
    ∃ tree, parse .less straySheet = .ok tree ∧ tree.kind = .stylesheet ∧
      tree.All (Node.WellFormed .less) := by
  have hok : ((parse .less straySheet).toOption).isSome := by decide +kernel
  cases h : parse .less straySheet with
  | error e => rw [h] at hok; cases hok
  | ok tree => exact ⟨tree, rfl, wellFormed_of_parse _ _ _ h⟩

end TidySheet
