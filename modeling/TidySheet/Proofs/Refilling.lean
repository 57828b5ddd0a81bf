import TidySheet.Proofs.RegappedSheets

/-!
# Siblings with blanks between them

A rule that pads siblings may leave whitespace next to whitespace, or blanks in front of a
declaration that belong to the gap before it. Read back, all blanks of a gap are one space. So
siblings are gone through from the last one to the first, and the blanks in front of what has been
read are handed on to the gap before it.

* `Refills` — a node that another one may stand in for, with blanks before it;
* `Filled` — siblings whose text, behind some blanks, is that of siblings with other whitespace;
* `Filled.cons`, `Filled.keep`, `Filled.resize` — one more sibling in front;
* `Parsed.exists_reblocked` — a walk over the blocks of a sheet changes whitespace in gaps if it
  does so in each block;
* `Parsed.exists_parse_mapBlocks` — what it leaves is read back, but for whitespace.
-/

set_option autoImplicit false

namespace TidySheet

open Node

variable {d : Dialect} {gone : Position → Prop}

/-! ## Nodes of a parsed sheet -/

theorem Node.chars_ne_nil_of_mem {c n : Node} (hc : c ∈ n.children) (hne : c.chars ≠ []) :
    n.chars ≠ [] := by
  cases n with
  | leaf l t => cases hc
  | branch l cs =>
    obtain ⟨xs, ys, hxy⟩ := List.append_of_mem hc
    rw [children] at hxy
    simp [Node.chars, hxy, hne]

theorem Node.charsOf_of_forall₂ {ms ns : List Node}
    (h : List.Forall₂ (fun m n => m.chars = n.chars) ms ns) : charsOf ms = charsOf ns := by
  induction h with
  | nil => rfl
  | cons h _ ih => rw [charsOf_cons, charsOf_cons, h, ih]

/-- What the alignments rely on in each node of a parsed sheet. -/
structure Paddable (d : Dialect) (n : Node) : Prop where
  wellFormed : n.WellFormed d
  formed : n.Formed
  blank : n.kind = .space → ∀ t ∈ n.text?, ∀ x ∈ t, isBlankIn d x = true
  name : n.kind = .ident ∨ n.kind = .function → n.chars ≠ []

theorem Paddable.exists_space {n : Node} (h : Paddable d n) (hk : n.kind = .space) :
    ∃ l t, n = .leaf l t ∧ l.kind = .space ∧ t ≠ [] ∧ ∀ x ∈ t, isBlankIn d x = true := by
  obtain ⟨t, ht, hne, -⟩ := h.wellFormed.space hk
  cases n with
  | leaf l t' =>
    cases ht
    exact ⟨l, t, rfl, hk, hne, h.blank hk t rfl⟩
  | branch l cs => cases ht

theorem Parsed.paddable {source : List Char} {tree : Node} {ts : List Token} {ns : List Node}
    (hp : Parsed d source tree ts ns) : AllOf (Paddable d) ns := by
  obtain ⟨us, hread, hnewline, hne, -, hmem⟩ := hp.exists_delimited
  have hcuts := (tokens_eq_ok.1 hp.tokens_eq).cuts
  have hsound := hp.reading.sound hp.spelled
  have hformed : AllOf Formed ns := AllOf.imp (fun _ => formed_of_sound) ns (AllOf.below ns hsound)
  have hblank : AllOf (fun n => n.kind = .space → ∀ t ∈ n.text?, ∀ x ∈ t, isBlankIn d x = true)
      ns := by
    refine hread.allOf (fun t ht n hn hs text htext => ?_) (fun k run hk hs => ?_)
      fun l cs _ _ t ht => (by cases ht)
    · have hk := Reading.kind_of_space hn hs (hnewline t ht)
      obtain ⟨r, hr⟩ := hcuts.exists_cutFrom t (hmem t ht hk)
      have hleaf : n.text? = some t.text := by
        cases hn with
        | plain =>
          rw [Token.leaf, Node.text?,
            Token.leafText_eq_text (by rw [hk]; exact TokenKind.noConfusion)
              (by rw [hk]; exact TokenKind.noConfusion)]
        | property => cases hs
        | colon => cases hs
        | newline => cases hs
      obtain rfl : t.text = text := Option.some.inj (hleaf.symm.trans htext)
      exact (hr.isBlankIn hk).1.2
    · rcases hk with rfl | rfl <;> cases hs
  have hname : AllOf (fun n => n.kind = .ident → n.chars ≠ []) ns := by
    refine hp.reading.allOf (fun t ht n hn _ => ?_) (fun k run hk hi => ?_) fun l cs hs hi => ?_
    · rw [hn.chars_eq (hp.spelled t ht)]
      exact (tokens_eq_ok.1 hp.tokens_eq).text_ne_nil t ht
    · rcases hk with rfl | rfl <;> cases hi
    · have hleaf : l.kind.isLeaf = false := hs.2.1
      rw [show l.kind = .ident from hi] at hleaf
      cases hleaf
  refine AllOf.imp (fun n hn => ⟨hn.1.self.1, hn.2.1, hn.2.2, ?_⟩) ns (AllOf.and ns
    (AllOf.below ns (AllOf.and ns hp.wellFormed hname)) (AllOf.and ns hformed hblank))
  rintro (hk | hk)
  · exact hn.1.self.2 hk
  · have hparts := hn.1.self.1.arranged.parts
    rw [hk] at hparts
    obtain ⟨fname, arguments, hcs, hident, -⟩ := hparts
    have hmem : fname ∈ n.children := by simp [hcs]
    exact chars_ne_nil_of_mem hmem (((allOf_iff _).1 hn.1.children fname hmem).self.2 hident)

/-! ## Nodes that stand in for others -/

theorem Node.Apart.kind_ne {n : Node} {ns : List Node} (h : Apart (n :: ns))
    (hn : n.kind = .space) : ∀ m ∈ ns.head?, m.kind ≠ .space := by
  intro m hm hspace
  obtain ⟨ms, rfl⟩ := List.head?_eq_some_iff.1 hm
  exact (List.isChain_cons_cons.1 h).1 ⟨hn, hspace⟩

theorem Node.Apart.tail {n : Node} {ns : List Node} (h : Apart (n :: ns)) : Apart ns :=
  List.IsChain.tail h

theorem Reblocked.kind_eq {n m : Node} (h : Reblocked d gone n m) : m.kind = n.kind := by
  cases h <;> rfl

theorem Slack.beyond_ne_stuck (hd : d ≠ .sass) {n : Node} (hn : n.kind ≠ .space) :
    Slack.beyond d n ≠ .stuck := by
  have hopening : Slack.opening d = .free := if_neg hd
  unfold Slack.beyond
  split
  · contradiction
  all_goals simp [hopening]

theorem Slack.beyond_trivia_ne_stuck {n : Node} (h : n.isTrivia = true) (hs : n.kind ≠ .space) :
    Slack.beyond d n ≠ .stuck := by
  rcases (isTrivia_iff.1 h).resolve_left hs with hk | hk <;> simp [Slack.beyond, hk]

/-- Trivia that does not end in whitespace leaves a gap behind it, if there is one before it. -/
theorem Regapped.exists_trivia {s : Slack} {ns : List Node} (hs : s ≠ .stuck)
    (ht : ∀ n ∈ ns, n.isTrivia = true) (hlast : ∀ n ∈ ns.getLast?, n.kind ≠ .space) :
    ∃ s', Regapped d gone s ns ns s' ∧ s' ≠ .stuck := by
  rcases List.eq_nil_or_concat ns with rfl | ⟨ms, m, rfl⟩
  · exact ⟨s, .nil s, hs⟩
  · rw [List.concat_eq_append] at ht hlast ⊢
    exact ⟨_, .kept s ms m, Slack.beyond_trivia_ne_stuck (ht m (by simp)) (hlast m (by simp))⟩

theorem Node.Apart.getLast?_ne {ns : List Node} {n : Node} (h : Apart (ns ++ [n]))
    (hn : n.kind = .space) : ∀ m ∈ ns.getLast?, m.kind ≠ .space := by
  intro m hm hspace
  obtain ⟨ms, rfl⟩ := List.getLast?_eq_some_iff.1 hm
  rw [List.append_assoc] at h
  exact (List.isChain_cons_cons.1 h.right_of_append).1 ⟨hspace, hn⟩

/-- Blanks may be put before the first of the siblings. -/
def Takes (ns : List Node) : Prop :=
  ∃ n ∈ ns.head?, n.kind ≠ .space ∧ n.kind ≠ .declarationDelimiter ∧ n.chars ≠ []

theorem takes_cons {n : Node} (hs : n.kind ≠ .space) (hd : n.kind ≠ .declarationDelimiter)
    (hc : n.chars ≠ []) (ns : List Node) : Takes (n :: ns) :=
  ⟨n, rfl, hs, hd, hc⟩

theorem takes_of_declaration {n : Node} {ns : List Node} (hn : n.Formed)
    (hk : n.kind = .declaration) : Takes (n :: ns) := by
  obtain ⟨property, gap, colon, lead, value, hform, -⟩ := hn.declaration hk
  refine takes_cons (by rw [hk]; exact Kind.noConfusion) (by rw [hk]; exact Kind.noConfusion) ?_ ns
  exact chars_ne_nil_of_mem (c := colon) (by rw [hform.children]; simp)
    (by simp [hform.colon_chars])

/-- Whether `m` may stand for `n` among siblings, with blanks before it. -/
structure Refills (d : Dialect) (gone : Position → Prop) (n m : Node) : Prop where
  regapped : ∀ {s s' : Slack} {gap ns ms : List Node}, Put d s gap → (gap ≠ [] → Takes (n :: ns)) →
    Regapped d gone (.beyond d n) ns ms s' → Regapped d gone s (n :: ns) (gap ++ m :: ms) s'

namespace Refills

theorem refl (n : Node) : Refills d gone n n := by
  refine ⟨@fun s s' gap ns ms hg ht h => ?_⟩
  refine .keep n hg (fun hne => ?_) h
  obtain ⟨m, hm, htakes⟩ := ht hne
  cases hm
  exact htakes

/-- A declaration with other whitespace between its parts. -/
theorem declaration {l : Label} {property : Node} {cs cs' : List Node} {s : Slack}
    (hl : l.kind = .declaration)
    (h : Regapped d gone (if property.children = [] then .stuck else .free) cs cs' s) :
    Refills d gone (.branch l (property :: cs)) (.branch l (property :: cs')) := by
  refine ⟨@fun s s' gap ns ms hg _ hr => ?_⟩
  have hs : Slack.beyond d (.branch l (property :: cs)) = .opening d := by
    simp [Slack.beyond, Node.kind, Node.label, hl]
  rw [hs] at hr
  exact .declaration hg hl h hr

theorem of_reblocked {n m : Node} (h : Reblocked d gone n m) : Refills d gone n m := by
  cases h with
  | refl => exact refl n
  | @block _ l k init cs cs' hl hk hb =>
    refine ⟨@fun s s' gap ns ms hg _ hr => ?_⟩
    have hs : Slack.beyond d (.branch l (init ++ [.branch k cs])) = .opening d := by
      rcases hl with hl | hl <;> simp [Slack.beyond, Node.kind, Node.label, hl]
    rw [hs] at hr
    exact .nested hg hl hk hb hr

end Refills

/-! ## Siblings behind blanks -/

/-- The space of a gap with the blanks `g`. -/
def spaceOf (d : Dialect) (g : List Char) : List Node := if g = [] then [] else [.ofSpace d g]

theorem charsOf_spaceOf (g : List Char) : charsOf (spaceOf d g) = g := by
  unfold spaceOf
  split
  · simp_all
  · simp [ofSpace, ofText, Node.chars, leafMarks]

theorem put_spaceOf {s : Slack} {g : List Char} (hs : g ≠ [] → s ≠ .stuck)
    (hb : ∀ x ∈ g, isBlankIn d x = true) : Put d s (spaceOf d g) := by
  unfold spaceOf
  split
  · exact .none s
  · rename_i hne
    exact .blanks (hs hne) hne hb

theorem ne_nil_of_spaceOf {g : List Char} (h : spaceOf d g ≠ []) : g ≠ [] := by
  rintro rfl
  exact h rfl

/-- **Siblings behind blanks**: with the blanks `g` before it, `text` is the text of siblings with
other whitespace in their gaps. If they are `loose`, the first of them is a space that changes. -/
structure Filled (d : Dialect) (gone : Position → Prop) (ns : List Node) (loose : Bool)
    (g text : List Char) : Prop where
  blank : ∀ x ∈ g, isBlankIn d x = true
  takes : g ≠ [] → Takes ns
  space : loose = true → ∃ n ∈ ns.head?, n.kind = .space
  regapped : ∃ ms, charsOf ms = text ∧ ∀ {s : Slack} {gap : List Node}, Put d s gap →
    (gap ≠ [] → Takes ns) → (loose = true → s ≠ .stuck) → ∃ s', Regapped d gone s ns (gap ++ ms) s'

namespace Filled

variable {n m : Node} {ns : List Node} {loose : Bool} {g text : List Char}

theorem nil : Filled d gone [] false [] [] := by
  refine ⟨by simp, fun h => absurd rfl h, by simp, [], rfl, @fun s gap _ ht _ => ?_⟩
  have hgap : gap = [] := by
    refine Decidable.byContradiction fun hne => ?_
    obtain ⟨n, hn, -⟩ := ht hne
    cases hn
  rw [hgap]
  exact ⟨s, .nil s⟩

/-- One more sibling in front, with blanks before and behind it. -/
theorem cons (h : Filled d gone ns loose g text) (hf : Refills d gone n m)
    {before behind : List Char} (hb : ∀ x ∈ before, isBlankIn d x = true) (ht : before ≠ [] → Takes (n :: ns))
    (hb' : ∀ x ∈ behind, isBlankIn d x = true) (ht' : behind ≠ [] → Takes ns)
    (hs : loose = true ∨ behind ++ g ≠ [] → Slack.beyond d n ≠ .stuck) :
    Filled d gone (n :: ns) false before (m.chars ++ (behind ++ (g ++ text))) := by
  obtain ⟨ms, hms, hr⟩ := h.regapped
  have htakes : behind ++ g ≠ [] → Takes ns := by
    intro hne
    by_cases hnil : behind = []
    · exact h.takes (by simpa [hnil] using hne)
    · exact ht' hnil
  have hput : Put d (Slack.beyond d n) (spaceOf d (behind ++ g)) :=
    put_spaceOf (fun hne => hs (.inr hne)) (List.forall_mem_append.2 ⟨hb', h.blank⟩)
  obtain ⟨s', hrest⟩ := hr hput (fun hne => htakes (ne_nil_of_spaceOf hne)) fun hl => hs (.inl hl)
  refine ⟨hb, ht, by simp, m :: (spaceOf d (behind ++ g) ++ ms), ?_, fun hg hgap _ => ?_⟩
  · rw [charsOf_cons, charsOf_append, charsOf_spaceOf, hms, List.append_assoc]
  · exact ⟨s', hf.regapped hg hgap hrest⟩

/-- Behind a space, no space stands that changes. -/
theorem loose_eq_false (h : Filled d gone ns loose g text)
    (hns : ∀ k ∈ ns.head?, k.kind ≠ .space) : loose = false := by
  refine Bool.eq_false_iff.2 fun hloose => ?_
  obtain ⟨k, hk, hspace⟩ := h.space hloose
  exact hns k hk hspace

theorem chars_space {l : Label} (hl : l.kind = .space) (t : List Char) :
    (Node.leaf l t).chars = t := by
  simp [Node.chars, leafMarks, hl]

theorem not_takes_space {l : Label} (hl : l.kind = .space) {t : List Char} :
    ¬ Takes (.leaf l t :: ns) := by
  rintro ⟨n, hn, hs, -⟩
  cases hn
  exact hs hl

/-- A space in front stays as it is. -/
theorem keep {l : Label} {t : List Char} (h : Filled d gone ns false [] text)
    (hl : l.kind = .space) : Filled d gone (.leaf l t :: ns) false [] (t ++ text) := by
  obtain ⟨ms, hms, hr⟩ := h.regapped
  have hs : Slack.beyond d (.leaf l t) = .stuck := by
    simp [Slack.beyond, Node.kind, Node.label, hl]
  obtain ⟨s', hrest⟩ := hr (.none _) (fun h => absurd rfl h) (by simp)
  refine ⟨by simp, fun h => absurd rfl h, by simp, .leaf l t :: ms, ?_, fun hg hgap _ => ?_⟩
  · rw [charsOf_cons, chars_space hl, hms]
  · exact ⟨s', .keep _ hg (fun hne => absurd (hgap hne) (not_takes_space hl)) (hs ▸ hrest)⟩

/-- A space in front takes the blanks behind it. -/
theorem resize {l : Label} {t t' : List Char} (h : Filled d gone ns false g text)
    (hl : l.kind = .space) (hne : t' ≠ []) (hb : ∀ x ∈ t', isBlankIn d x = true)
    (hbreak : t.head? = some '\n' → t'.head? = some '\n') :
    Filled d gone (.leaf l t :: ns) true [] (t' ++ (g ++ text)) := by
  obtain ⟨ms, hms, hr⟩ := h.regapped
  obtain ⟨s', hrest⟩ := hr (.none .stuck) (fun h => absurd rfl h) (by simp)
  refine ⟨by simp, fun h => absurd rfl h, fun _ => ⟨_, rfl, hl⟩, .leaf l (t' ++ g) :: ms, ?_,
    fun hg hgap hs => ?_⟩
  · rw [charsOf_cons, chars_space hl, hms, List.append_assoc]
  · have hnil : ∀ {gap : List Node}, (gap ≠ [] → Takes (.leaf l t :: ns)) → gap = [] :=
      fun hgap => Decidable.byContradiction fun hne => not_takes_space hl (hgap hne)
    rw [hnil hgap]
    refine ⟨s', .resize (hs rfl) hl (by simp [hne]) ?_ (fun hstart => ?_) hrest⟩
    · exact List.forall_mem_append.2 ⟨hb, h.blank⟩
    · rw [List.head?_append, hbreak hstart]
      rfl

/-- The blanks in front go into the gap before the siblings. -/
theorem exists_regapped {s : Slack} (h : Filled d gone ns loose g text)
    (hs : loose = true ∨ g ≠ [] → s ≠ .stuck) :
    ∃ ms s', charsOf ms = g ++ text ∧ Regapped d gone s ns ms s' := by
  obtain ⟨ms, hms, hr⟩ := h.regapped
  obtain ⟨s', hr⟩ := hr (put_spaceOf (fun hne => hs (.inr hne)) h.blank)
    (fun hne => h.takes (ne_nil_of_spaceOf hne)) fun hl => hs (.inl hl)
  exact ⟨_, s', by rw [charsOf_append, charsOf_spaceOf, hms], hr⟩

end Filled

/-! ## Walks over blocks -/

/-- What the nodes of a block have been read from: items and a last statement between braces, or
some of the `rows` of a sheet. -/
inductive Stated (d : Dialect) (rows : List Lines.Line) : List Node → Prop
  | braces {ts last : List Token} {cs own : List Node} (hd : d ≠ .sass)
      (hi : Braces.Items d ts cs) (ho : Statement.Plain d last own) : Stated d rows (cs ++ own)
  | lines {ls : List Lines.Line} {cs : List Node} (hd : d = .sass) (hls : ∀ l ∈ ls, l ∈ rows)
      (h : Lines.Nested ls cs) : Stated d rows cs

/-- What a walk with `f` has to do in each block of a sheet: where the nodes of the block have become
`ms`, and `R` relates these to what the walk has made of them, the block as a whole has other
whitespace in its gaps. -/
structure Walks (d : Dialect) (gone : Position → Prop) (rows : List Lines.Line) (P : Node → Prop)
    (R : Node → Node → Prop) (f : Node → Node) : Prop where
  refl : ∀ n, R n n
  congr : ∀ {l : Label} {init : List Node} {b b' : Node}, R b b' →
    R (.branch l (init ++ [b])) (.branch l (init ++ [b']))
  block : ∀ {k : Label} {cs ms : List Node}, k.kind = .block → (Node.branch k cs).All P →
    Stated d rows cs → List.Forall₂ (Reblocked d gone) cs ms →
      List.Forall₂ R ms (cs.map (mapBlock f)) →
      ∃ cs' s, Regapped d gone (.opening d) cs cs' s ∧
        R (.branch k cs') (f (.branch k (cs.map (mapBlock f))))

namespace Walks

open Statement

variable {rows : List Lines.Line} {P : Node → Prop} {R : Node → Node → Prop} {f : Node → Node}

/-- A statement that no block ends is left as it is. -/
theorem plain (hw : Walks d gone rows P R f) {head : List Token} {own : List Node}
    (h : Plain d head own) :
    List.Forall₂ (Reblocked d gone) own own ∧ List.Forall₂ R own (own.map (mapBlock f)) := by
  rw [Braces.mapBlock_plain h]
  exact ⟨List.forall₂_same.2 fun n _ => .refl n, List.forall₂_same.2 fun n _ => hw.refl n⟩

/-- A statement with its block. -/
theorem opener (hw : Walks d gone rows P R f) {head : List Token} {k : Label} {cs ms : List Node}
    {n : Node} (h : Opener d (.branch k cs) head n) (hk : k.kind = .block) (hn : n.All P)
    (hs : Stated d rows cs) (hcs : List.Forall₂ (Reblocked d gone) cs ms)
    (hms : List.Forall₂ R ms (cs.map (mapBlock f))) :
    ∃ m, Reblocked d gone n m ∧ R m (n.mapBlock f) := by
  obtain ⟨kind, init, hkind, rfl, -, hinit, -⟩ := h.exists_parts
  have hne : kind ≠ .block := by rcases hkind with rfl | rfl <;> exact Kind.noConfusion
  have hblock : (Node.branch k cs).All P := by
    have hchildren := hn.children
    rw [ofChildren, children, allOf_append, allOf_cons] at hchildren
    exact hchildren.2.1
  obtain ⟨cs', s, hr, hR⟩ := hw.block hk hblock hs hcs hms
  refine ⟨_, .block hkind hk hr, ?_⟩
  rw [ofChildren, mapBlock, if_neg hne, mapBlocksOf_eq_map, List.map_append, ← mapBlocksOf_eq_map,
    mapBlocksOf_of_no_block init hinit, List.map_singleton, mapBlock, if_pos hk, mapBlocksOf_eq_map]
  exact hw.congr hR

/-- What stands in a block. -/
theorem items (hw : Walks d gone rows P R f) (hd : d ≠ .sass) {ts : List Token} {ns : List Node}
    (h : Braces.Items d ts ns) (hn : AllOf P ns) :
    ∃ ms, List.Forall₂ (Reblocked d gone) ns ms ∧ List.Forall₂ R ms (ns.map (mapBlock f)) := by
  have hleaf : ∀ t : Token, (t.leaf d).mapBlock f = t.leaf d :=
    fun t => mapBlock_leaf t.leafKind_isLeaf
  induction h with
  | nil => exact ⟨[], .nil, .nil⟩
  | @trivia t ts ns ht _ ih =>
    rw [allOf_cons] at hn
    obtain ⟨ms, hms, hR⟩ := ih hn.2
    refine ⟨t.leaf d :: ms, .cons (.refl _) hms, .cons ?_ hR⟩
    rw [hleaf]
    exact hw.refl _
  | @statement head ts semi own ns hh ho hs _ ih =>
    rw [allOf_append, allOf_cons] at hn
    obtain ⟨ms, hms, hR⟩ := ih hn.2.2
    obtain ⟨hown, hown'⟩ := hw.plain ho
    refine ⟨own ++ semi.leaf d :: ms, List.rel_append hown (.cons (.refl _) hms), ?_⟩
    rw [List.map_append, List.map_cons, hleaf]
    exact List.rel_append hown' (.cons (hw.refl _) hR)
  | @nested head inner last ts a b cs own ns n hh ha hi hl ho hb hopen _ ihi ih =>
    rw [allOf_cons] at hn
    obtain ⟨ms, hms, hR⟩ := ih hn.2
    have hchildren : AllOf P cs := by
      obtain ⟨k, init, -, rfl, -⟩ := hopen.exists_label
      have hblock := hn.1.children
      rw [children, allOf_append, allOf_cons] at hblock
      exact ((allOf_append _ _).1 hblock.2.1.children).1
    obtain ⟨ms', hms', hR'⟩ := ihi hchildren
    obtain ⟨hown, hown'⟩ := hw.plain ho
    obtain ⟨m, hm, hRm⟩ := hw.opener hopen rfl hn.1 (.braces hd hi ho) (List.rel_append hms' hown)
      (by rw [List.map_append]; exact List.rel_append hR' hown')
    exact ⟨m :: ms, .cons hm hms, .cons hRm hR⟩

/-- What stands on lines. -/
theorem lines (hw : Walks .sass gone rows P R f) {ls : List Lines.Line} {ns : List Node}
    (h : Lines.Nested ls ns) (hls : ∀ l ∈ ls, l ∈ rows) (hn : AllOf P ns) :
    ∃ ms, List.Forall₂ (Reblocked .sass gone) ns ms ∧ List.Forall₂ R ms (ns.map (mapBlock f)) := by
  have hlead : ∀ l : Lines.Line, List.Forall₂ (Reblocked .sass gone) l.lead l.lead ∧
      List.Forall₂ R l.lead (l.lead.map (mapBlock f)) := by
    intro l
    rw [← mapBlocksOf_eq_map, mapBlocksOf_of_no_block _ (Lines.no_block_lead l)]
    exact ⟨List.forall₂_same.2 fun n _ => .refl n, List.forall₂_same.2 fun n _ => hw.refl n⟩
  induction h with
  | nil => exact ⟨[], .nil, .nil⟩
  | @blank l ls ns hb _ ih =>
    obtain ⟨ms, hms, hR⟩ := ih (fun m hm => hls m (by simp [hm])) ((allOf_append _ _).1 hn).2
    rw [List.map_append]
    exact ⟨l.lead ++ ms, List.rel_append (hlead l).1 hms, List.rel_append (hlead l).2 hR⟩
  | @statement l ls own ns hb hc ho _ ih =>
    rw [allOf_append, allOf_append] at hn
    obtain ⟨ms, hms, hR⟩ := ih (fun m hm => hls m (by simp [hm])) hn.2.2
    obtain ⟨hown, hown'⟩ := hw.plain ho
    rw [List.map_append, List.map_append]
    exact ⟨l.lead ++ (own ++ ms), List.rel_append (hlead l).1 (List.rel_append hown hms),
      List.rel_append (hlead l).2 (List.rel_append hown' hR)⟩
  | @block l ls inner outer cs ns n hb hc hne hi hopen _ ihi ih =>
    rw [allOf_append, allOf_cons] at hn
    have hcut : inner ++ outer = ls := Lines.append_of_cutBlock hc
    obtain ⟨ms, hms, hR⟩ := ih (fun m hm => hls m (by simp [← hcut, hm])) hn.2.2
    have hchildren : AllOf P cs := by
      obtain ⟨k, init, -, rfl, -⟩ := Opener.exists_label hopen
      have hblock := hn.2.1.children
      rw [children, allOf_append, allOf_cons] at hblock
      exact hblock.2.1.children
    obtain ⟨ms', hms', hR'⟩ := ihi (fun m hm => hls m (by simp [← hcut, hm])) hchildren
    obtain ⟨m, hm, hRm⟩ := hw.opener hopen rfl hn.2.1
      (.lines rfl (fun m hm => hls m (by simp [← hcut, hm])) hi) hms' hR'
    rw [List.map_append, List.map_cons]
    exact ⟨l.lead ++ m :: ms, List.rel_append (hlead l).1 (.cons hm hms),
      List.rel_append (hlead l).2 (.cons hRm hR)⟩

end Walks

/-- **A walk over the blocks of a sheet** changes the whitespace in gaps, if it does so in each of
the blocks. -/
theorem Parsed.exists_reblocked {P : Node → Prop} {R : Node → Node → Prop} {f : Node → Node}
    {source : List Char} {tree : Node} {ts : List Token} {ns : List Node}
    (hp : Parsed d source tree ts ns) (hw : Walks d gone (Lines.cut none [] ts) P R f)
    (hn : AllOf P ns) :
    ∃ ms, List.Forall₂ (Reblocked d gone) ns ms ∧ List.Forall₂ R ms (ns.map (mapBlock f)) := by
  have hnodes := hp.nodes_eq
  unfold sheetNodes at hnodes
  split at hnodes
  · rename_i hbraces
    have hd : d ≠ .sass := by
      rintro rfl
      cases hbraces
    cases Braces.nodes_eq_ok.1 hnodes with
    | intro hi hl ho =>
      obtain ⟨ms, hms, hR⟩ := hw.items hd hi ((allOf_append _ _).1 hn).1
      obtain ⟨hown, hown'⟩ := hw.plain ho
      rw [List.map_append]
      exact ⟨_, List.rel_append hms hown, List.rel_append hR hown'⟩
  · rename_i hd
    have hsass : d = .sass := by simpa [Dialect.usesBraces] using hd
    subst hsass
    exact hw.lines (Lines.nodesOf_eq_ok.1 hnodes) (fun _ hl => hl) hn

/-- **A sheet with more whitespace in gaps is read back**, but for whitespace. -/
theorem Parsed.exists_parse_mapBlocks {P : Node → Prop} {f : Node → Node} {source : List Char}
    {tree : Node} {ts : List Token} {ns : List Node} (hp : Parsed d source tree ts ns)
    (hw : Walks d (fun _ => False) (Lines.cut none [] ts) P (fun m n => m.chars = n.chars) f)
    (hn : AllOf P ns) :
    ∃ again, parseChars d (tree.mapBlocks f).chars = .ok again ∧
      again.solid.sameShape tree.solid = true := by
  have hcuts := (tokens_eq_ok.1 hp.tokens_eq).cuts
  obtain ⟨ms, hms, hchars⟩ := hp.exists_reblocked hw hn
  rw [hp.chars_mapBlocks, ← charsOf_of_forall₂ hchars]
  exact hp.exists_parse_sameShape ⟨hcuts, fun _ _ _ h => h⟩ (fun _ _ h => h) hms

end TidySheet
