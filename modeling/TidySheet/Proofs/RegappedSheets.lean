import TidySheet.Proofs.Outline
import TidySheet.Proofs.RegappedStatements

/-!
# Sheets with other whitespace in their gaps are read back

* `Braces.Items.regapped` — what stands in a block, with other whitespace in its gaps;
* `Lines.Nested.regapped` — and what stands on lines;
* `Reblocked` — a node with other whitespace in the gaps of its block;
* `exists_parse_of_reblocked` — a sheet with other whitespace in its blocks is read back.
-/

set_option autoImplicit false

namespace TidySheet

open Token Node

variable {d : Dialect} {gone : Position → Prop}

namespace Braces

open Statement

variable {s s' : Slack} {ms : List Node}

theorem past_brace {a : Token}
    (h : a.kind = .leftBrace ∨ a.kind = .rightBrace ∨ a.kind = .semicolon) :
    Slack.past a = .free := by
  refine Slack.past_of_isClosed ?_
  rcases h with h | h | h <;> rw [isClosed, h]

/-- Behind a mark that ends a statement or bounds a block, whitespace may change. -/
theorem aired_past_mark {a : Token} {ts us rest rest' : List Token}
    (ha : a.kind = .leftBrace ∨ a.kind = .rightBrace ∨ a.kind = .semicolon)
    (h : Airs d gone .free ts us s') (hc : Clear d gone (a :: (ts ++ rest)))
    (hk : ∀ σ', Faces d gone σ' rest → s'.Allows σ' rest → Aired d σ' rest rest') :
    Aired d (.past a) (ts ++ rest) (us ++ rest') := by
  have hfits := hc.faces
  rw [past_brace ha] at hfits ⊢
  exact h.aired hc.tail hfits (Slack.allows_free _) hk

/-- **A statement between braces, with other whitespace in its gaps and before it.** -/
theorem Head.regapped {head : List Token} {own : List Node} (hh : Head head 0)
    (h : Plain d head own) (hn : ∀ t ∈ head, t.kind ≠ .newline) (hr : Regapped d gone s own ms s') :
    ∃ gap head' ms', ms = leaves d gap ++ ms' ∧ (∀ t ∈ gap, t.isTrivia = true) ∧ Head head' 0 ∧
      Plain d head' ms' ∧ ∀ {σ : Slack} {rest rest' : List Token}, Clear d gone (head ++ rest) →
        Faces d gone σ (head ++ rest) → s.Allows σ (head ++ rest) → Fenced rest →
        (∀ σ', Faces d gone σ' rest → s'.Allows σ' rest → Aired d σ' rest rest') →
          Aired d σ (head ++ rest) (gap ++ (head' ++ rest')) := by
  have hspace := h.head?_kind_ne hh.start
  cases own with
  | nil =>
    obtain ⟨rfl, rfl⟩ := hr.eq_nil
    obtain rfl : head = [] := by
      cases head with
      | nil => rfl
      | cons t head => exact absurd h.first_mem (by simp)
    exact ⟨[], [], [], rfl, by simp, hh, h, fun _ hf ha _ hk => hk _ hf ha⟩
  | cons n own =>
    obtain ⟨gap, xs, rfl, hput, hr', -⟩ := hr.unput (hspace n rfl)
    obtain ⟨ts, rfl, hts, -, -, -, hairs⟩ := hput.exists_airs gone
    obtain ⟨head', h', hre⟩ := h.regapped hn hr'
    refine ⟨ts, head', xs, rfl, hts, ⟨?_, ?_⟩, h', fun hc hf ha hfence hk => ?_⟩
    · rw [hre.head?_eq]
      exact hh.start
    · rw [depthOver_eq hre.matched, hh.depth_eq]
    · have hbehind := hre.aired hc (.stuck _) (fun _ => hfence) hk
      cases head with
      | nil => cases h
      | cons t head =>
        have hw := Token.kind_ne_whitespace (hh.start t rfl)
        exact hairs hc.cuts hf ha (fun _ => ⟨hw, hn t (by simp)⟩) hbehind

/-- **Items with other whitespace in their gaps.** -/
theorem Items.regapped (hd : d ≠ .sass) {ts : List Token} {ns : List Node} (h : Items d ts ns)
    (hn : ∀ t ∈ ts, t.kind ≠ .newline) (hr : Regapped d gone s ns ms s') :
    ∃ us, Items d us ms ∧ Airs d gone s ts us s' := by
  have hopening : Slack.opening d = .free := if_neg hd
  induction h generalizing s ms s' with
  | nil =>
    obtain ⟨rfl, rfl⟩ := hr.eq_nil
    exact ⟨[], .nil, .nil _⟩
  | @trivia t ts ns ht _ ih =>
    obtain ⟨xs, ys, s₁, rfl, h₁, h₂⟩ := hr.of_cons
    obtain ⟨us, rfl, hus, -, hairs, -⟩ := h₁.trivia_token ht
    obtain ⟨vs, hvs, hairs'⟩ := ih (fun u hu => hn u (by simp [hu])) h₂
    exact ⟨us ++ vs, (items_trivia hus).append hvs, hairs.append hairs'⟩
  | @statement head ts semi own ns hh ho hs _ ih =>
    obtain ⟨xs, ys, s₁, rfl, h₁, h₂⟩ := hr.split
    obtain ⟨gap, head', own', rfl, hgap, hh', ho', hairs⟩ :=
      hh.regapped ho (fun t ht => hn t (by simp [ht])) h₁
    have hdelimiter : (semi.leaf d).kind = .declarationDelimiter := by
      show semi.leafKind = _
      rw [leafKind, hs]
    obtain ⟨zs, rfl, h₃⟩ := h₂.of_delimiter hdelimiter
    obtain ⟨us, hus, hairs'⟩ := ih (fun u hu => hn u (by simp [hu])) h₃
    rw [hopening] at hairs'
    refine ⟨gap ++ (head' ++ semi :: us), ?_, ⟨fun hc hf ha hk => ?_⟩⟩
    · rw [List.append_assoc]
      exact (items_trivia hgap).append (.statement hh' ho' hs hus)
    · simp only [List.append_assoc, List.cons_append] at hc hf ha ⊢
      exact hairs hc hf ha (fenced_cons (by rw [isBarrier, hs]) _) fun _ _ _ =>
        .keep semi (aired_past_mark (.inr (.inr hs)) hairs' hc.right hk)
  | @nested head inner last ts a b cs own ns n hh ha hi hl ho hb hopen _ ihi ih =>
    have hspace : n.kind ≠ .space := by
      rcases hopen.kind_mem with hk | hk <;> rw [hk] <;> exact Kind.noConfusion
    obtain ⟨gap, xs, rfl, hput, hr₁, -⟩ := hr.unput hspace
    obtain ⟨g, rfl, hg, -, -, -, hairs⟩ := hput.exists_airs gone
    obtain ⟨k, init, hk, rfl, hany⟩ := hopen.exists_label
    obtain ⟨cs', ms', rfl, hr₂, s₁, hr₃⟩ := hr₁.of_stuck_opener hk
    obtain ⟨us, hus, hairs'⟩ := ih (fun u hu => hn u (by simp [hu])) hr₂
    -- the nodes of the block are those of its items, and of its last statement
    obtain ⟨ys, zs, s₂, rfl, h₁, h₂⟩ := hr₃.split
    obtain ⟨inner', hi', hinner⟩ := ihi (fun u hu => hn u (by simp [hu])) h₁
    obtain ⟨g', last', own', rfl, hg', hl', ho', hlast⟩ :=
      hl.regapped ho (fun t ht => hn t (by simp [ht])) h₂
    have hopen' := hany ((ys ++ leaves d g') ++ own')
    rw [hopening] at hinner hairs'
    refine ⟨g ++ (head ++ a :: ((inner' ++ g') ++ (last' ++ b :: us))), ?_,
      ⟨@fun σ rest rest' hc hf hal hk => ?_⟩⟩
    · rw [← List.append_assoc ys]
      exact (items_trivia hg).append
        (.nested hh ha (hi'.append (items_trivia hg')) hl' ho' hb hopen' hus)
    · simp only [List.append_assoc, List.cons_append] at hc hf hal ⊢
      have hca := hc.right
      have hbehind : Aired d (.past b) (ts ++ rest) (us ++ rest') :=
        aired_past_mark (.inr (.inl hb)) hairs' hca.tail.right.right hk
      have hblock : Aired d (.past a) (inner ++ (last ++ b :: (ts ++ rest)))
          (inner' ++ (g' ++ (last' ++ b :: (us ++ rest')))) :=
        aired_past_mark (.inl ha) hinner hca fun σ' hf' ha' =>
          hlast hca.tail.right hf' ha' (fenced_cons (by rw [isBarrier, hb]) _)
            fun _ _ _ => .keep b hbehind
      have hfront := Aired.behind (σ := .stuck) head (.keep a hblock)
      cases head with
      | nil => exact hairs hc.cuts hf hal (fun _ => by simp [ha]) hfront
      | cons t head =>
        have hw := Token.kind_ne_whitespace (hh.start t rfl)
        exact hairs hc.cuts hf hal (fun _ => ⟨hw, hn t (by simp)⟩) hfront

end Braces

/-! ## On lines -/

/-- Tokens that are kept leave nothing to the gap behind them. -/
theorem Airs.keep (s : Slack) (xs : List Token) : Airs d gone s xs xs .stuck :=
  ⟨fun hc hf _ hk => (hk _ (hf.after hc) (Slack.allows_stuck _ _)).behind xs⟩

/-- What may follow where nothing may change may follow anywhere. -/
theorem Airs.to_stuck {s s' : Slack} {ts us : List Token} (h : Airs d gone s ts us s') :
    Airs d gone s ts us .stuck :=
  ⟨fun hc hf ha hk => h.aired hc hf ha fun σ' hf' _ => hk σ' hf' (Slack.allows_stuck _ _)⟩

namespace Lines

open Statement

/-- A line with other whitespace behind its first token. -/
structure RegappedLine (l m : Line) : Prop where
  newline_eq : m.newline = l.newline
  indent_eq : m.indent = l.indent
  head?_eq : m.body.head? = l.body.head?
  matched : Matched id l.body m.body

namespace RegappedLine

variable {l m : Line}

theorem refl (l : Line) : RegappedLine l l := ⟨rfl, rfl, rfl, .refl _⟩

theorem isBlank_eq (h : RegappedLine l m) : m.isBlank = l.isBlank := by
  have hnone : ∀ k : Line, k.isBlank = k.body.head?.isNone := by
    rintro ⟨newline, indent, body⟩
    cases body <;> rfl
  rw [hnone, hnone, h.head?_eq]

theorem startsWithComment_eq (h : RegappedLine l m) :
    m.startsWithComment = l.startsWithComment := by
  have hany : ∀ k : Line, k.startsWithComment =
      k.body.head?.any fun t => t.kind == .comment || t.kind == .lineComment := by
    rintro ⟨newline, indent, body⟩
    cases body <;> rfl
  rw [hany, hany, h.head?_eq]

theorem width_eq (h : RegappedLine l m) : m.width = l.width := by
  rw [Line.width, Line.width, h.indent_eq]

end RegappedLine

/-- Lines with other whitespace in them are nested alike. -/
theorem cutNested_regapped {width : Nat} {ls ms : List Line}
    (h : List.Forall₂ RegappedLine ls ms) :
    List.Forall₂ RegappedLine (cutNested width ls).1 (cutNested width ms).1 := by
  induction h with
  | nil => exact .nil
  | @cons l m ls ms hl hr ih =>
    simp only [cutNested, hl.isBlank_eq, hl.width_eq]
    generalize cutNested width ls = cut, cutNested width ms = cut' at ih
    obtain ⟨inner, outer⟩ := cut
    obtain ⟨inner', outer'⟩ := cut'
    split
    · cases ih with
      | nil => exact .nil
      | cons hk hks => exact .cons hl (.cons hk hks)
    · split
      · exact .cons hl ih
      · exact .nil

theorem RegappedLine.cutBlock {l m : Line} {ls ms : List Line} (hl : RegappedLine l m)
    (h : List.Forall₂ RegappedLine ls ms) :
    List.Forall₂ RegappedLine (cutBlock l ls).1 (cutBlock m ms).1 := by
  unfold Lines.cutBlock
  rw [hl.startsWithComment_eq, hl.width_eq]
  split
  · exact .nil
  · exact cutNested_regapped h

theorem RegappedLine.cutBlock_append {l m : Line} {inner outer inner' outer' : List Line}
    (hl : RegappedLine l m) (hc : Lines.cutBlock l (inner ++ outer) = (inner, outer))
    (hi : List.Forall₂ RegappedLine inner inner') (ho : List.Forall₂ RegappedLine outer outer') :
    Lines.cutBlock m (inner' ++ outer') = (inner', outer') := by
  have hnested := hl.cutBlock (List.rel_append hi ho)
  have hlength : (Lines.cutBlock m (inner' ++ outer')).1.length = inner'.length := by
    rw [← hnested.length_eq, hc, hi.length_eq]
  obtain ⟨h₁, h₂⟩ := List.append_inj (Lines.cutBlock_append m (inner' ++ outer')) hlength
  exact Prod.ext h₁ h₂

/-- What stands before the body of a line is kept. -/
theorem Line.regapped_lead {l : Line} {ns ms : List Node} {s s' : Slack}
    (hs : s = .stuck ∨ ∃ t, l.newline = some t)
    (h : Regapped .sass gone s (l.lead ++ ns) ms s') :
    ∃ ms', ms = l.lead ++ ms' ∧ Regapped .sass gone .stuck ns ms' s' := by
  obtain ⟨newline, indent, body⟩ := l
  have hindent : ∀ {ms : List Node}, Regapped .sass gone .stuck
      ((indent.map fun t => t.leafAs .space .sass).toList ++ ns) ms s' →
        ∃ ms', ms = (indent.map fun t => t.leafAs .space .sass).toList ++ ms' ∧
          Regapped .sass gone .stuck ns ms' s' := by
    intro ms h
    cases indent with
    | none => exact ⟨ms, rfl, h⟩
    | some t =>
      exact h.of_stuck_of_no_block (n := t.leafAs .space .sass) Kind.noConfusion
        (by simp [leafAs, children])
  cases newline with
  | none =>
    obtain rfl := hs.resolve_right (by simp)
    exact hindent h
  | some t =>
    obtain ⟨xs, rfl, h'⟩ := Regapped.of_delimiter rfl h
    obtain ⟨ys, rfl, h''⟩ := hindent h'
    exact ⟨ys, rfl, h''⟩

/-- **Lines with other whitespace in their gaps.** -/
theorem Nested.regapped (hgone : ∀ p, ¬ gone p) {ls : List Line} {ns ms : List Node} {s s' : Slack}
    (h : Nested ls ns) (hn : ∀ l ∈ ls, ∀ t ∈ l.body, t.kind ≠ .newline)
    (hs : s = .stuck ∨ ∀ l ∈ ls.head?, ∃ t, l.newline = some t)
    (hbreak : ∀ l ∈ ls.tail, ∃ t, l.newline = some t) (hr : Regapped .sass gone s ns ms s') :
    ∃ ls', Nested ls' ms ∧ List.Forall₂ RegappedLine ls ls' ∧
      Airs .sass gone s (ls.flatMap Line.tokens) (ls'.flatMap Line.tokens) s' := by
  induction h generalizing s s' ms with
  | nil =>
    obtain ⟨rfl, rfl⟩ := hr.eq_nil
    exact ⟨[], .nil, .nil, .nil _⟩
  | @blank l ls ns hb _ ih =>
    obtain ⟨ms', rfl, hr'⟩ := Line.regapped_lead (hs.imp_right fun h => h l rfl) hr
    obtain ⟨ls', hls', hlines, hairs⟩ := ih (fun m hm => hn m (by simp [hm])) (.inl rfl)
      (fun m hm => hbreak m (List.mem_of_mem_tail hm)) hr'
    exact ⟨l :: ls', .blank hb hls', .cons (.refl l) hlines, (Airs.keep s l.tokens).append hairs⟩
  | @statement l ls own ns hb hc ho _ ih =>
    obtain ⟨ms', rfl, hr'⟩ := Line.regapped_lead (hs.imp_right fun h => h l rfl) hr
    obtain ⟨xs, ys, s₁, rfl, h₁, h₂⟩ := hr'.split
    obtain ⟨body, ho', hre⟩ := ho.regapped (hn l (by simp)) h₁
    obtain ⟨ls', hls', hlines, hairs⟩ := ih (fun m hm => hn m (by simp [hm]))
      (.inr fun m hm => hbreak m (List.mem_of_mem_head? hm))
      (fun m hm => hbreak m (List.mem_of_mem_tail hm)) h₂
    have hl : RegappedLine l ⟨l.newline, l.indent, body⟩ := ⟨rfl, rfl, hre.head?_eq, hre.matched⟩
    refine ⟨⟨l.newline, l.indent, body⟩ :: ls', ?_, .cons hl hlines, ?_⟩
    · refine .statement (by rw [hl.isBlank_eq, hb]) ?_ ho' hls'
      have hnested := hl.cutBlock hlines
      rwa [hc, List.forall₂_nil_left_iff] at hnested
    · have hbody : Airs .sass gone .stuck l.body body s₁ :=
        ⟨fun hc hf _ hk => hre.aired hc hf (fun h => absurd rfl h) hk⟩
      have hline := (Airs.keep s (l.newline.toList ++ l.indent.toList)).append (hbody.append hairs)
      simpa [Line.tokens] using hline
  | @block l ls inner outer cs ns n hb hc hne hi ho _ ihi ih =>
    obtain rfl : inner ++ outer = ls := append_of_cutBlock hc
    obtain ⟨ms', rfl, hr'⟩ := Line.regapped_lead (hs.imp_right fun h => h l rfl) hr
    obtain ⟨k, init, hk, rfl, hany⟩ := ho.exists_label
    obtain ⟨cs', ys, rfl, hr₁, s₁, hr₂⟩ := hr'.of_stuck_opener hk
    obtain ⟨inner', hi', hlines, hairs⟩ := ihi (fun m hm => hn m (by simp [hm])) (.inl rfl)
      (fun m hm => hbreak m (by simp [List.mem_of_mem_tail hm])) hr₂
    obtain ⟨outer', ho', hlines', hairs'⟩ := ih (fun m hm => hn m (by simp [hm])) (.inl rfl)
      (fun m hm => hbreak m (by simp [List.mem_of_mem_tail hm])) hr₁
    refine ⟨l :: (inner' ++ outer'), ?_, .cons (.refl l) (List.rel_append hlines hlines'), ?_⟩
    · refine .block hb ((RegappedLine.refl l).cutBlock_append hc hlines hlines') ?_ hi' ?_ ho'
      · rintro rfl
        exact hne (List.forall₂_nil_right_iff.1 hlines)
      · rw [ofChildren, hr₂.spanOf_eq hgone]
        exact hany cs'
    · have hblock := (Airs.keep s l.tokens).append (hairs.to_stuck.append hairs')
      simpa using hblock

/-! ### Cutting lines again -/

/-- A line as it is cut from tokens. -/
structure Line.Whole (l : Line) : Prop where
  ofTokens_eq : .ofTokens l.newline (l.indent.toList ++ l.body) = l
  kind_ne : ∀ t ∈ l.indent.toList ++ l.body, t.kind ≠ .newline

theorem cut_append {xs : List Token} (h : ∀ t ∈ xs, t.kind ≠ .newline) (newline : Option Token)
    (line ts : List Token) : cut newline line (xs ++ ts) = cut newline (xs.reverse ++ line) ts := by
  induction xs generalizing line with
  | nil => rfl
  | cons x xs ih =>
    rw [List.cons_append, cut, if_neg (h x (by simp)), ih fun t ht => h t (by simp [ht])]
    simp

/-- **Lines are cut from their tokens.** -/
theorem cut_flatMap_tokens {l : Line} {ls : List Line} (hl : l.Whole)
    (hls : ∀ m ∈ ls, m.Whole ∧ ∃ t, m.newline = some t ∧ t.kind = .newline) :
    cut l.newline [] (l.indent.toList ++ l.body ++ ls.flatMap Line.tokens) = l :: ls := by
  induction ls generalizing l with
  | nil =>
    rw [cut_append hl.kind_ne, List.flatMap_nil, cut]
    simpa using hl.ofTokens_eq
  | cons m ls ih =>
    obtain ⟨hm, t, hnewline, ht⟩ := hls m (by simp)
    have hrest := ih hm fun k hk => hls k (by simp [hk])
    have htokens : (m :: ls).flatMap Line.tokens =
        t :: (m.indent.toList ++ m.body ++ ls.flatMap Line.tokens) := by
      simp [Line.tokens, hnewline]
    rw [hnewline] at hrest
    rw [cut_append hl.kind_ne, htokens, cut, if_pos ht, hrest]
    simpa using hl.ofTokens_eq

theorem whole_of_mem_cut {ts : List Token} {l : Line} (h : l ∈ cut none [] ts) : l.Whole := by
  have hframed : l.Framed := framed_cut (by simp) [] ts l h
  constructor
  · obtain ⟨newline, xs, rfl, -⟩ := exists_ofTokens h
    rw [Line.newline_ofTokens, Line.rest_ofTokens]
  · refine List.forall_mem_append.2 ⟨fun t ht => ?_, fun t => kind_ne_of_mem_cut h⟩
    rw [hframed.indent_kind t (by simpa using ht)]
    exact TokenKind.noConfusion

theorem kind_ne_of_matched {ts us : List Token} {k : TokenKind} (h : Matched id ts us)
    (hk : k ≠ .whitespace) (ht : ∀ t ∈ ts, t.kind ≠ k) : ∀ u ∈ us, u.kind ≠ k := by
  induction h with
  | nil => simp
  | drop _ _ ih => exact ih fun t hm => ht t (by simp [hm])
  | put hu _ ih => exact List.forall_mem_cons.2 ⟨fun h => hk (h.symm.trans hu), ih ht⟩
  | keep hkind _ _ ih =>
    refine List.forall_mem_cons.2 ⟨?_, ih fun t hm => ht t (by simp [hm])⟩
    rw [hkind]
    exact ht _ (by simp)

theorem RegappedLine.whole {l m : Line} (h : RegappedLine l m) (hl : l.Whole) (hf : l.Framed) :
    m.Whole := by
  obtain ⟨newline, indent, body⟩ := l
  obtain ⟨newline', indent', body'⟩ := m
  obtain ⟨hnewline, hindent, hhead, hmatch⟩ := h
  dsimp only at hnewline hindent hhead hmatch
  subst hnewline hindent
  obtain ⟨hindent, hbody⟩ := List.forall_mem_append.1 hl.kind_ne
  have hbody' := kind_ne_of_matched hmatch TokenKind.noConfusion hbody
  refine ⟨?_, List.forall_mem_append.2 ⟨hindent, hbody'⟩⟩
  cases indent' with
  | some w =>
    have hw := hf.indent_kind w rfl
    simp [Line.ofTokens, hw]
  | none =>
    -- without an indent the body does not start with whitespace
    cases body' with
    | nil => rfl
    | cons t body' =>
      obtain ⟨rest, rfl⟩ := List.head?_eq_some_iff.1 hhead.symm
      have ht : t.kind ≠ .whitespace := by
        intro ht
        have heq := hl.ofTokens_eq
        simp [Line.ofTokens, ht] at heq
      simp [Line.ofTokens, ht]

theorem RegappedLine.whole_all {ls ms : List Line} (h : List.Forall₂ RegappedLine ls ms)
    (hls : ∀ l ∈ ls, l.Whole ∧ l.Framed ∧ ∃ t, l.newline = some t) :
    ∀ m ∈ ms, m.Whole ∧ ∃ t, m.newline = some t ∧ t.kind = .newline := by
  induction h with
  | nil => simp
  | @cons l m ls ms hl _ ih =>
    obtain ⟨hwhole, hframed, t, ht⟩ := hls l (by simp)
    refine List.forall_mem_cons.2 ⟨⟨hl.whole hwhole hframed, t, ?_, hframed.newline_kind t ht⟩, ?_⟩
    · rw [hl.newline_eq, ht]
    · exact ih fun k hk => hls k (by simp [hk])

end Lines

/-! ## Sheets -/

/-- **A node with other whitespace in its block**, and nothing else changed. -/
inductive Reblocked (d : Dialect) (gone : Position → Prop) : Node → Node → Prop
  | refl (n : Node) : Reblocked d gone n n
  | block {s : Slack} {l k : Label} {init cs cs' : List Node}
      (hl : l.kind = .ruleset ∨ l.kind = .atrule) (hk : k.kind = .block)
      (h : Regapped d gone (.opening d) cs cs' s) :
      Reblocked d gone (.branch l (init ++ [.branch k cs])) (.branch l (init ++ [.branch k cs']))

namespace Reblocked

variable {n m : Node} {ns ms : List Node}

theorem regapped (h : List.Forall₂ (Reblocked d gone) ns ms) (s : Slack) :
    ∃ s', Regapped d gone s ns ms s' := by
  induction h generalizing s with
  | nil => exact ⟨s, .nil s⟩
  | @cons n m ns ms hn _ ih =>
    cases hn with
    | refl =>
      obtain ⟨s', h⟩ := ih (.beyond d n)
      exact ⟨s', .keep n (.none s) (fun h => absurd rfl h) h⟩
    | block hl hk hb =>
      obtain ⟨s', h⟩ := ih (.opening d)
      exact ⟨s', .nested (.none s) hl hk hb h⟩

theorem eq_of_no_block (h : Reblocked d gone n m) (hn : n.All fun c => c.kind ≠ .block) :
    m = n := by
  cases h with
  | refl => rfl
  | @block _ l k init cs cs' hl hk =>
    have hblock := hn.children
    simp only [children, allOf_append, allOf_cons] at hblock
    exact absurd hk hblock.2.1.self

theorem eq_of_no_blocks (h : List.Forall₂ (Reblocked d gone) ns ms)
    (hn : AllOf (fun c => c.kind ≠ .block) ns) : ms = ns := by
  induction h with
  | nil => rfl
  | cons hn' _ ih =>
    rw [allOf_cons] at hn
    rw [hn'.eq_of_no_block hn.1, ih hn.2]

end Reblocked

/-- **A sheet with other whitespace in its blocks**, between braces. -/
theorem Braces.Sheet.regapped (hd : d ≠ .sass) {ts : List Token} {ns ms : List Node}
    (h : Sheet d ts ns) (hn : ∀ t ∈ ts, t.kind ≠ .newline) (hc : Clear d gone ts)
    (hr : List.Forall₂ (Reblocked d gone) ns ms) : ∃ us, Sheet d us ms ∧ Aired d .stuck ts us := by
  cases h with
  | @intro items last cs own depth hi hl ho =>
    obtain ⟨xs, ys, rfl, hxs, hys⟩ : ∃ xs ys, ms = xs ++ ys ∧
        List.Forall₂ (Reblocked d gone) cs xs ∧ List.Forall₂ (Reblocked d gone) own ys := by
      refine ⟨ms.take cs.length, ms.drop cs.length, (List.take_append_drop _ _).symm, ?_, ?_⟩
      · simpa using List.forall₂_take cs.length hr
      · simpa using List.forall₂_drop cs.length hr
    rw [Reblocked.eq_of_no_blocks hys ho.no_block]
    obtain ⟨s', hregapped⟩ := Reblocked.regapped hxs .stuck
    obtain ⟨us, hus, hairs⟩ := hi.regapped hd (fun t ht => hn t (by simp [ht])) hregapped
    refine ⟨us ++ last, .intro hus hl ho, hairs.aired hc (.stuck _) (Slack.allows_stuck _ _) ?_⟩
    intro σ' _ _
    simpa using Aired.behind (d := d) (σ := σ') last (.nil _)

/-- **A sheet with other whitespace in its blocks**, on lines. -/
theorem Lines.regapped_cut (hgone : ∀ p, ¬ gone p) {ts : List Token} {ns ms : List Node}
    (h : Nested (cut none [] ts) ns) (hc : Clear .sass gone ts)
    (hr : List.Forall₂ (Reblocked .sass gone) ns ms) :
    ∃ us, Nested (cut none [] us) ms ∧ Aired .sass .stuck ts us := by
  obtain ⟨s', hregapped⟩ := Reblocked.regapped hr .stuck
  obtain ⟨l, ls, hcut, hfirst, hbreak⟩ := exists_cut_eq none [] ts
  have htokens := flatMap_tokens_cut none [] ts
  simp only [Option.toList_none, List.reverse_nil, List.nil_append] at htokens
  obtain ⟨ls', hls', hlines, hairs⟩ := h.regapped hgone (fun l hl t => kind_ne_of_mem_cut hl)
    (.inl rfl) (by rw [hcut]; exact hbreak) hregapped
  have haired : Aired .sass .stuck (ts ++ []) (ls'.flatMap Line.tokens ++ []) := by
    rw [htokens] at hairs
    exact hairs.aired (by simpa using hc) (.stuck _) (Slack.allows_stuck _ _) fun _ _ _ => .nil _
  refine ⟨ls'.flatMap Line.tokens, ?_, by simpa using haired⟩
  have hwhole : ∀ m ∈ l :: ls, m.Whole ∧ m.Framed := by
    intro m hm
    rw [← hcut] at hm
    exact ⟨whole_of_mem_cut hm, framed_cut (by simp) [] ts m hm⟩
  rw [hcut] at hlines
  cases hlines with
  | @cons _ m _ ms hl hlines =>
    obtain ⟨hw, hf⟩ := hwhole l (by simp)
    have hnewline : m.newline = none := by rw [hl.newline_eq, hfirst]
    have hagain := cut_flatMap_tokens (hl.whole hw hf) (RegappedLine.whole_all hlines fun k hk =>
      ⟨(hwhole k (by simp [hk])).1, (hwhole k (by simp [hk])).2, hbreak k hk⟩)
    rw [hnewline] at hagain
    have hcut' : cut none [] ((m :: ms).flatMap Line.tokens) = m :: ms := by
      simpa [Line.tokens, hnewline] using hagain
    rw [hcut']
    exact hls'

/-- **A sheet with other whitespace in its blocks** is read from tokens that are cut from their
text. -/
theorem Parsed.exists_sheetNodes {source : List Char} {tree : Node} {ts : List Token}
    {ns ms : List Node} (hp : Parsed d source tree ts ns) (hc : Clear d gone ts)
    (hgone : d = .sass → ∀ p, ¬ gone p) (hr : List.Forall₂ (Reblocked d gone) ns ms) :
    ∃ us, sheetNodes d us = .ok ms ∧ Cuts d us := by
  by_cases hd : d = .sass
  · subst hd
    obtain ⟨us, hus, haired⟩ :=
      Lines.regapped_cut (hgone rfl) (Lines.nodesOf_eq_ok.1 hp.nodes_eq) hc hr
    exact ⟨us, Lines.nodesOf_eq_ok.2 hus, haired.cuts hc.cuts⟩
  · have hbraces : d.usesBraces = true := by cases d <;> first | rfl | exact absurd rfl hd
    have hnodes := hp.nodes_eq
    rw [sheetNodes, if_pos hbraces] at hnodes
    obtain ⟨us, hus, haired⟩ := (Braces.nodes_eq_ok.1 hnodes).regapped hd
      ((tokens_eq_ok.1 hp.tokens_eq).kind_ne_newline hbraces) hc hr
    refine ⟨us, ?_, haired.cuts hc.cuts⟩
    rw [sheetNodes, if_pos hbraces]
    exact Braces.nodes_eq_ok.2 hus

/-- **A sheet with other whitespace in its blocks is read back**, at other places. -/
theorem Parsed.exists_parse_of_reblocked {source : List Char} {tree : Node} {ts : List Token}
    {ns ms : List Node} (hp : Parsed d source tree ts ns) (hc : Clear d gone ts)
    (hgone : d = .sass → ∀ p, ¬ gone p) (hr : List.Forall₂ (Reblocked d gone) ns ms) :
    ∃ again, parseChars d (charsOf ms) = .ok again ∧
      again.unplace = (ofChildren .stylesheet d ms).unplace := by
  obtain ⟨us, hus, hcuts⟩ := hp.exists_sheetNodes hc hgone hr
  exact hcuts.exists_parse hus

/-- **Without whitespace, it has the shape that it had.** -/
theorem Parsed.exists_parse_sameShape {source : List Char} {tree : Node} {ts : List Token}
    {ns ms : List Node} (hp : Parsed d source tree ts ns) (hc : Clear d gone ts)
    (hgone : d = .sass → ∀ p, ¬ gone p) (hr : List.Forall₂ (Reblocked d gone) ns ms) :
    ∃ again, parseChars d (charsOf ms) = .ok again ∧ again.solid.sameShape tree.solid = true := by
  obtain ⟨again, hagain, hsame⟩ := hp.exists_parse_of_reblocked hc hgone hr
  obtain ⟨s', hregapped⟩ := Reblocked.regapped hr .stuck
  refine ⟨again, hagain, sameShape_of_unplace ?_⟩
  rw [unplace_solid, hsame, ← unplace_solid, hp.tree_eq, ofChildren, ofChildren, Node.solid,
    Node.solid, hregapped.solids_eq]
  rfl

end TidySheet
