import TidySheet.Proofs.ColonPadding
import TidySheet.Proofs.Lossless
import TidySheet.Proofs.Renesting

/-!
# When colon alignment is idempotent

All columns are taken before any blank is put in, and blanks before a colon shift what stands behind
it on its line, in whatever block that is. So colons that a first run brings to one column can be
apart in its output.

* `chars_aligned` — what one run prints, `aligned_eq_iff` — and when it changes nothing;
* `exists_parse_aligned` — the output can be parsed, and where its colons are;
* `render_process_process` — when a second run changes nothing.
-/

set_option autoImplicit false

namespace TidySheet

open Node

/-! ## Blanks that show in the text -/

theorem Token.loose_eq_textOf_iff {w : Position → Nat} {ts : List Token} :
    loose w ts = textOf ts ↔ ∀ t ∈ ts, w t.span.first = 0 := by
  induction ts with
  | nil => simp
  | cons t ts ih =>
    rw [List.forall_mem_cons, ← ih, loose_cons, tight, textOf_cons]
    constructor
    · intro h
      have hle : ∀ us : List Token, (textOf us).length ≤ (loose w us).length := by
        intro us
        induction us with
        | nil => simp
        | cons u us ih =>
          simp only [textOf_cons, loose_cons, tight, List.length_append]
          omega
      have hlength := congrArg List.length h
      have hrest := hle ts
      simp only [List.length_append, List.length_replicate] at hlength
      have h0 : w t.span.first = 0 := by omega
      rw [h0, List.replicate_zero, List.nil_append] at h
      exact ⟨h0, List.append_cancel_left h⟩
    · rintro ⟨h0, hrest⟩
      rw [h0, hrest]
      rfl

/-! ## Lines that start with a colon -/

/-- The characters of a text before the place `p` on the line of `p`; the text starts at `here`. -/
def lineBefore (p : Position) : (here : Position) → List Char → List Char
  | _, [] => []
  | here, c :: cs =>
    if here.line = p.line ∧ here.column < p.column then c :: lineBefore p (here.next c) cs
    else lineBefore p (here.next c) cs

section

variable {p here : Position}

theorem lineBefore_append (cs ds : List Char) : lineBefore p here (cs ++ ds) =
    lineBefore p here cs ++ lineBefore p (here.after cs) ds := by
  induction cs generalizing here with
  | nil => rfl
  | cons c cs ih =>
    rw [List.cons_append, lineBefore, lineBefore, ih, Position.after_cons]
    split <;> rfl

theorem mem_of_mem_lineBefore {c : Char} {cs : List Char} (h : c ∈ lineBefore p here cs) :
    c ∈ cs := by
  induction cs generalizing here with
  | nil => cases h
  | cons x cs ih =>
    rw [lineBefore] at h
    split at h
    · rcases List.mem_cons.1 h with rfl | h
      · exact List.mem_cons_self
      · exact List.mem_cons_of_mem x (ih h)
    · exact List.mem_cons_of_mem x (ih h)

/-- Nothing of a text that starts at a place stands before the place. -/
theorem lineBefore_of_not_before (h : ¬ here.Before p) (cs : List Char) :
    lineBefore p here cs = [] := by
  induction cs generalizing here with
  | nil => rfl
  | cons c cs ih =>
    rw [lineBefore, if_neg fun hb => h (.inr hb)]
    exact ih fun hb => h ((here.before_next c).trans hb)

theorem Position.line_le_after (p : Position) (cs : List Char) : p.line ≤ (p.after cs).line := by
  induction cs generalizing p with
  | nil => exact Nat.le_refl _
  | cons c cs ih =>
    refine Nat.le_trans ?_ (ih (p.next c))
    unfold Position.next
    split
    · exact Nat.le_succ _
    · exact Nat.le_refl _

/-- Nothing of the lines above stands on the line of a place. -/
theorem lineBefore_of_newline (cs : List Char) (h : (here.after cs).line < p.line) :
    lineBefore p here (cs ++ ['\n']) = [] := by
  induction cs generalizing here with
  | nil =>
    have hne : here.line ≠ p.line := Nat.ne_of_lt h
    simp [lineBefore, hne]
  | cons c cs ih =>
    have hle := here.line_le_after (c :: cs)
    rw [List.cons_append, lineBefore, if_neg (by omega)]
    exact ih h

end

theorem Lexes.first_of_append {d : Dialect} {p : Position} {cs : List Char} {ts us : List Token}
    {t : Token} (h : Lexes d p cs (ts ++ t :: us)) :
    t.span.first = p.after (Token.textOf ts) := by
  induction ts generalizing p cs with
  | nil => exact h.first_eq
  | cons u ts ih =>
    cases h with
    | cons he h =>
      rw [Token.textOf_cons, Position.after_append]
      exact ih h

namespace Lines

/-- A line starts where the text does or behind a newline. -/
theorem exists_of_mem_cut {l : Line} {ts : List Token} (h : l ∈ cut none [] ts) :
    ∃ above below, ts = above ++ (l.indent.toList ++ (l.body ++ below)) ∧
      (above = [] ∨ ∃ us t, above = us ++ [t] ∧ t.kind = .newline) := by
  obtain ⟨first, rest, hcut, hfirst, hrest⟩ := exists_cut_eq none [] ts
  have htokens := flatMap_tokens_cut none [] ts
  simp only [Option.toList_none, List.reverse_nil, List.nil_append] at htokens
  have hframed : l.Framed := framed_cut (by simp) [] ts l h
  rw [hcut] at h htokens
  rcases List.mem_cons.1 h with rfl | hl
  · refine ⟨[], rest.flatMap Line.tokens, ?_, .inl rfl⟩
    rw [← htokens, List.flatMap_cons, Line.tokens, hfirst]
    simp
  · obtain ⟨t, ht⟩ := hrest l hl
    obtain ⟨before, behind, hsplit⟩ := List.append_of_mem hl
    have hlt : l.tokens = t :: (l.indent.toList ++ l.body) := by
      rw [Line.tokens, ht]
      rfl
    refine ⟨(first :: before).flatMap Line.tokens ++ [t], behind.flatMap Line.tokens, ?_, .inr ?_⟩
    · rw [← htokens, hsplit]
      simp [hlt]
    · exact ⟨_, t, rfl, hframed.newline_kind t ht⟩

/-- **A line that starts with a colon has only blanks before it.** -/
theorem isBlank_of_mem_lineBefore {d : Dialect} {source : List Char} {ts : List Token} {l : Line}
    {c : Token} (h : Lexes d .origin source ts) (hl : l ∈ cut none [] ts) (hc : c ∈ l.body.head?) :
    ∀ x ∈ lineBefore c.span.first .origin source, isBlank x = true := by
  have hframed : l.Framed := framed_cut (by simp) [] ts l hl
  obtain ⟨above, below, hts, habove⟩ := exists_of_mem_cut hl
  obtain ⟨body, hbody⟩ : ∃ body, l.body = c :: body := by
    cases hb : l.body with
    | nil => rw [hb] at hc; cases hc
    | cons t body => rw [hb] at hc; cases hc; exact ⟨body, rfl⟩
  have hspelled := h.spelled
  have htext := h.textOf_eq
  rw [hts, hbody, List.cons_append, ← List.append_assoc] at h
  have hfirst := h.first_of_append
  rw [Token.textOf_append, Position.after_append] at hfirst
  rw [hts, Token.textOf_append, Token.textOf_append, hbody, List.cons_append] at htext
  rw [← htext, lineBefore_append, lineBefore_append, ← hfirst,
    lineBefore_of_not_before (Position.Before.irrefl _), List.append_nil]
  -- The lines above end with a newline, so that only the indent is left.
  have hnil : lineBefore c.span.first .origin (Token.textOf above) = [] := by
    rcases habove with rfl | ⟨us, t, rfl, ht⟩
    · rfl
    · have htt : t.text = ['\n'] := by
        have hs := hspelled t (by simp [hts])
        rwa [Token.Spelled, ht] at hs
      have hline := Position.line_le_after (Position.origin.after (Token.textOf (us ++ [t])))
        (Token.textOf l.indent.toList)
      rw [← hfirst] at hline
      have hend : Token.textOf (us ++ [t]) = Token.textOf us ++ ['\n'] := by
        rw [Token.textOf_append, Token.textOf_cons, htt]
        rfl
      rw [hend] at hline ⊢
      rw [Position.after_append] at hline
      exact lineBefore_of_newline _ hline
  rw [hnil, List.nil_append]
  intro x hx
  have hx := mem_of_mem_lineBefore hx
  cases hi : l.indent with
  | none => rw [hi] at hx; cases hx
  | some t =>
    have hs := hspelled t (by simp [hts, hi])
    rw [Token.Spelled, hframed.indent_kind t hi] at hs
    rw [hi, Option.toList_some, Token.textOf_cons, Token.textOf_nil, List.append_nil] at hx
    exact hs x hx

end Lines

namespace Colons

variable {d : Dialect} {source : List Char} {tree : Node} {ts : List Token} {ns : List Node}

/-! ## One run -/

theorem width_tree (hp : Parsed d source tree ts ns) (p : Position) :
    width tree p = widthIn (groupsOf ns) p := by
  rw [width_eq, hp.tree_eq]
  rfl

theorem nodup_places (hp : Parsed d source tree ts ns) : (colonPlacesOf ns).Nodup := by
  have hnodup := (tokens_eq_ok.1 hp.tokens_eq).nodup_firsts
  have hfilter := (List.filter_sublist (p := fun t : Token => t.kind == .colon) (l := ts)).map
    fun t => t.span.first
  exact (hp.reading.colonPlaces_sublist.trans hfilter).nodup hnodup

theorem width_of_mem_group (hp : Parsed d source tree ts ns) {g : List Position} {p : Position}
    (hg : g ∈ groupsOf ns) (h : p ∈ g) : width tree p = ownWidth g p := by
  rw [width_tree hp]
  exact widthIn_groupsOf_of_mem ns (hp.reading.sound hp.spelled) (nodup_places hp) hg h

theorem width_of_mem_leading (hp : Parsed d source tree ts ns) {g : List Position} {p : Position}
    (hg : g ∈ groupsOf ns) (h : p ∈ leading none g) : width tree p = target g - p.column := by
  rw [width_of_mem_group hp hg (mem_of_mem_leading h), ownWidth, if_pos h]

theorem mem_groups_of_width_ne_zero (hp : Parsed d source tree ts ns) {p : Position}
    (hw : width tree p ≠ 0) : p ∈ (groupsOf ns).flatten := by
  rw [width_tree hp] at hw
  exact Decidable.byContradiction fun hm => hw (widthIn_eq_zero hm)

theorem mem_places_of_width_ne_zero (hp : Parsed d source tree ts ns) {p : Position}
    (hw : width tree p ≠ 0) : p ∈ colonPlacesOf ns :=
  mem_colonPlacesOf_of_mem_groupsOf (hp.reading.sound hp.spelled)
    (mem_groups_of_width_ne_zero hp hw)

/-- No line has a place left of its first column. -/
theorem width_column_zero (hp : Parsed d source tree ts ns) (line : Nat) :
    width tree ⟨line, 0⟩ = 0 := by
  refine Decidable.byContradiction fun hw => ?_
  obtain ⟨t, ht, -, hpt⟩ := hp.reading.exists_colon (mem_places_of_width_ne_zero hp hw)
  have hcolumn := (tokens_eq_ok.1 hp.tokens_eq).column_pos (by decide) t ht
  rw [hpt] at hcolumn
  exact Nat.lt_irrefl 0 hcolumn

/-- Blanks go only before colons. -/
theorem onColons (hp : Parsed d source tree ts ns) : OnColons (width tree) .origin ts := by
  constructor
  · intro p hw
    exact .inr (mem_firsts hp.reading p (mem_places_of_width_ne_zero hp hw))
  · intro t ht hw
    obtain ⟨u, hu, hk, hut⟩ := hp.reading.exists_colon (mem_places_of_width_ne_zero hp hw)
    have hnodup := (tokens_eq_ok.1 hp.tokens_eq).nodup_firsts
    rw [List.map_eq_flatMap] at hnodup
    have hsame : t = u := eq_of_nodup_flatMap hnodup ht hu (List.mem_singleton.2 rfl)
      (List.mem_singleton.2 hut.symm)
    rw [hsame, hk]

/-- **What one run prints**: the text of the tree with blanks before its colons. -/
theorem chars_aligned (hp : Parsed d source tree ts ns) :
    (tree.mapBlocks alignBlock).chars = Token.loose (width tree) ts := by
  have hsound := hp.reading.sound hp.spelled
  have hmarked : Marked (width tree) ts (colonPlacesOf ns) :=
    ⟨(tokens_eq_ok.1 hp.tokens_eq).nodup_firsts, fun t _ hw => mem_places_of_width_ne_zero hp hw⟩
  rw [← paddedCharsOf_eq hp.reading hp.spelled hmarked, hp.tree_eq, ofChildren,
    chars_mapBlocks hsound (nodup_places hp), paddedChars]
  simp [branchMarks]

/-- **One run changes nothing exactly if all blocks are aligned.** -/
theorem aligned_eq_iff (hp : Parsed d source tree ts ns) :
    (tree.mapBlocks alignBlock).chars = source ↔ ∀ block ∈ tree.blocks, isAligned block = true := by
  have htext := (tokens_eq_ok.1 hp.tokens_eq).textOf_eq
  rw [chars_aligned hp, ← forall_width_eq_zero, ← htext, Token.loose_eq_textOf_iff]
  constructor
  · intro h p
    refine Decidable.byContradiction fun hw => hw ?_
    obtain ⟨t, ht, -, hpt⟩ := hp.reading.exists_colon (mem_places_of_width_ne_zero hp hw)
    rw [← hpt]
    exact h t ht
  · intro h t _
    exact h t.span.first

/-- The text of a parsed tree is read into the tree itself. -/
theorem reparse_of_parseChars (h : parseChars d source = .ok tree) :
    reparse name tree = .ok tree := by
  obtain ⟨ts, ns, hp⟩ := parsed_of_parseChars h
  have hdialect : tree.dialect = d := by rw [hp.tree_eq]; rfl
  have hself : Node.branch { tree.label with span := tree.span } tree.children = tree := by
    rw [hp.tree_eq]
    rfl
  unfold reparse
  rw [hdialect, chars_of_parseChars h, h]
  simp only [chars_of_parseChars h, if_true, hself]

theorem supports_dialect (d : Dialect) : rule.supports d = true := by
  cases d <;> rfl

/-- A run on a parsed tree aligns the tree as it is. -/
theorem process_of_parseChars (h : parseChars d source = .ok tree) :
    rule.process tree = .ok (tree.mapBlocks alignBlock) := by
  rw [Rule.process, if_pos (supports_dialect tree.dialect)]
  show (reparse name tree >>= fun tree => pure (tree.mapBlocks alignBlock)) = _
  rw [reparse_of_parseChars h]
  rfl

/-- The votes on a parsed tree are on its own blocks. -/
theorem detect_of_parseChars (h : parseChars d source = .ok tree) :
    rule.detect tree = .ok (tree.blocks.map isAligned) := by
  rw [Rule.detect, if_pos (supports_dialect tree.dialect)]
  show (reparse name tree >>= fun tree => pure (tree.blocks.map isAligned)) = _
  rw [reparse_of_parseChars h]
  rfl

/-! ## Reading the output -/

/-- The colon that a statement declares is one of its tokens. -/
theorem mem_of_declares {us : List Token} {ps : List Position} {p : Position}
    (h : Statement.Declares d us ps) (hp : p ∈ ps) : ∃ t ∈ us, t.span.first = p := by
  cases h with
  | none => cases hp
  | atrule => cases hp
  | raw => cases hp
  | declaration _ hc _ =>
    obtain ⟨hcut, -⟩ := Statement.cutColon?_eq 0 hc
    rw [List.mem_singleton.1 hp, hcut]
    exact ⟨_, by simp, rfl⟩

/-- A line that starts with a colon that is moved is a declaration. -/
theorem declares_of_not_steady (hp : Parsed .sass source tree ts ns) {l : Lines.Line}
    (hl : l ∈ Lines.cut none [] ts) (hs : ¬ l.Steady (width tree)) :
    ∃ ps, Statement.Declares .sass l.body ps := by
  simp only [Lines.Line.Steady, Classical.not_forall] at hs
  obtain ⟨c, hc, -, hw⟩ := hs
  have hnested : Lines.Nested (Lines.cut none [] ts) ns := Lines.nodesOf_eq_ok.1 hp.nodes_eq
  obtain ⟨m, hm, ps, hdecl, hps⟩ :=
    hnested.declared c.span.first (.inr (mem_groups_of_width_ne_zero hp hw))
  obtain ⟨t, ht, htc⟩ := mem_of_declares hdecl hps
  -- The line that declares the colon holds its token, so it is the line that starts with it.
  have hcut := Lines.flatMap_tokens_cut none [] ts
  have hnodup := (tokens_eq_ok.1 hp.tokens_eq).nodup_firsts
  have hts : (Lines.cut none [] ts).flatMap (fun l => l.tokens.map fun t => t.span.first) =
      ts.map fun t => t.span.first := by
    rw [← List.map_flatMap, hcut]
    rfl
  rw [← hts] at hnodup
  have hbody : ∀ (k : Lines.Line) (u : Token), u ∈ k.body →
      u.span.first ∈ k.tokens.map fun t => t.span.first := by
    intro k u hu
    exact List.mem_map_of_mem (by simp [Lines.Line.tokens, hu])
  have hlc := hbody l c (List.mem_of_mem_head? hc)
  have hmc := hbody m t ht
  rw [htc] at hmc
  rw [eq_of_nodup_flatMap hnodup hl hm hlc hmc]
  exact ⟨ps, hdecl⟩

/-- Between braces and on lines alike, tokens that are moved apart are read into nodes, and these
have the same groups of colons if no line starts with a colon that is moved. -/
theorem exists_sheetNodes (hp : Parsed d source tree ts ns) {us : List Token}
    (hs : Spaced (width tree) ts us) : ∃ ms, sheetNodes d us = .ok ms ∧
      ((d = .sass → ∀ l ∈ Lines.cut none [] ts, l.Steady (width tree)) →
        Follows (·.moved (width tree)) ns ms) := by
  have hnodes := hp.nodes_eq
  cases hd : d.usesBraces with
  | true =>
    rw [sheetNodes, if_pos hd] at hnodes ⊢
    obtain ⟨ms, hms, hf⟩ := Braces.nodes_matched hnodes hs.matched
    exact ⟨ms, hms, fun _ => hf⟩
  | false =>
    have hsass : d = .sass := by simpa [Dialect.usesBraces] using hd
    subst hsass
    have hnested : Lines.Nested (Lines.cut none [] ts) ns := Lines.nodesOf_eq_ok.1 hnodes
    have hlines : Lines.SpacedLines (width tree) (Lines.cut none [] ts) (Lines.cut none [] us) :=
      Lines.spacedLines_cut hs .nil
    by_cases hsteady : ∀ l ∈ Lines.cut none [] ts, l.Steady (width tree)
    · obtain ⟨ms, hms, hf⟩ := hnested.follows hlines hsteady
      exact ⟨ms, Lines.nodesOf_eq_ok.2 hms, fun _ => hf⟩
    · have hreadable : Lines.Readable (Lines.cut none [] us) := by
        apply (Lines.exists_nested_iff.1 ⟨ns, hnested⟩).spaced hlines
        intro l hl hunsteady
        exact declares_of_not_steady hp hl hunsteady
      obtain ⟨ms, hms⟩ := Lines.exists_nested_iff.2 hreadable
      exact ⟨ms, Lines.nodesOf_eq_ok.2 hms, fun h => absurd (h rfl) hsteady⟩

/-- **The output can be parsed**, and its colons are where the blanks have moved them. -/
theorem exists_parse_aligned (hp : Parsed d source tree ts ns) :
    ∃ again us ms, parseChars d (tree.mapBlocks alignBlock).chars = .ok again ∧
      Parsed d (tree.mapBlocks alignBlock).chars again us ms ∧
      ((d = .sass → ∀ l ∈ Lines.cut none [] ts, l.Steady (width tree)) →
        Follows (·.moved (width tree)) ns ms) := by
  obtain ⟨us, hlexes, hspaced⟩ :=
    (tokens_eq_ok.1 hp.tokens_eq).spaced (width_column_zero hp) (onColons hp)
  obtain ⟨ms, hms, hfollows⟩ := exists_sheetNodes hp hspaced
  rw [← chars_aligned hp] at hlexes
  have htokens := tokens_eq_ok.2 hlexes
  refine ⟨_, us, ms, ?_, ⟨htokens, hms, rfl, hlexes.spelled, reading_sheetNodes hms⟩, hfollows⟩
  exact bind_eq_ok.2 ⟨us, htokens, bind_eq_ok.2 ⟨ms, hms, rfl⟩⟩

/-- Where blanks have moved the colons of blocks, these are aligned exactly if the blanks before
other colons have shifted them alike. -/
theorem forall_isAligned_iff {again : Node} {us : List Token} {ms : List Node} {text : List Char}
    (hp : Parsed d source tree ts ns) (hp' : Parsed d text again us ms)
    (hf : Follows (·.moved (width tree)) ns ms) :
    (∀ block ∈ again.blocks, isAligned block = true) ↔
      ∀ block ∈ tree.blocks, ∀ p ∈ leading none (colons block.children),
        ∀ q ∈ leading none (colons block.children),
          p.shift (width tree) = q.shift (width tree) := by
  have hblocks : ∀ (P : List Position → Prop) (t : Node),
      (∀ block ∈ t.blocks, P (colons block.children)) ↔ ∀ g ∈ groupsOf t.children, P g := by
    intro P t
    rw [← map_blocks]
    simp only [List.mem_map, forall_exists_index, and_imp, forall_apply_eq_imp_iff₂]
  have hns : tree.children = ns := by rw [hp.tree_eq]; rfl
  have hms : again.children = ms := by rw [hp'.tree_eq]; rfl
  have hlevel : ∀ g ∈ groupsOf ns, (Level (g.map (·.moved (width tree))) ↔
      ∀ p ∈ leading none g, ∀ q ∈ leading none g,
        p.shift (width tree) = q.shift (width tree)) := by
    intro g hg
    apply level_map_moved
    intro p hlead
    exact width_of_mem_leading hp hg hlead
  simp only [isAligned_iff]
  rw [hblocks Level, hblocks fun g => ∀ p ∈ leading none g, ∀ q ∈ leading none g,
    p.shift (width tree) = q.shift (width tree), hns, hms, hf.groups_eq]
  constructor
  · intro h g hg
    exact (hlevel g hg).1 (h _ (List.mem_map_of_mem hg))
  · intro h g' hg'
    obtain ⟨g, hg, rfl⟩ := List.mem_map.1 hg'
    exact (hlevel g hg).2 (h g hg)

/-! ## Two runs -/

/-- Whether the alignment moves no colon that a line of an indented sheet starts with: there the
blanks are indentation. -/
def Steady (d : Dialect) (source : String) (tree : Node) : Prop :=
  d = .sass → ∀ p, width tree p ≠ 0 →
    ∃ c ∈ lineBefore p .origin source.toList, isBlank c = false

theorem steady_iff {d : Dialect} {source : String} {tree : Node} :
    Steady d source tree ↔ (d = .sass → ∀ p ∈ (groupsOf tree.children).flatten,
      width tree p ≠ 0 → (lineBefore p .origin source.toList).any (!isBlank ·) = true) := by
  simp only [List.any_eq_true, Bool.not_eq_true']
  refine ⟨fun h hd p _ => h hd p, fun h hd p hw => h hd p ?_ hw⟩
  rw [width_eq] at hw
  exact Decidable.byContradiction fun hp => hw (widthIn_eq_zero hp)

instance (d : Dialect) (source : String) (tree : Node) : Decidable (Steady d source tree) :=
  decidable_of_iff _ steady_iff.symm

/-- No line of a steady sheet starts with a colon that is moved. -/
theorem Steady.lines {source : String} (hp : Parsed d source.toList tree ts ns)
    (h : Steady d source tree) (hd : d = .sass) :
    ∀ l ∈ Lines.cut none [] ts, l.Steady (width tree) := by
  intro l hl c hc hk
  have hblank := Lines.isBlank_of_mem_lineBefore (tokens_eq_ok.1 hp.tokens_eq) hl hc
  refine Decidable.byContradiction fun hw => ?_
  obtain ⟨x, hx, hink⟩ := h hd c.span.first hw
  rw [hblank x hx] at hink
  cases hink

/-- Whether the blanks put in before other colons shift the leading colons of each block alike. -/
def ShiftsAlike (tree : Node) : Prop :=
  ∀ block ∈ tree.blocks, ∀ p ∈ leading none (colons block.children),
    ∀ q ∈ leading none (colons block.children), p.shift (width tree) = q.shift (width tree)

instance (tree : Node) : Decidable (ShiftsAlike tree) :=
  inferInstanceAs (Decidable (∀ block ∈ tree.blocks, ∀ p ∈ leading none (colons block.children),
    ∀ q ∈ leading none (colons block.children), p.shift (width tree) = q.shift (width tree)))

/-- **When colon alignment is idempotent**: the output of a run can be parsed and aligned again, and
this changes nothing exactly if the blocks of the output are aligned. In terms of the text that the
first run was given, the blanks before other colons must have shifted the colons of each block
alike. -/
theorem render_process_process (d : Dialect) (source : String) (tree : Node)
    (h : parse d source = .ok tree) :
    ∃ once again twice, rule.process tree = .ok once ∧ parse d once.render = .ok again ∧
      rule.process again = .ok twice ∧
      (twice.render = once.render ↔ ∀ block ∈ again.blocks, isAligned block = true) ∧
      (Steady d source tree → (twice.render = once.render ↔ ShiftsAlike tree)) := by
  obtain ⟨ts, ns, hp⟩ := parsed_of_parseChars h
  obtain ⟨again, us, ms, hagain, hp', hfollows⟩ := exists_parse_aligned hp
  have hrender : ∀ n m : Node, n.render = m.render ↔ n.chars = m.chars := by
    intro n m
    exact String.ofList_inj
  have htwice : (again.mapBlocks alignBlock).render = (tree.mapBlocks alignBlock).render ↔
      ∀ block ∈ again.blocks, isAligned block = true := by
    rw [hrender]
    exact aligned_eq_iff hp'
  refine ⟨_, again, _, process_of_parseChars h, ?_, process_of_parseChars hagain, htwice, ?_⟩
  · rw [parse, Node.render, String.toList_ofList]
    exact hagain
  · intro hsteady
    rw [htwice]
    exact forall_isAligned_iff hp hp' (hfollows (hsteady.lines hp))

/-- A sheet where the blanks of the outer block shift one colon of the inner block. -/
def sharedLineSheet : String :=
  "a \x7b\n  x: 1; b \x7b yy: 2;\n           zz: 3 \x7d\n  long-prop: 2\n\x7d"

theorem render_process_process_sharedLine :
    ∃ tree once again twice, parse .scss sharedLineSheet = .ok tree ∧
      rule.process tree = .ok once ∧ parse .scss once.render = .ok again ∧
      rule.process again = .ok twice ∧ twice.render ≠ once.render := by
  have hshifts : ((parse .scss sharedLineSheet).toOption.map fun tree =>
      decide (ShiftsAlike tree)) = some false := by decide +kernel
  cases h : parse .scss sharedLineSheet with
  | error e => rw [h] at hshifts; cases hshifts
  | ok tree =>
    obtain ⟨once, again, twice, honce, hagain, htwice, -, hiff⟩ := render_process_process _ _ _ h
    refine ⟨tree, once, again, twice, rfl, honce, hagain, htwice, ?_⟩
    rw [h] at hshifts
    simp only [Except.toOption, Option.map_some, Option.some.injEq,
      decide_eq_false_iff_not] at hshifts
    rw [Ne, hiff fun hd => nomatch hd]
    exact hshifts

end Colons

end TidySheet
