import TidySheet.Proofs.Nesting
import TidySheet.Proofs.Regrouping

/-!
# Lines moved apart

Where the indentation nests lines, blanks before the colon that a line starts with are indentation.
All other blanks before colons leave the nesting as it is.

* `SpacedLines` — lines with blanks before colons;
* `Nested.follows` — the groups of colons stay if no line starts with a colon that is moved;
* `exists_nested_iff` — which lines can be read;
* `Readable.spaced` — lines with blanks before the colons of declarations can be read, even if the
  nesting changes.
-/

set_option autoImplicit false

namespace TidySheet

theorem Spaced.append {w : Position → Nat} {xs ys ts us : List Token} (h : Spaced w xs ys)
    (h' : Spaced w ts us) : Spaced w (xs ++ ts) (ys ++ us) := by
  induction h with
  | nil => exact h'
  | keep t _ ih => exact .keep t ih
  | put hc hw hb _ ih => exact .put hc hw hb ih
  | widen ha hc hw hb hl _ ih => exact .widen ha hc hw hb hl ih

theorem Spaced.isEmpty_eq {w : Position → Nat} {ts us : List Token} (h : Spaced w ts us) :
    us.isEmpty = ts.isEmpty := by
  cases h <;> rfl

theorem Spaced.startsAt_eq {w : Position → Nat} {ts us : List Token} (h : Spaced w ts us) :
    startsAt us = startsAt ts := by
  cases h with
  | nil => rfl
  | keep t _ => rfl
  | @put c b ts us hc _ hb _ =>
    show (b.kind == .atKeyword) = (c.kind == .atKeyword)
    rw [hc, hb]
    rfl
  | widen ha _ _ hb _ _ => simp [startsAt, ha, hb]

namespace Lines

open Token Statement Colons

variable {w : Position → Nat}

/-! ## Lines with blanks before colons -/

/-- Whether a line does not start with a colon that blanks go before. -/
def Line.Steady (w : Position → Nat) (l : Line) : Prop :=
  ∀ c ∈ l.body.head?, c.kind = .colon → w c.span.first = 0

/-- A line with blanks put before its colons. -/
structure SpacedLine (w : Position → Nat) (l m : Line) : Prop where
  body : Spaced w l.body m.body
  width_le : l.width ≤ m.width
  width_eq : l.Steady w → m.width = l.width

inductive SpacedLines (w : Position → Nat) : List Line → List Line → Prop
  | nil : SpacedLines w [] []
  | cons {l m : Line} {ls ms : List Line} (h : SpacedLine w l m) (hr : SpacedLines w ls ms) :
      SpacedLines w (l :: ls) (m :: ms)

theorem spacedLine_ofTokens {newline newline' : Option Token} {ts us : List Token}
    (h : Spaced w ts us) :
    SpacedLine w (.ofTokens newline ts) (.ofTokens newline' us) := by
  cases h with
  | nil => exact ⟨.nil, Nat.le_refl _, fun _ => rfl⟩
  | @keep t ts us h =>
    by_cases hk : t.kind = .whitespace
    · have hm : (t.move w).kind = .whitespace := hk
      rw [Line.ofTokens, if_pos hk, Line.ofTokens, if_pos hm]
      exact ⟨h, Nat.le_refl _, fun _ => rfl⟩
    · have hm : (t.move w).kind ≠ .whitespace := hk
      rw [Line.ofTokens, if_neg hk, Line.ofTokens, if_neg hm]
      exact ⟨.keep t h, Nat.le_refl _, fun _ => rfl⟩
  | @put c b ts us hc hw hb h =>
    rw [Line.ofTokens, if_neg (by simp [hc]), Line.ofTokens, if_pos hb]
    exact ⟨.keep c h, Nat.zero_le _, fun hs => absurd (hs c rfl hc) hw⟩
  | @widen a b c ts us ha hc hw hb hl h =>
    rw [Line.ofTokens, if_pos ha, Line.ofTokens, if_pos hb]
    exact ⟨.keep c h, hl, fun hs => absurd (hs c rfl hc) hw⟩

/-- Blanks before colons stay on their lines. -/
theorem spacedLines_cut {ts us : List Token} (h : Spaced w ts us) :
    ∀ {newline newline' : Option Token} {line line' : List Token},
      Spaced w line.reverse line'.reverse →
        SpacedLines w (cut newline line ts) (cut newline' line' us) := by
  induction h with
  | nil =>
    intro newline newline' line line' hl
    rw [cut, cut]
    exact .cons (spacedLine_ofTokens hl) .nil
  | @keep t ts us _ ih =>
    intro newline newline' line line' hl
    by_cases hk : t.kind = .newline
    · have hm : (t.move w).kind = .newline := hk
      rw [cut, if_pos hk, cut, if_pos hm]
      exact .cons (spacedLine_ofTokens hl) (ih .nil)
    · have hm : (t.move w).kind ≠ .newline := hk
      rw [cut, if_neg hk, cut, if_neg hm]
      apply ih
      rw [List.reverse_cons, List.reverse_cons]
      exact hl.append (.keep t .nil)
  | @put c b ts us hc hw hb _ ih =>
    intro newline newline' line line' hl
    have hm : (c.move w).kind = .colon := hc
    rw [cut, if_neg (by simp [hc]), cut, if_neg (by simp [hb]), cut, if_neg (by simp [hm])]
    apply ih
    have happ := hl.append (.put hc hw hb .nil)
    simpa using happ
  | @widen a b c ts us ha hc hw hb hle _ ih =>
    intro newline newline' line line' hl
    have hm : (c.move w).kind = .colon := hc
    rw [cut, if_neg (by simp [ha]), cut, if_neg (by simp [hc]), cut, if_neg (by simp [hb]), cut,
      if_neg (by simp [hm])]
    apply ih
    have happ := hl.append (.widen ha hc hw hb hle .nil)
    simpa using happ

namespace SpacedLine

variable {l m : Line}

theorem isBlank_eq (h : SpacedLine w l m) : m.isBlank = l.isBlank := h.body.isEmpty_eq

theorem startsWithComment_eq (h : SpacedLine w l m) :
    m.startsWithComment = l.startsWithComment := by
  obtain ⟨newline, indent, body⟩ := l
  obtain ⟨newline', indent', body'⟩ := m
  have hbody : Spaced w body body' := h.body
  cases hbody with
  | nil => rfl
  | keep t _ => rfl
  | @put c b ts us hc _ hb _ =>
    show (b.kind == .comment || b.kind == .lineComment) =
      (c.kind == .comment || c.kind == .lineComment)
    rw [hc, hb]
    rfl
  | widen ha _ _ hb _ _ => simp [Line.startsWithComment, ha, hb]

end SpacedLine

/-! ## The same nesting -/

theorem SpacedLines.cutNested {ls ms : List Line} (h : SpacedLines w ls ms)
    (hs : ∀ l ∈ ls, l.Steady w) (width : Nat) :
    SpacedLines w (cutNested width ls).1 (cutNested width ms).1 ∧
      SpacedLines w (cutNested width ls).2 (cutNested width ms).2 := by
  induction h with
  | nil => exact ⟨.nil, .nil⟩
  | @cons l m ls ms h hr ih =>
    obtain ⟨hin, hout⟩ := ih fun k hk => hs k (by simp [hk])
    have hwidth := h.width_eq (hs l (by simp))
    simp only [Lines.cutNested, h.isBlank_eq, hwidth]
    generalize Lines.cutNested width ls = cut, Lines.cutNested width ms = cut' at hin hout
    obtain ⟨inner, outer⟩ := cut
    obtain ⟨inner', outer'⟩ := cut'
    split
    · cases hin with
      | nil => exact ⟨.nil, .cons h hr⟩
      | cons hk hks => exact ⟨.cons h (.cons hk hks), hout⟩
    · split
      · exact ⟨.cons h hin, hout⟩
      · exact ⟨.nil, .cons h hr⟩

theorem SpacedLines.cutBlock {l m : Line} {ls ms : List Line} (hl : SpacedLine w l m)
    (h : SpacedLines w ls ms) (hls : l.Steady w) (hs : ∀ l ∈ ls, l.Steady w) :
    SpacedLines w (cutBlock l ls).1 (cutBlock m ms).1 ∧
      SpacedLines w (cutBlock l ls).2 (cutBlock m ms).2 := by
  unfold Lines.cutBlock
  rw [hl.startsWithComment_eq, hl.width_eq hls]
  split
  · exact ⟨.nil, h⟩
  · exact h.cutNested hs l.width

theorem colons_lead (l : Line) : colons l.lead = [] :=
  colons_of_ne (lead_kind_ne l (by decide))

theorem groupsOf_lead (l : Line) : groupsOf l.lead = [] := by
  obtain ⟨newline, indent, body⟩ := l
  cases newline <;> cases indent <;> simp [Line.lead, leafAs, groups]

theorem follows_lead (l m : Line) : Follows (·.moved w) l.lead m.lead :=
  .of_nil (colons_lead l) (colons_lead m) (groupsOf_lead l) (groupsOf_lead m)

/-- **Nested lines keep their groups of colons** if no line starts with a colon that is moved. -/
theorem Nested.follows {ls ms : List Line} {ns : List Node} (h : Nested ls ns)
    (hm : SpacedLines w ls ms) (hs : ∀ l ∈ ls, l.Steady w) :
    ∃ ns', Nested ms ns' ∧ Follows (·.moved w) ns ns' := by
  induction h generalizing ms with
  | nil =>
    cases hm
    exact ⟨[], .nil, .nil⟩
  | @blank l ls ns hb _ ih =>
    cases hm with
    | @cons _ m _ ms hl hr =>
      obtain ⟨ns', hn, hf⟩ := ih hr fun k hk => hs k (by simp [hk])
      exact ⟨_, .blank (by rw [hl.isBlank_eq, hb]) hn, (follows_lead l m).append hf⟩
  | @statement l ls own ns hb hc ho _ ih =>
    cases hm with
    | @cons _ m _ ms hl hr =>
      have hs' : ∀ k ∈ ls, k.Steady w := fun k hk => hs k (by simp [hk])
      obtain ⟨ns', hn, hf⟩ := ih hr hs'
      obtain ⟨own', ho', hfo⟩ := Follows.plain ho hl.body.matched hl.body.startsAt_eq
      have hcut := (hr.cutBlock hl (hs l (by simp)) hs').1
      rw [hc] at hcut
      have hnil : (cutBlock m ms).1 = [] := by
        generalize (cutBlock m ms).1 = inner at hcut
        cases hcut
        rfl
      exact ⟨_, .statement (by rw [hl.isBlank_eq, hb]) hnil ho' hn,
        (follows_lead l m).append (hfo.append hf)⟩
  | @block l ls inner outer cs ns n hb hc hne hi hn _ ihi ih =>
    cases hm with
    | @cons _ m _ ms hl hr =>
      have hs' : ∀ k ∈ ls, k.Steady w := fun k hk => hs k (by simp [hk])
      have happend := append_of_cutBlock hc
      obtain ⟨hin, hout⟩ := hr.cutBlock hl (hs l (by simp)) hs'
      rw [hc] at hin hout
      obtain ⟨cs', hi', hfi⟩ := ihi hin fun k hk => hs' k (by simp [← happend, hk])
      obtain ⟨ns', hn', hf⟩ := ih hout fun k hk => hs' k (by simp [← happend, hk])
      obtain ⟨n', hopen, hfn⟩ := Follows.opener (k := ⟨.block, .sass, Node.spanOf cs'⟩) rfl rfl
        hfi hn hl.body.matched hl.body.startsAt_eq
      have hne' : (cutBlock m ms).1 ≠ [] := by
        generalize (cutBlock m ms).1 = inner' at hin
        cases hin with
        | nil => exact absurd rfl hne
        | cons => simp
      exact ⟨_, .block (by rw [hl.isBlank_eq, hb]) rfl hne' hi' hopen hn',
        (follows_lead l m).append (hfn.append hf)⟩

/-! ## Lines that can be read -/

/-- Whether deeper lines follow a line that may open a block over them. -/
def Line.OpensOver (l : Line) (ls : List Line) : Prop :=
  l.startsWithComment = false ∧ ∃ m, ls.find? (fun k => !k.isBlank) = some m ∧ l.width < m.width

theorem cutNested_ne_nil {width : Nat} {ls : List Line} : (cutNested width ls).1 ≠ [] ↔
    ∃ m, ls.find? (fun k => !k.isBlank) = some m ∧ width < m.width := by
  induction ls with
  | nil => simp [cutNested]
  | cons l ls ih =>
    rw [cutNested]
    split
    · rename_i hb
      rw [List.find?_cons_of_neg (by simp [hb]), ← ih]
      split <;> simp_all
    · rename_i hb
      rw [List.find?_cons_of_pos (by simpa using hb)]
      split
      · rename_i hw
        simpa using hw
      · rename_i hw
        simpa using hw

theorem cutBlock_ne_nil {l : Line} {ls : List Line} :
    (cutBlock l ls).1 ≠ [] ↔ l.OpensOver ls := by
  unfold cutBlock Line.OpensOver
  split
  · rename_i hc
    simp [hc]
  · rename_i hc
    rw [cutNested_ne_nil]
    simp [hc]

theorem width_lt_of_mem_cutNested {width : Nat} {ls : List Line} :
    ∀ l ∈ (cutNested width ls).1, l.isBlank = false → width < l.width := by
  induction ls with
  | nil => simp [cutNested]
  | cons l ls ih =>
    rw [cutNested]
    split
    · rename_i hb
      split
      · simp
      · rename_i inner outer _ hc
        rw [hc] at ih
        intro k hk hkb
        rcases List.mem_cons.1 hk with rfl | hk
        · rw [hb] at hkb
          cases hkb
        · exact ih k hk hkb
    · split
      · rename_i hw
        intro k hk hkb
        rcases List.mem_cons.1 hk with rfl | hk
        · exact hw
        · exact ih k hk hkb
      · simp

theorem width_le_of_cutNested {width : Nat} {ls : List Line} {m : Line}
    (hm : (cutNested width ls).2.find? (fun k => !k.isBlank) = some m) : m.width ≤ width := by
  induction ls with
  | nil => simp [cutNested] at hm
  | cons l ls ih =>
    rw [cutNested] at hm
    split at hm
    · rename_i hb
      split at hm
      · rename_i outer hc
        rw [List.find?_cons_of_neg (by simp [hb])] at hm
        apply Nat.le_of_not_lt
        intro hw
        exact cutNested_ne_nil.2 ⟨m, hm, hw⟩ (by rw [hc])
      · rename_i inner outer _ hc
        rw [hc] at ih
        exact ih hm
    · rename_i hb
      split at hm
      · exact ih hm
      · rename_i hw
        rw [List.find?_cons_of_pos (by simpa using hb)] at hm
        cases hm
        omega

/-- What makes lines readable: the statement of each line, with a block or without one as the lines
behind it ask for. -/
def Readable : List Line → Prop
  | [] => True
  | l :: ls =>
    (l.isBlank = false → Opens l.body ∧ (l.OpensOver ls ∨ ∃ ps, Declares .sass l.body ps)) ∧
      Readable ls

theorem Line.OpensOver.append {l : Line} {ls : List Line} (h : l.OpensOver ls) (ms : List Line) :
    l.OpensOver (ls ++ ms) := by
  obtain ⟨hc, m, hm, hw⟩ := h
  exact ⟨hc, m, by rw [List.find?_append, hm]; rfl, hw⟩

/-- Lines that are less deep open nothing under a line. -/
theorem Line.OpensOver.left {l : Line} {width : Nat} {ls ms : List Line}
    (h : l.OpensOver (ls ++ ms)) (hl : width < l.width)
    (hms : ∀ m, ms.find? (fun k => !k.isBlank) = some m → m.width ≤ width) : l.OpensOver ls := by
  obtain ⟨hc, m, hm, hw⟩ := h
  refine ⟨hc, ?_⟩
  rw [List.find?_append] at hm
  cases hf : ls.find? fun k => !k.isBlank with
  | some k =>
    rw [hf] at hm
    cases hm
    exact ⟨_, rfl, hw⟩
  | none =>
    rw [hf, Option.none_or] at hm
    have := hms m hm
    omega

namespace Readable

theorem append {ls ms : List Line} (h : Readable ls) (h' : Readable ms) : Readable (ls ++ ms) := by
  induction ls with
  | nil => exact h'
  | cons l ls ih =>
    refine ⟨fun hb => ?_, ih h.2⟩
    obtain ⟨hopens, hover | hdecl⟩ := h.1 hb
    · exact ⟨hopens, .inl (hover.append ms)⟩
    · exact ⟨hopens, .inr hdecl⟩

theorem right {ls ms : List Line} (h : Readable (ls ++ ms)) : Readable ms := by
  induction ls with
  | nil => exact h
  | cons l ls ih => exact ih h.2

/-- Lines stay readable without lines behind them that are less deep. -/
theorem left {width : Nat} {ls ms : List Line} (h : Readable (ls ++ ms))
    (hls : ∀ l ∈ ls, l.isBlank = false → width < l.width)
    (hms : ∀ m, ms.find? (fun k => !k.isBlank) = some m → m.width ≤ width) : Readable ls := by
  induction ls with
  | nil => trivial
  | cons l ls ih =>
    rw [List.cons_append] at h
    refine ⟨fun hb => ?_, ih h.2 fun k hk => hls k (by simp [hk])⟩
    obtain ⟨hopens, hover | hdecl⟩ := h.1 hb
    · exact ⟨hopens, .inl (hover.left (hls l (by simp) hb) hms)⟩
    · exact ⟨hopens, .inr hdecl⟩

end Readable

theorem opens_of_declares {ts : List Token} {ps : List Position} (h : Declares .sass ts ps) :
    Opens ts := by
  rintro t rest rfl hk
  cases h with
  | atrule _ _ hv => exact hv
  | raw hn => exact absurd ⟨hk, rfl⟩ hn
  | declaration hn => exact absurd ⟨hk, rfl⟩ hn

theorem Nested.readable {ls : List Line} {ns : List Node} (h : Nested ls ns) : Readable ls := by
  induction h with
  | nil => trivial
  | blank hb _ ih => exact ⟨fun hf => absurd hb (by simp [hf]), ih⟩
  | statement _ _ ho _ ih =>
    exact ⟨fun _ => ⟨opens_of_declares ho.declares, .inr ⟨_, ho.declares⟩⟩, ih⟩
  | @block l ls inner outer cs ns n hb hc hne hi hn _ ihi ih =>
    have happend := append_of_cutBlock hc
    refine ⟨fun _ => ⟨hn.opens, .inl (cutBlock_ne_nil.1 (by rwa [hc]))⟩, ?_⟩
    rw [← happend]
    exact ihi.append ih

theorem Readable.exists_nested {ls : List Line} (h : Readable ls) : ∃ ns, Nested ls ns := by
  induction hn : ls.length using Nat.strongRecOn generalizing ls with
  | ind n ih =>
    cases ls with
    | nil => exact ⟨[], .nil⟩
    | cons l ls =>
      rw [List.length_cons] at hn
      cases hb : l.isBlank with
      | true =>
        obtain ⟨ns, hns⟩ := ih ls.length (by omega) h.2 rfl
        exact ⟨_, .blank hb hns⟩
      | false =>
        obtain ⟨hopens, hstat⟩ := h.1 hb
        by_cases hc : (cutBlock l ls).1 = []
        · have hdecl : ∃ ps, Declares .sass l.body ps := by
            rcases hstat with hover | hdecl
            · exact absurd hc (cutBlock_ne_nil.2 hover)
            · exact hdecl
          obtain ⟨ps, hps⟩ := hdecl
          obtain ⟨own, ho⟩ := hps.plain
          obtain ⟨ns, hns⟩ := ih ls.length (by omega) h.2 rfl
          exact ⟨_, .statement hb hc ho hns⟩
        · have hlen := length_cutBlock l ls
          have happend := cutBlock_append l ls
          have hread := h.2
          rw [← happend] at hread
          have hcut : cutBlock l ls = cutNested l.width ls := by
            rw [cutBlock, if_neg (by simp [(cutBlock_ne_nil.1 hc).1])]
          have hinner : Readable (cutBlock l ls).1 := by
            rw [hcut] at hread ⊢
            exact hread.left width_lt_of_mem_cutNested fun m hm => width_le_of_cutNested hm
          obtain ⟨cs, hi⟩ := ih (cutBlock l ls).1.length (by omega) hinner rfl
          obtain ⟨ns, hns⟩ := ih (cutBlock l ls).2.length (by omega) hread.right rfl
          obtain ⟨m, hm⟩ := hopens.exists_opener (d := .sass) (.ofChildren .block .sass cs)
          exact ⟨_, .block hb rfl hc hi hm hns⟩

/-- **Which lines can be read.** -/
theorem exists_nested_iff {ls : List Line} : (∃ ns, Nested ls ns) ↔ Readable ls :=
  ⟨fun ⟨_, h⟩ => h.readable, Readable.exists_nested⟩

theorem SpacedLines.find?_eq {ls ms : List Line} {l : Line} (h : SpacedLines w ls ms)
    (hl : ls.find? (fun k => !k.isBlank) = some l) :
    ∃ m, ms.find? (fun k => !k.isBlank) = some m ∧ SpacedLine w l m := by
  induction h with
  | nil => cases hl
  | @cons k m ls ms h hr ih =>
    have hblank := h.isBlank_eq
    cases hb : k.isBlank with
    | true =>
      rw [List.find?_cons_of_neg (by simp [hb])] at hl
      rw [List.find?_cons_of_neg (by simp [hblank, hb])]
      exact ih hl
    | false =>
      rw [List.find?_cons_of_pos (by simp [hb])] at hl
      rw [List.find?_cons_of_pos (by simp [hblank, hb])]
      cases hl
      exact ⟨m, rfl, h⟩

/-- **Lines stay readable** when only declarations get wider indents. -/
theorem Readable.spaced {ls ms : List Line} (h : Readable ls) (hm : SpacedLines w ls ms)
    (hd : ∀ l ∈ ls, ¬ l.Steady w → ∃ ps, Declares .sass l.body ps) : Readable ms := by
  induction hm with
  | nil => trivial
  | @cons l m ls ms hl hr ih =>
    refine ⟨fun hb => ?_, ih h.2 fun k hk => hd k (by simp [hk])⟩
    rw [hl.isBlank_eq] at hb
    obtain ⟨hopens, hstat⟩ := h.1 hb
    have hbody := hl.body.matched
    have hat := hl.body.startsAt_eq
    have hdeclares : ∀ ps, Declares .sass l.body ps → ∃ qs, Declares .sass m.body qs :=
      fun ps hps => ⟨_, hps.matched hbody hat⟩
    refine ⟨hopens.matched hbody hat, ?_⟩
    by_cases hs : l.Steady w
    · rcases hstat with ⟨hc, k, hk, hw⟩ | ⟨ps, hps⟩
      · obtain ⟨k', hk', hkk⟩ := hr.find?_eq hk
        refine .inl ⟨by rw [hl.startsWithComment_eq, hc], k', hk', ?_⟩
        rw [hl.width_eq hs]
        exact Nat.lt_of_lt_of_le hw hkk.width_le
      · exact .inr (hdeclares ps hps)
    · obtain ⟨ps, hps⟩ := hd l (by simp) hs
      exact .inr (hdeclares ps hps)

/-- Every colon of a declaration is declared by a line. -/
theorem Nested.declared {ls : List Line} {ns : List Node} (h : Nested ls ns) :
    ∀ p, p ∈ colons ns ∨ p ∈ (groupsOf ns).flatten →
      ∃ l ∈ ls, ∃ ps, Declares .sass l.body ps ∧ p ∈ ps := by
  induction h with
  | nil => simp
  | @blank l ls ns _ _ ih =>
    intro p hp
    rw [colons_append, groupsOf_append, colons_lead, groupsOf_lead] at hp
    obtain ⟨k, hk, hps⟩ := ih p hp
    exact ⟨k, by simp [hk], hps⟩
  | @statement l ls own ns _ _ ho _ ih =>
    intro p hp
    simp only [colons_append, groupsOf_append, colons_lead, groupsOf_lead, List.nil_append,
      ho.groupsOf_eq, List.mem_append] at hp
    rw [or_assoc] at hp
    rcases hp with hp | hp
    · exact ⟨l, by simp, _, ho.declares, hp⟩
    · obtain ⟨k, hk, hps⟩ := ih p hp
      exact ⟨k, by simp [hk], hps⟩
  | @block l ls inner outer cs ns n _ hc _ hi hn _ ihi ih =>
    intro p hp
    have happend := append_of_cutBlock hc
    simp only [colons_append, groupsOf_append, colons_lead, groupsOf_lead, List.nil_append,
      colons_cons, hn.colons_eq, groupsOf_cons, hn.groups_eq, Node.ofChildren, groups, if_true,
      Option.toList_none, List.flatten_cons, List.flatten_append, List.mem_append] at hp
    have hp' : (p ∈ colons cs ∨ p ∈ (groupsOf cs).flatten) ∨
        (p ∈ colons ns ∨ p ∈ (groupsOf ns).flatten) := by grind
    rcases hp' with hp | hp
    · obtain ⟨k, hk, hps⟩ := ihi p hp
      exact ⟨k, by simp [← happend, hk], hps⟩
    · obtain ⟨k, hk, hps⟩ := ih p hp
      exact ⟨k, by simp [← happend, hk], hps⟩

end Lines

end TidySheet
