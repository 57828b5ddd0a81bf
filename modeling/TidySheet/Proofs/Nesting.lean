import TidySheet.Parse.Lines
import TidySheet.Proofs.Statements

/-!
# What the indentation nests

`Nested` says declaratively what a run of lines becomes: a blank line only its own leaves, a line
that deeper lines follow a statement with a block over them, any other line a statement.

* `nodesOf_eq_ok` — the reader of lines accepts exactly this;
* `reading_nodes` — a sheet is read from its tokens.
-/

set_option autoImplicit false

namespace TidySheet.Lines

open Token Statement

/-! ## Cutting tokens into lines -/

namespace Line

def tokens (l : Line) : List Token := l.newline.toList ++ (l.indent.toList ++ l.body)

/-- What a line starts with is of the kind that its place asks for. -/
structure Framed (l : Line) : Prop where
  newline_kind : ∀ t ∈ l.newline, t.kind = .newline
  indent_kind : ∀ t ∈ l.indent, t.kind = .whitespace

theorem newline_ofTokens (newline : Option Token) (ts : List Token) :
    (ofTokens newline ts).newline = newline := by
  cases ts with
  | nil => rfl
  | cons t ts =>
    rw [ofTokens]
    split <;> rfl

theorem rest_ofTokens (newline : Option Token) (ts : List Token) :
    (ofTokens newline ts).indent.toList ++ (ofTokens newline ts).body = ts := by
  cases ts with
  | nil => rfl
  | cons t ts =>
    rw [ofTokens]
    split <;> rfl

theorem framed_ofTokens {newline : Option Token} (h : ∀ t ∈ newline, t.kind = .newline)
    (ts : List Token) : (ofTokens newline ts).Framed := by
  cases ts with
  | nil => exact ⟨h, by simp [ofTokens]⟩
  | cons t ts =>
    simp only [ofTokens]
    split
    · rename_i hk
      exact ⟨h, by simpa using hk⟩
    · exact ⟨h, by simp⟩

theorem reading_lead {l : Line} (h : l.Framed) :
    Reading .sass (l.newline.toList ++ l.indent.toList) l.lead := by
  obtain ⟨newline, indent, body⟩ := l
  have hn : Reading .sass newline.toList
      (newline.map fun t => Node.leaf ⟨.declarationDelimiter, .sass, t.span⟩ ['\n']).toList := by
    cases newline with
    | none => exact .nil
    | some t => exact .token (.newline (h.newline_kind t rfl)) .nil
  have hi : Reading .sass indent.toList
      (indent.map fun t => t.leafAs .space .sass).toList := by
    cases indent with
    | none => exact .nil
    | some t =>
      have hk := h.indent_kind t rfl
      have he : t.leafAs .space .sass = t.leaf .sass := by
        simp [leafAs, leaf, leafKind, leafText, hk]
      simp only [Option.map_some, Option.toList_some, he]
      exact .token .plain .nil
  exact hn.append hi

end Line

/-- Cutting keeps all tokens, also when the newlines are written in another way. -/
theorem flatMap_cut (mark : Token → Token) (hm : ∀ t, t.kind ≠ .newline → mark t = t)
    (newline : Option Token) (line ts : List Token) :
    (cut newline line ts).flatMap
      (fun l => l.newline.toList.map mark ++ (l.indent.toList ++ l.body)) =
        newline.toList.map mark ++ (line.reverse ++ ts.map mark) := by
  induction ts generalizing newline line with
  | nil => simp [cut, Line.newline_ofTokens, Line.rest_ofTokens]
  | cons t ts ih =>
    rw [cut]
    split
    · simp [Line.newline_ofTokens, Line.rest_ofTokens, ih]
    · rename_i hk
      simp [ih, hm t hk]

theorem flatMap_tokens_cut (newline : Option Token) (line ts : List Token) :
    (cut newline line ts).flatMap Line.tokens = newline.toList ++ (line.reverse ++ ts) := by
  have hcut := flatMap_cut id (fun _ _ => rfl) newline line ts
  simp only [List.map_id] at hcut
  exact hcut

theorem framed_cut {newline : Option Token} (h : ∀ t ∈ newline, t.kind = .newline)
    (line ts : List Token) : ∀ l ∈ cut newline line ts, l.Framed := by
  induction ts generalizing newline line with
  | nil =>
    intro l hl
    rw [cut, List.mem_singleton] at hl
    rw [hl]
    exact Line.framed_ofTokens h _
  | cons t ts ih =>
    intro l hl
    rw [cut] at hl
    split at hl
    · rename_i hk
      rcases List.mem_cons.1 hl with rfl | hl
      · exact Line.framed_ofTokens h _
      · exact ih (by simpa using hk) [] l hl
    · exact ih h _ l hl

/-- Only the first line has no newline before it. -/
theorem exists_cut_eq (newline : Option Token) (line ts : List Token) :
    ∃ l ls, cut newline line ts = l :: ls ∧ l.newline = newline ∧
      ∀ m ∈ ls, ∃ t, m.newline = some t := by
  induction ts generalizing newline line with
  | nil => exact ⟨_, [], rfl, Line.newline_ofTokens newline _, by simp⟩
  | cons t ts ih =>
    rw [cut]
    split
    · obtain ⟨l, ls, hcut, hl, hls⟩ := ih (some t) []
      refine ⟨_, _, rfl, Line.newline_ofTokens newline _, ?_⟩
      rw [hcut]
      exact List.forall_mem_cons.2 ⟨⟨t, hl⟩, hls⟩
    · exact ih newline (t :: line)

/-! ## Nesting -/

/-- **What lines become**: blank lines, statements, and statements with the lines nested under
them. -/
inductive Nested : List Line → List Node → Prop
  | nil : Nested [] []
  | blank {l : Line} {ls : List Line} {ns : List Node} (hb : l.isBlank = true)
      (hr : Nested ls ns) : Nested (l :: ls) (l.lead ++ ns)
  | statement {l : Line} {ls : List Line} {own ns : List Node} (hb : l.isBlank = false)
      (hc : (cutBlock l ls).1 = []) (ho : Plain .sass l.body own) (hr : Nested ls ns) :
      Nested (l :: ls) (l.lead ++ (own ++ ns))
  | block {l : Line} {ls inner outer : List Line} {cs ns : List Node} {n : Node}
      (hb : l.isBlank = false) (hc : cutBlock l ls = (inner, outer)) (hne : inner ≠ [])
      (hi : Nested inner cs) (hn : Opener .sass (.ofChildren .block .sass cs) l.body n)
      (hr : Nested outer ns) : Nested (l :: ls) (l.lead ++ n :: ns)

theorem nested_of_nodesOf {ls : List Line} (ns : List Node) (h : nodesOf ls = .ok ns) :
    Nested ls ns := by
  fun_induction nodesOf ls generalizing ns with
  | case1 =>
    cases h
    exact .nil
  | case2 l ls hb ih =>
    obtain ⟨rest, hr, h⟩ := bind_eq_ok.1 h
    cases h
    exact .blank hb (ih rest hr)
  | case3 l ls hb hc ih =>
    obtain ⟨own, ho, h⟩ := bind_eq_ok.1 h
    obtain ⟨rest, hr, h⟩ := bind_eq_ok.1 h
    cases h
    rw [List.append_assoc]
    exact .statement (by simpa using hb) (by simpa using hc) (withoutBlock_eq_ok.1 ho)
      (ih rest hr)
  | case4 l ls hb hc ihi ih =>
    obtain ⟨inner, hi, h⟩ := bind_eq_ok.1 h
    obtain ⟨own, ho, h⟩ := bind_eq_ok.1 h
    obtain ⟨rest, hr, h⟩ := bind_eq_ok.1 h
    cases h
    have hcut : cutBlock l ls = ((cutBlock l ls).1, (cutBlock l ls).2) := rfl
    have hne : (cutBlock l ls).1 ≠ [] := by simpa using hc
    exact .block (by simpa using hb) hcut hne (ihi inner hi) (withBlock_eq_ok.1 ho) (ih rest hr)

/-- **The reader of lines accepts exactly what nests.** -/
theorem nodesOf_eq_ok {ls : List Line} {ns : List Node} : nodesOf ls = .ok ns ↔ Nested ls ns := by
  refine ⟨nested_of_nodesOf ns, fun h => ?_⟩
  induction h with
  | nil => rw [nodesOf]
  | blank hb _ ih =>
    rw [nodesOf, if_pos hb, ih]
    rfl
  | statement hb hc ho _ ih =>
    rw [nodesOf, if_neg (by simp [hb]), if_pos (by simp [hc]), withoutBlock_eq_ok.2 ho, ih]
    simp [bind, Except.bind, pure, Except.pure]
  | block hb hc hne _ hn _ ihi ih =>
    rw [nodesOf, if_neg (by simp [hb]), if_neg (by simpa [hc] using hne)]
    simp only [hc, ihi, ih, withBlock_eq_ok.2 hn, bind, Except.bind, pure, Except.pure]

/-- In front of a line stand its newline and its indent. -/
theorem lead_kind_ne (l : Line) {k : Kind} (hk : k ≠ .declarationDelimiter ∧ k ≠ .space) :
    ∀ n ∈ l.lead, n.kind ≠ k := by
  obtain ⟨newline, indent, body⟩ := l
  intro n hn
  simp only [Line.lead, List.mem_append, Option.mem_toList, Option.map_eq_some_iff] at hn
  rcases hn with ⟨t, -, rfl⟩ | ⟨t, -, rfl⟩
  · exact hk.1.symm
  · exact hk.2.symm

theorem Nested.kind_ne {ls : List Line} {ns : List Node} (h : Nested ls ns) :
    ∀ n ∈ ns, n.kind ≠ .propertyDelimiter := by
  induction h with
  | nil => intro n hn; cases hn
  | @blank l ls ns _ _ ih =>
    intro n hn
    rcases List.mem_append.1 hn with hn | hn
    · exact lead_kind_ne l (by decide) n hn
    · exact ih n hn
  | @statement l ls own ns _ _ ho _ ih =>
    intro n hn
    rcases List.mem_append.1 hn with hn | hn
    · exact lead_kind_ne l (by decide) n hn
    rcases List.mem_append.1 hn with hn | hn
    · exact ho.kind_ne n hn
    · exact ih n hn
  | @block l ls inner outer cs ns n _ _ _ _ hn _ _ ih =>
    intro m hm
    rcases List.mem_append.1 hm with hm | hm
    · exact lead_kind_ne l (by decide) m hm
    rcases List.mem_cons.1 hm with rfl | hm
    · rcases hn.kind_mem with hk | hk <;> simp [hk]
    · exact ih m hm

/-- Lines are read from whatever their leads are read from. -/
theorem Nested.reading_of {ls : List Line} {ns : List Node} (lead : Line → List Token)
    (h : Nested ls ns) (hl : ∀ l ∈ ls, Reading .sass (lead l) l.lead) :
    Reading .sass (ls.flatMap fun l => lead l ++ l.body) ns := by
  induction h with
  | nil => exact .nil
  | @blank l ls ns hb _ ih =>
    have hr := (hl l (by simp)).append (ih fun m hm => hl m (by simp [hm]))
    have hbody : l.body = [] := by simpa [Line.isBlank] using hb
    simpa [hbody] using hr
  | @statement l ls own ns _ _ ho _ ih =>
    have hr := (hl l (by simp)).append (ho.reading.append (ih fun m hm => hl m (by simp [hm])))
    simpa using hr
  | @block l ls inner outer cs ns n _ hc _ hi hn _ ihi ih =>
    have hls : inner ++ outer = ls := append_of_cutBlock hc
    have hs : Node.Sound .sass (.ofChildren .block .sass cs) :=
      ⟨rfl, rfl, fun h => (by cases h), fun _ => hi.kind_ne, fun _ h => (by cases h)⟩
    have hblock := Reading.ofChildren rfl hs (ihi fun m hm => hl m (by simp [← hls, hm]))
    have hr := (hl l (by simp)).append
      ((hn.reading hblock rfl).append (ih fun m hm => hl m (by simp [← hls, hm])))
    simpa [← hls] using hr

theorem Nested.reading {ls : List Line} {ns : List Node} (h : Nested ls ns)
    (hf : ∀ l ∈ ls, l.Framed) : Reading .sass (ls.flatMap Line.tokens) ns := by
  have hr := h.reading_of (fun l => l.newline.toList ++ l.indent.toList) fun l hl =>
    Line.reading_lead (hf l hl)
  simp only [List.append_assoc] at hr
  exact hr

/-- **A sheet is read from its tokens.** -/
theorem reading_nodes {ts : List Token} {ns : List Node} (h : nodes ts = .ok ns) :
    Reading .sass ts ns := by
  have hr := (nodesOf_eq_ok.1 h).reading (framed_cut (by simp) [] ts)
  simpa [flatMap_tokens_cut] using hr

end TidySheet.Lines
