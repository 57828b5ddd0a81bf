import TidySheet.Proofs.ColonAlignment
import TidySheet.Proofs.Growth
import TidySheet.Proofs.Refilling

/-!
# Colon alignment keeps what a sheet says

Alignment puts blanks before colons. Behind a property these are whitespace between the parts of a
declaration. Before a declaration that starts with its colon they are whitespace between siblings,
which on lines is indentation if nothing else stands before the colon on its line.

* `Stated.snug` — a declaration without a property starts with its colon;
* `Colons.Guarded` — on lines, a comment stands before each colon that blanks go before so;
* `Colons.exists_filled` — the siblings of a block, with blanks before their colons;
* `Colons.sameShape_solid_of_steady` — an aligned sheet is read back, but for whitespace.
-/

set_option autoImplicit false

namespace TidySheet

open Node

variable {d : Dialect} {gone : Position → Prop}

/-! ## Declarations in statements -/

namespace Statement

open Token

/-- A declaration among the nodes of a statement. -/
theorem Plain.exists_declaration {head : List Token} {own : List Node} {n : Node}
    (h : Plain d head own) (hn : n ∈ own) (hk : n.kind = .declaration) :
    ∃ leading before colon behind trailing,
      head = leading ++ (before ++ colon :: behind ++ trailing) ∧
      own = leaves d leading ++ n :: leaves d trailing ∧ (∀ t ∈ leading, t.isTrivia = true) ∧
      (∀ t ∈ (before ++ colon :: behind).head?, t.isTrivia = false) ∧ colon.kind = .colon ∧
      declaration d before colon behind = .ok n := by
  have hleaf : ∀ {ts : List Token}, n ∉ leaves d ts := by
    intro ts hmem
    obtain ⟨t, -, rfl⟩ := List.mem_map.1 hmem
    exact t.leafKind_ne_declaration hk
  cases h with
  | none => cases hn
  | atrule =>
    rcases List.mem_cons.1 hn with rfl | hn
    · cases hk
    · exact absurd hn hleaf
  | @other t ts own _ hcore =>
    have hhead := trimStart_append (t :: ts)
    have hrest := trimEnd_append (trimStart (t :: ts)).2
    have htrim := (trimmed_core (t :: ts)).1
    generalize (trimEnd (trimStart (t :: ts)).2).1 = core at *
    generalize (trimEnd (trimStart (t :: ts)).2).2 = trailing at *
    simp only [List.mem_append, hleaf, false_or, or_false] at hn
    cases hcore with
    | empty => cases hn
    | raw =>
      rw [List.mem_singleton.1 hn] at hk
      cases hk
    | @declaration _ before behind colon m hcut hm =>
      obtain ⟨rfl, hcolon⟩ := cutColon?_eq 0 hcut
      obtain rfl := List.mem_singleton.1 hn
      refine ⟨(trimStart (t :: ts)).1, before, colon, behind, trailing, ?_, by simp,
        isTrivia_trimStart _, htrim, hcolon, hm⟩
      rw [hrest, hhead]

/-- A declaration that starts with no trivia and has no property starts with its colon. -/
theorem eq_nil_of_trimEnd {before behind : List Token} {colon : Token}
    (h : ∀ t ∈ (before ++ colon :: behind).head?, t.isTrivia = false)
    (hnil : (trimEnd before).1 = []) : before = [] := by
  cases before with
  | nil => rfl
  | cons t ts =>
    have happend := trimEnd_append (t :: ts)
    rw [hnil, List.nil_append] at happend
    have htrivia := isTrivia_trimEnd (t :: ts) t (by rw [happend]; simp)
    rw [h t rfl] at htrivia
    cases htrivia

end Statement

open Statement

/-! ## Declarations in blocks -/

/-- The parts of a declaration, with nothing before its colon if it has no property. -/
def Node.Snug (n : Node) : Prop :=
  ∃ property gap colon lead value, DeclarationForm n.children property gap colon lead value ∧
    (property.children = [] → gap = [])

namespace Stated

variable {rows : List Lines.Line} {cs : List Node}

/-- The declarations of a block are read from statements. -/
theorem exists_plain (h : Stated d rows cs) {n : Node} (hn : n ∈ cs) (hk : n.kind = .declaration) :
    ∃ head own, Plain d head own ∧ n ∈ own := by
  have hleaf : ∀ t : Token, n ≠ t.leaf d := by
    rintro t rfl
    exact t.leafKind_ne_declaration hk
  have hopener : ∀ {head : List Token} {block m : Node}, Opener d block head m → n ≠ m := by
    rintro head block m hm rfl
    rcases hm.kind_mem with h | h <;> rw [h] at hk <;> cases hk
  cases h with
  | @braces ts last cs own _ hi ho =>
    rcases List.mem_append.1 hn with hmem | hmem
    · clear hn
      induction hi with
      | nil => cases hmem
      | @trivia t _ _ _ _ ih => exact ih ((List.mem_cons.1 hmem).resolve_left (hleaf t))
      | @statement head _ s own _ _ hown _ _ ih =>
        rcases List.mem_append.1 hmem with hmem | hmem
        · exact ⟨head, own, hown, hmem⟩
        · exact ih ((List.mem_cons.1 hmem).resolve_left (hleaf s))
      | nested _ _ _ _ _ _ hm _ _ ih =>
        exact ih ((List.mem_cons.1 hmem).resolve_left (hopener hm))
    · exact ⟨last, own, ho, hmem⟩
  | lines hd hls h =>
    subst hd
    have hlead : ∀ l : Lines.Line, n ∉ l.lead := fun l hmem =>
      Lines.lead_kind_ne l (by decide) n hmem hk
    clear hls
    induction h with
    | nil => cases hn
    | @blank l _ _ _ _ ih => exact ih ((List.mem_append.1 hn).resolve_left (hlead l))
    | @statement l _ own _ _ _ ho _ ih =>
      rcases List.mem_append.1 ((List.mem_append.1 hn).resolve_left (hlead l)) with hn | hn
      · exact ⟨l.body, own, ho, hn⟩
      · exact ih hn
    | @block l _ _ _ _ _ m _ _ _ _ hm _ _ ih =>
      refine ih ((List.mem_cons.1 ((List.mem_append.1 hn).resolve_left (hlead l))).resolve_left ?_)
      exact hopener hm

/-- **A declaration without a property starts with its colon.** -/
theorem snug (h : Stated d rows cs) {n : Node} (hn : n ∈ cs) (hk : n.kind = .declaration) :
    n.Snug := by
  obtain ⟨head, own, hplain, hmem⟩ := h.exists_plain hn hk
  obtain ⟨leading, before, colon, behind, trailing, -, -, -, htrim, -, hdecl⟩ :=
    hplain.exists_declaration hmem hk
  obtain ⟨value, hv, rfl⟩ := declaration_eq_ok.1 hdecl
  refine ⟨_, _, _, _, _, declarationForm hv, fun hnil => ?_⟩
  obtain rfl := eq_nil_of_trimEnd htrim (List.map_eq_nil_iff.1 hnil)
  rfl

end Stated

namespace Colons

variable {w : Position → Nat}

/-! ## Colons that have blanks before them -/

theorem padEnd_concat (padding : List Char) (ms : List Node) (l : Label) (t : List Char) :
    padEnd d padding (ms ++ [.leaf l t]) = ms ++
      if l.kind = .space then [.leaf l (t ++ padding)] else [.leaf l t, .ofSpace d padding] := by
  induction ms with
  | nil => rfl
  | cons m ms ih =>
    rw [List.cons_append, List.cons_append, ← ih]
    cases ms <;> simp [padEnd]

/-- **What stands between a property and its colon**, with blanks before the colon. -/
theorem regapped_padEnd {s : Slack} {k : Nat} {gap rest : List Node} {colon : Node}
    (hs : s ≠ .stuck) (hk : k ≠ 0) (hgap : ∀ n ∈ gap, n.isTrivia = true) (happart : Apart gap)
    (hp : ∀ n ∈ gap, Paddable d n) (hcolon : colon.kind = .propertyDelimiter)
    (hne : colon.chars ≠ []) :
    ∃ s', Regapped d gone s (gap ++ colon :: rest)
      (padEnd d (List.replicate k ' ') gap ++ colon :: rest) s' := by
  obtain ⟨s', hrest⟩ : ∃ s', Regapped d gone (.beyond d colon) rest rest s' := Regapped.refl _ rest
  have hkeep : ∀ s : Slack, Regapped d gone s (colon :: rest) (colon :: rest) s' :=
    fun s => .keep colon (.none s) (fun h => absurd rfl h) hrest
  have hput : ∀ {s : Slack}, s ≠ .stuck → Regapped d gone s (colon :: rest)
      (.ofSpace d (List.replicate k ' ') :: colon :: rest) s' := fun hs =>
    .keep colon (.blanks hs (by simpa using hk) (isBlankIn_replicate k))
      (fun _ => by simp [hcolon, hne]) hrest
  rcases List.eq_nil_or_concat gap with rfl | ⟨ms, m, rfl⟩
  · exact ⟨s', hput hs⟩
  rw [List.concat_eq_append] at hgap happart hp ⊢
  obtain ⟨l, t, rfl⟩ := (hp m (by simp)).formed.fits.eq_leaf (by
    rcases isTrivia_iff.1 (hgap m (by simp)) with h | h | h <;> rw [h] <;> rfl)
  rw [padEnd_concat]
  by_cases hl : l.kind = .space
  · obtain ⟨s₁, hms, hs₁⟩ : ∃ s', Regapped d gone s ms ms s' ∧ s' ≠ .stuck :=
      Regapped.exists_trivia hs (fun n hn => hgap n (by simp [hn])) (happart.getLast?_ne hl)
    obtain ⟨_, _, he, -, ht, hb⟩ := (hp (.leaf l t) (by simp)).exists_space hl
    cases he
    have hresize : Regapped d gone s₁ (.leaf l t :: colon :: rest)
        (.leaf l (t ++ List.replicate k ' ') :: colon :: rest) s' :=
      .resize hs₁ hl (by simp [ht]) (List.forall_mem_append.2 ⟨hb, isBlankIn_replicate k⟩)
        (fun h => by simp [h]) (hkeep .stuck)
    have hall := hms.append hresize
    rw [if_pos hl]
    exact ⟨s', by simpa using hall⟩
  · obtain ⟨s₁, hms, hs₁⟩ : ∃ s', Regapped d gone s (ms ++ [.leaf l t]) (ms ++ [.leaf l t]) s' ∧
        s' ≠ .stuck :=
      Regapped.exists_trivia hs hgap (by simpa [Node.kind, Node.label] using hl)
    have hall := hms.append (hput hs₁)
    rw [if_neg hl]
    exact ⟨s', by simpa using hall⟩

theorem padEnd_branch (padding : List Char) (l : Label) (cs gap : List Node) :
    padEnd d padding (.branch l cs :: gap) = .branch l cs :: padEnd d padding gap := by
  cases gap <;> rfl

/-- **A declaration with blanks before its colon** stands in for the declaration, if it has a
property. -/
theorem refills_padColon {n : Node} {k : Nat} {gap lead : List Node} {property colon value : Node}
    (hn : n.All (Paddable d)) (hk : n.kind = .declaration)
    (hform : DeclarationForm n.children property gap colon lead value)
    (hproperty : property.children ≠ []) : Refills d gone n (padColon k n) := by
  by_cases hzero : k = 0
  · rw [padColon, if_pos hzero]
    exact .refl n
  obtain ⟨l, cs, rfl⟩ := hn.self.formed.fits.eq_branch (by rw [hk]; rfl)
  rw [children] at hform
  have hcs := hform.children
  have hchildren : ∀ c ∈ cs, c.All (Paddable d) := (allOf_iff cs).1 hn.children
  have happart : Apart gap := by
    have hall : Apart cs := hn.self.wellFormed.apart
    rw [hcs] at hall
    exact hall.tail.left_of_append
  obtain ⟨s, hgap⟩ : ∃ s, Regapped d gone .free (gap ++ colon :: (lead ++ [value]))
      (padEnd d (List.replicate k ' ') gap ++ colon :: (lead ++ [value])) s :=
    regapped_padEnd (by simp) hzero hform.gap_trivia happart
      (fun m hm => (hchildren m (by rw [hcs]; simp [hm])).self) hform.colon_kind
      (by simp [hform.colon_chars])
  obtain ⟨lp, cp, rfl⟩ := (hchildren property (by rw [hcs]; simp)).self.formed.fits.eq_branch (by
    rw [hform.property_kind]
    rfl)
  have hdialect : l.dialect = d := hn.self.wellFormed.dialect
  rw [padColon_of_form hform hzero, hdialect, hcs, padEnd_branch, List.cons_append]
  exact .declaration hk (by rw [if_neg hproperty]; exact hgap)

/-- A declaration that starts with its colon has the blanks before it. -/
theorem chars_padColon_of_bare {n : Node} {lead : List Node} {property colon value : Node}
    (hn : n.All (Paddable d)) (hk : n.kind = .declaration)
    (hform : DeclarationForm n.children property [] colon lead value)
    (hproperty : property.children = []) (k : Nat) :
    (padColon k n).chars = List.replicate k ' ' ++ n.chars := by
  by_cases hzero : k = 0
  · rw [padColon, if_pos hzero, hzero]
    rfl
  have hmem : property ∈ n.children := by rw [hform.children]; simp
  obtain ⟨lp, cp, rfl⟩ := ((allOf_iff _).1 hn.children property hmem).self.formed.fits.eq_branch (by
    rw [hform.property_kind]
    rfl)
  obtain ⟨l, cs, rfl⟩ := hn.self.formed.fits.eq_branch (by rw [hk]; rfl)
  rw [children] at hform
  have hl : l.kind = .declaration := hk
  have hlp : lp.kind = .property := hform.property_kind
  obtain rfl : cp = [] := hproperty
  rw [padColon_of_form hform hzero, Node.chars, charsOf_append, charsOf_padEnd, hform.children]
  simp [Node.chars, branchMarks, hl, hlp]

/-! ## Colons at the start of a line -/

/-- A declaration that has blanks before it: it starts with its colon, and this is moved. -/
structure Nudged (w : Position → Nat) (n : Node) : Prop where
  moved : ∃ p, colon? n = some p ∧ w p ≠ 0
  bare : ∃ property, n.first? .property = some property ∧ property.children = []

/-- Whether the first of the siblings has blanks before it or is a space that takes them. -/
def Yields (w : Position → Nat) : List Node → Prop
  | [] => False
  | n :: ns => Nudged w n ∨ n.kind = .space ∧ ∃ m ∈ ns.head?, Nudged w m

/-- On lines the blanks before a declaration stand behind a comment: elsewhere they would be
indentation. -/
def Guarded (w : Position → Nat) : List Node → Prop
  | [] => True
  | n :: ns => (Yields w ns → n.isTrivia = true) ∧ Guarded w ns

/-- Siblings with nothing to hand on to what stands before them. -/
structure Calm (w : Position → Nat) (ns : List Node) : Prop where
  guarded : Guarded w ns
  not_yields : ¬ Yields w ns

theorem Calm.cons {n : Node} {ns : List Node} (h : Calm w ns) (hn : ¬ Nudged w n) :
    Calm w (n :: ns) := by
  refine ⟨⟨fun hy => absurd hy h.not_yields, h.guarded⟩, ?_⟩
  rintro (hy | ⟨-, m, hm, hy⟩)
  · exact hn hy
  · obtain ⟨ms, rfl⟩ := List.head?_eq_some_iff.1 hm
    exact h.not_yields (.inl hy)

theorem Calm.append {ms ns : List Node} (h : Calm w ns) (hms : ∀ m ∈ ms, ¬ Nudged w m) :
    Calm w (ms ++ ns) := by
  induction ms with
  | nil => exact h
  | cons m ms ih => exact (ih fun k hk => hms k (by simp [hk])).cons (hms m (by simp))

theorem not_nudged {n : Node} (hk : n.kind ≠ .declaration) : ¬ Nudged w n := by
  rintro ⟨⟨p, hp, -⟩, -⟩
  exact hk (kind_of_colon? hp)

theorem not_nudged_leaf (t : Token) : ¬ Nudged w (t.leaf d) :=
  not_nudged t.leafKind_ne_declaration

theorem Guarded.trivia {ts : List Token} {ns : List Node} (h : Guarded w ns)
    (ht : ∀ t ∈ ts, t.isTrivia = true) : Guarded w (Token.leaves d ts ++ ns) := by
  induction ts with
  | nil => exact h
  | cons t ts ih =>
    exact ⟨fun _ => Token.leaf_isTrivia (ht t (by simp)), ih fun u hu => ht u (by simp [hu])⟩

/-- **The statement of a line**, if the line does not start with a colon that is moved. -/
theorem calm_plain {head : List Token} {own ns : List Node} (h : Plain d head own)
    (hs : ∀ c ∈ head.head?, c.kind = .colon → w c.span.first = 0)
    (hf : ∀ t ∈ head.head?, t.kind ≠ .whitespace) (hns : Calm w ns) : Calm w (own ++ ns) := by
  by_cases hnone : ∀ n ∈ own, ¬ Nudged w n
  · exact hns.append hnone
  simp only [Classical.not_forall, Classical.not_not] at hnone
  obtain ⟨n, hn, hnudged⟩ := hnone
  obtain ⟨p, hp, hw⟩ := hnudged.moved
  obtain ⟨leading, before, colon, behind, trailing, rfl, rfl, htrivia, htrim, hcolon, hdecl⟩ :=
    h.exists_declaration hn (kind_of_colon? hp)
  obtain ⟨value, hv, rfl⟩ := declaration_eq_ok.1 hdecl
  rw [colon?_declaration] at hp
  cases hp
  obtain rfl : before = [] := by
    obtain ⟨property, hproperty, hnil⟩ := hnudged.bare
    rw [ofChildren, (declarationForm hv).first?_property] at hproperty
    cases hproperty
    exact eq_nil_of_trimEnd htrim (List.map_eq_nil_iff.1 hnil)
  have hrest : Calm w (Token.leaves d trailing ++ ns) := hns.append fun m hm => by
    obtain ⟨t, -, rfl⟩ := List.mem_map.1 hm
    exact not_nudged_leaf t
  rw [List.append_assoc, List.cons_append]
  refine ⟨.trivia ⟨fun hy => absurd hy hrest.not_yields, hrest.guarded⟩ htrivia, ?_⟩
  -- the line starts with trivia, and this with a comment
  cases leading with
  | nil => exact absurd (hs colon rfl hcolon) hw
  | cons t ts =>
    rintro (hy | ⟨hspace, -⟩)
    · exact not_nudged_leaf t hy
    · have ht := htrivia t (by simp)
      rcases (Token.leafKind_eq_space t).1 hspace with hk | hk
      · exact hf t rfl hk
      · rw [Token.isTrivia, hk] at ht
        cases ht

theorem not_nudged_lead (l : Lines.Line) : ∀ n ∈ l.lead, ¬ Nudged w n :=
  fun n hn => not_nudged (Lines.lead_kind_ne l (by decide) n hn)

/-- **What stands on lines**, if none of them starts with a colon that is moved. -/
theorem calm_lines {ls : List Lines.Line} {ns : List Node} (h : Lines.Nested ls ns)
    (hs : ∀ l ∈ ls, l.Steady w) (hf : Lines.Flush ls) : Calm w ns := by
  induction h with
  | nil => exact ⟨trivial, id⟩
  | @blank l ls ns _ _ ih =>
    refine (ih (fun m hm => hs m (by simp [hm])) fun m hm => hf m (by simp [hm])).append ?_
    exact not_nudged_lead l
  | @statement l ls own ns _ _ ho _ ih =>
    have hrest := ih (fun m hm => hs m (by simp [hm])) fun m hm => hf m (by simp [hm])
    exact (calm_plain ho (hs l (by simp)) (hf l (by simp)) hrest).append (not_nudged_lead l)
  | @block l ls inner outer cs ns n _ hcut _ _ hopen _ _ ih =>
    have happend := Lines.append_of_cutBlock hcut
    have hrest := ih (fun m hm => hs m (by simp [← happend, hm]))
      fun m hm => hf m (by simp [← happend, hm])
    refine (hrest.cons (not_nudged ?_)).append (not_nudged_lead l)
    rcases hopen.kind_mem with hk | hk <;> rw [hk] <;> exact Kind.noConfusion

/-! ## Siblings -/

theorem first?_property_of_form {n : Node} {gap lead : List Node} {property colon value : Node}
    (hform : DeclarationForm n.children property gap colon lead value) :
    n.first? .property = some property := by
  cases n with
  | leaf l t => cases hform.children
  | branch l cs => exact hform.first?_property (l := l)

/-- What stands in for a node of an aligned block, with blanks before it if it starts with a colon
that is moved. -/
theorem exists_refills {n m : Node} {column : Option Nat} {target : Nat}
    (hn : n.All (Paddable d)) (h : Reblocked d gone n m)
    (hm : m.chars = (n.mapBlock alignBlock).chars)
    (hform : n.kind = .declaration → n.Snug)
    (hw : ∀ c ∈ column, ∃ p, colon? n = some p ∧ (target - c ≠ 0 → w p ≠ 0)) :
    ∃ before m', Refills d gone n m' ∧ (∀ x ∈ before, isBlankIn d x = true) ∧
      (before ≠ [] → Nudged w n) ∧
      before ++ m'.chars = charsOf (padAll target [n.mapBlock alignBlock] [column]) := by
  cases column with
  | none => exact ⟨[], m, .of_reblocked h, by simp, fun h => absurd rfl h, by simp [padAll, hm]⟩
  | some c =>
    obtain ⟨p, hp, hmoved⟩ := hw c rfl
    have hk := kind_of_colon? hp
    obtain ⟨property, gap, colon, lead, value, hform, hbare⟩ := hform hk
    rw [mapBlock_declaration hn.self.formed hk]
    by_cases hproperty : property.children = []
    · rw [hbare hproperty] at hform
      refine ⟨List.replicate (target - c) ' ', n, .refl n, isBlankIn_replicate _, fun hne => ?_, ?_⟩
      · refine ⟨⟨p, hp, hmoved fun hzero => hne ?_⟩, property, first?_property_of_form hform,
          hproperty⟩
        rw [hzero]
        rfl
      · simp [padAll, chars_padColon_of_bare hn hk hform hproperty]
    · exact ⟨[], padColon (target - c) n, refills_padColon hn hk hform hproperty, by simp,
        fun h => absurd rfl h, by simp [padAll]⟩

/-- The columns are taken one by one, each of a colon that takes part. -/
theorem exists_columns (line : Option Nat) (n : Node) (ns : List Node) :
    ∃ c line', columns line (n :: ns) = c :: columns line' ns ∧
      (∀ k ∈ c, ∃ p, colon? n = some p ∧ k = p.column ∧ p ∈ leading line (colons (n :: ns))) ∧
      ∀ p ∈ leading line' (colons ns), p ∈ leading line (colons (n :: ns)) := by
  rw [columns, colons_cons]
  cases hc : colon? n with
  | none => exact ⟨none, line, rfl, by simp, fun p hp => by simpa using hp⟩
  | some p =>
    simp only [Option.toList_some, List.singleton_append, leading]
    split
    · exact ⟨none, some p.line, rfl, by simp, fun q hq => hq⟩
    · refine ⟨some p.column, some p.line, rfl, fun k hk => ⟨p, rfl, ?_, by simp⟩, fun q hq => ?_⟩
      · exact (Option.some.inj hk).symm
      · simp [hq]

theorem padAll_cons (target : Nat) (n : Node) (ns : List Node) (c : Option Nat)
    (cs : List (Option Nat)) :
    padAll target (n :: ns) (c :: cs) = padAll target [n] [c] ++ padAll target ns cs := by
  cases c <;> rfl

/-- **The siblings of an aligned block.** -/
theorem exists_filled {target : Nat} {line : Option Nat} {ns ms : List Node}
    (h : List.Forall₂ (Reblocked d gone) ns ms)
    (hchars : List.Forall₂ (fun m n => m.chars = n.chars) ms (ns.map (mapBlock alignBlock)))
    (hn : AllOf (Paddable d) ns) (happart : Apart ns)
    (hform : ∀ n ∈ ns, n.kind = .declaration → n.Snug)
    (hw : ∀ p ∈ leading line (colons ns), target - p.column ≠ 0 → w p ≠ 0)
    (hguard : d = .sass → Guarded w ns) :
    ∃ loose g text, Filled d gone ns loose g text ∧ (loose = true ∨ g ≠ [] → Yields w ns) ∧
      g ++ text = charsOf (padAll target (ns.map (mapBlock alignBlock)) (columns line ns)) := by
  induction h generalizing line with
  | nil => exact ⟨false, [], [], .nil, by simp, rfl⟩
  | @cons n m ns ms hnm hrest ih =>
    obtain ⟨c, line', hcolumns, hc, hline⟩ := exists_columns line n ns
    rw [List.map_cons] at hchars ⊢
    rw [allOf_cons] at hn
    obtain ⟨hm, hms⟩ := List.forall₂_cons.1 hchars
    obtain ⟨loose, g, text, hfilled, hyields, htext⟩ := ih hms hn.2 happart.tail
      (fun k hk => hform k (by simp [hk])) (fun p hp => hw p (hline p hp))
      fun hd => (hguard hd).2
    rw [hcolumns, padAll_cons, charsOf_append, ← htext]
    by_cases hspace : n.kind = .space
    · obtain ⟨l, t, rfl, hl, hne, hb⟩ := hn.1.self.exists_space hspace
      have hnone : c = none := by
        refine Option.eq_none_iff_forall_not_mem.2 fun k hk => ?_
        obtain ⟨p, hp, -⟩ := hc k hk
        have hdecl := kind_of_colon? hp
        rw [hspace] at hdecl
        cases hdecl
      have hself : charsOf (padAll target [(Node.leaf l t).mapBlock alignBlock] [c]) = t := by
        rw [hnone, mapBlock_leaf (by rw [hl]; rfl)]
        simp [padAll, Filled.chars_space hl]
      have hhead := happart.kind_ne hspace
      rw [hfilled.loose_eq_false hhead] at hfilled
      rw [hself]
      by_cases hg : g = []
      · rw [hg] at hfilled ⊢
        exact ⟨false, [], _, hfilled.keep hl, by simp, rfl⟩
      · refine ⟨true, [], _, hfilled.resize hl hne hb id, fun _ => .inr ⟨hspace, ?_⟩, rfl⟩
        cases ns with
        | nil => exact absurd (hyields (.inr hg)) id
        | cons k ks =>
          refine ⟨k, rfl, (hyields (.inr hg)).resolve_right fun hk => ?_⟩
          exact hhead k rfl hk.1
    · obtain ⟨before, m', hm', hblank, hnudged, heq⟩ := exists_refills (w := w) hn.1 hnm hm
        (hform n (by simp)) (fun k hk => by
          obtain ⟨p, hp, rfl, hlead⟩ := hc k hk
          exact ⟨p, hp, hw p hlead⟩)
      refine ⟨false, before, _, hfilled.cons hm' hblank (fun hne => ?_) (by simp)
        (fun h => absurd rfl h) (fun hy => ?_), fun hne => ?_, ?_⟩
      · obtain ⟨p, hp, -⟩ := (hnudged hne).moved
        exact takes_of_declaration hn.1.self.formed (kind_of_colon? hp)
      · by_cases hd : d = .sass
        · exact Slack.beyond_trivia_ne_stuck ((hguard hd).1 (hyields hy)) hspace
        · exact Slack.beyond_ne_stuck hd hspace
      · exact .inl (hnudged (hne.resolve_left Bool.false_ne_true))
      · rw [← heq]
        simp

/-! ## Blocks -/

/-- What colon alignment relies on in each node, where `w` are the blanks that it puts in. -/
structure Movable (w : Position → Nat) (d : Dialect) (n : Node) : Prop where
  paddable : Paddable d n
  own : n.kind = .block → ∀ p ∈ leading none (colons n.children),
    w p = target (colons n.children) - p.column

/-- **Alignment changes the whitespace in the gaps of each block**, if no line starts with a colon
that it moves. -/
theorem walks (gone : Position → Prop) {rows : List Lines.Line}
    (hs : d = .sass → ∀ l ∈ rows, l.Steady w) (hf : Lines.Flush rows) :
    Walks d gone rows (Movable w d) (fun m n => m.chars = n.chars) alignBlock where
  refl _ := rfl
  congr h := by simp [Node.chars, h]
  block := by
    intro k cs ms hk hP hstated hcs hms
    have hchildren := hP.children
    have hpaddable : AllOf (Paddable d) cs := AllOf.imp (fun _ h => h.paddable) cs hchildren
    have hcolon : ∀ n ∈ cs, colon? (n.mapBlock alignBlock) = colon? n := by
      intro n hn
      exact colon?_mapBlock ((allOf_iff cs).1 hpaddable n hn).self.formed
    rw [alignBlock_branch, colons_map hcolon]
    split
    · obtain ⟨s, hr⟩ := Reblocked.regapped hcs (.opening d)
      exact ⟨ms, s, hr, by rw [Node.chars, Node.chars, charsOf_of_forall₂ hms]⟩
    · have hcalm : d = .sass → Calm w cs := by
        intro hd
        cases hstated with
        | braces hne => exact absurd hd hne
        | lines _ hls h =>
          exact calm_lines h (fun l hl => hs hd l (hls l hl)) fun l hl => hf l (hls l hl)
      obtain ⟨loose, g, text, hfilled, hyields, htext⟩ := exists_filled (w := w) hcs hms hpaddable
        hP.self.paddable.wellFormed.apart (fun n hn => hstated.snug hn)
        (fun p hp h => by rwa [hP.self.own hk p hp]) fun hd => (hcalm hd).guarded
      have hopening : loose = true ∨ g ≠ [] → Slack.opening d ≠ .stuck := by
        intro hy
        by_cases hd : d = .sass
        · exact absurd (hyields hy) (hcalm hd).not_yields
        · simp [Slack.opening, hd]
      obtain ⟨ms', s, hms', hr⟩ := hfilled.exists_regapped hopening
      refine ⟨ms', s, hr, ?_⟩
      rw [Node.chars, Node.chars, hms', htext, columns_map hcolon]
      rfl

/-! ## Sheets -/

theorem movable_of_parsed {source : List Char} {tree : Node} {ts : List Token} {ns : List Node}
    (hp : Parsed d source tree ts ns) : AllOf (Movable (width tree) d) ns := by
  have hns : tree.children = ns := by
    rw [hp.tree_eq]
    rfl
  have hown : ∀ block ∈ tree.blocks, ∀ p ∈ leading none (colons block.children),
      width tree p = target (colons block.children) - p.column := by
    intro block hblock p hlead
    have hgroup : colons block.children ∈ groupsOf ns := by
      rw [← hns, ← map_blocks]
      exact List.mem_map_of_mem hblock
    exact width_of_mem_leading hp hgroup hlead
  have hblocks := forall_mem_blocks.1 hown
  rw [hns] at hblocks
  exact AllOf.imp (fun _ h => ⟨h.1, h.2⟩) ns (AllOf.and ns hp.paddable hblocks)

/-- **Colon alignment keeps what a sheet says**: whatever the dialect, the aligned text can be read,
and without whitespace it is read into the tree that the sheet was read into, unless a colon has
been moved that starts a line of an indented sheet. -/
theorem sameShape_solid_of_steady (d : Dialect) (source : String) (tree : Node)
    (h : parse d source = .ok tree) :
    ∃ once again, rule.process tree = .ok once ∧ parse d once.render = .ok again ∧
      (Steady d source tree → again.solid.sameShape tree.solid = true) := by
  obtain ⟨ts, ns, hp⟩ := parsed_of_parseChars h
  obtain ⟨again, us, ms, hagain, -⟩ := exists_parse_aligned hp
  refine ⟨_, again, process_of_parseChars h, ?_, fun hsteady => ?_⟩
  · rw [parse, Node.render, String.toList_ofList]
    exact hagain
  · have hflush := Lines.flush_cut (tokens_eq_ok.1 hp.tokens_eq).apart
    obtain ⟨again', hagain', hsame⟩ :=
      hp.exists_parse_mapBlocks (walks _ (hsteady.lines hp) hflush) (movable_of_parsed hp)
    rw [hagain] at hagain'
    cases hagain'
    exact hsame

/-- A sheet with colons behind properties, comments, delimiters and blocks. -/
def bareSheet : String :=
  "a \x7b\n  bb: c; // d\n  :e;\n  f /* g */: h;\n  /* i */:j; k \x7b l: m \x7d\n:n\n\x7d"

/-- The like on lines, where each colon has something before it. -/
def guardedLines : String := "a\n  bb: c // d\n  f /* g */: h\n  /* i */ :j\n  k\n    l: m\n  n: o"

/-- Lines one of which starts with a colon that is moved. -/
def bareLines : String := "a\n  bb: c\n  :d"

theorem sameShape_solid_of_steady_guarded :
    (∃ tree once again, parse .scss bareSheet = .ok tree ∧ rule.process tree = .ok once ∧
      once.render ≠ bareSheet ∧ parse .scss once.render = .ok again ∧
        again.solid.sameShape tree.solid = true) ∧
    (∃ tree once again, parse .sass guardedLines = .ok tree ∧ rule.process tree = .ok once ∧
      once.render ≠ guardedLines ∧ parse .sass once.render = .ok again ∧
        again.solid.sameShape tree.solid = true) ∧
    ∃ tree once again, parse .sass bareLines = .ok tree ∧ rule.process tree = .ok once ∧
      once.render = "a\n  bb: c\n    :d" ∧ parse .sass once.render = .ok again ∧
        again.solid.sameShape tree.solid = false := by
  have hmoved : ∀ d source, (parse d source).toOption.map (fun tree =>
      decide (Steady d source tree) && (tree.mapBlocks alignBlock).render != source) = some true →
        ∃ tree once again, parse d source = .ok tree ∧ rule.process tree = .ok once ∧
          once.render ≠ source ∧ parse d once.render = .ok again ∧
            again.solid.sameShape tree.solid = true := by
    intro d source hmoves
    cases h : parse d source with
    | error e => rw [h] at hmoves; cases hmoves
    | ok tree =>
      rw [h] at hmoves
      simp only [Except.toOption, Option.map_some, Option.some.injEq, Bool.and_eq_true,
        decide_eq_true_eq, bne_iff_ne] at hmoves
      obtain ⟨once, again, honce, hagain, hsame⟩ := sameShape_solid_of_steady d source tree h
      obtain rfl := Except.ok.inj ((process_of_parseChars h).symm.trans honce)
      exact ⟨tree, _, again, rfl, honce, hmoves.2, hagain, hsame hmoves.1⟩
  refine ⟨hmoved _ _ (by decide +kernel), hmoved _ _ (by decide +kernel), ?_⟩
  have hbad : (parse .sass bareLines).toOption.map (fun tree =>
      (tree.mapBlocks alignBlock).render) = some "a\n  bb: c\n    :d" := by
    decide +kernel
  have hother : (parse .sass bareLines).toOption.bind (fun tree =>
      (parse .sass "a\n  bb: c\n    :d").toOption.map fun again =>
        again.solid.sameShape tree.solid) = some false := by
    decide +kernel
  cases h : parse .sass bareLines with
  | error e => rw [h] at hbad; cases hbad
  | ok tree =>
    obtain ⟨once, again, honce, hagain, -⟩ := sameShape_solid_of_steady _ _ tree h
    obtain rfl := Except.ok.inj ((process_of_parseChars h).symm.trans honce)
    rw [h] at hbad hother
    have hrender : (tree.mapBlocks alignBlock).render = _ := Option.some.inj hbad
    rw [← hrender, hagain] at hother
    exact ⟨tree, _, again, rfl, honce, hrender, hagain, Option.some.inj hother⟩

end Colons

end TidySheet
