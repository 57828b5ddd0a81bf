import TidySheet.Tidier
import TidySheet.Proofs.Lossless

/-!
# Rules touch nothing but whitespace

The ink of a text is what is left without its blanks. Every edit that a rule makes takes out, puts
in or rewrites a whitespace leaf, so it keeps the ink as long as whitespace leaves hold blanks only;
and it leaves whitespace leaves that do.

* `Respaced` — an edit of siblings that keeps blanks blank and the ink as it is; it composes;
* `Respaced.mapBlock` — such edits of blocks make up such an edit of a tree;
* `keepsInk_builtIn` — every rule of the library keeps the ink of a stylesheet;
* `ink_of_tidy` — and so does every run of a tidier.
-/

set_option autoImplicit false

namespace TidySheet

/-- What is left of a text without its blanks. -/
def ink (cs : List Char) : List Char := cs.filter fun c => !isBlank c

@[simp] theorem ink_nil : ink [] = [] := rfl

@[simp] theorem ink_append (cs ds : List Char) : ink (cs ++ ds) = ink cs ++ ink ds :=
  List.filter_append cs ds

theorem ink_eq_nil {cs : List Char} (h : ∀ c ∈ cs, isBlank c = true) : ink cs = [] := by
  unfold ink
  rw [List.filter_eq_nil_iff]
  intro c hc
  simp [h c hc]

theorem isBlank_of_mem_replicate {width : Nat} {c : Char} (h : c ∈ List.replicate width ' ') :
    isBlank c = true := by
  rw [(List.mem_replicate.1 h).2]
  rfl

/-- Whitespace is a leaf of blanks. -/
def Node.Blank : Node → Prop
  | .leaf l t => l.kind = .space → ∀ c ∈ t, isBlank c = true
  | .branch l _ => l.kind ≠ .space

theorem Node.Sound.blank {d : Dialect} : ∀ {n : Node}, n.Sound d → n.Blank
  | .leaf _ _, h => h.2.2
  | .branch l _, h => by
    intro hk
    have hl := h.2.1
    rw [hk] at hl
    cases hl

theorem Node.Blank.ink_eq_nil {n : Node} (h : n.Blank) (hk : n.kind = .space) :
    ink n.chars = [] := by
  cases n with
  | leaf l t =>
    have hl : l.kind = .space := hk
    simpa [Node.chars, Node.leafMarks, hl] using TidySheet.ink_eq_nil (h hl)
  | branch l cs => exact absurd hk h

/-! ## Edits of siblings -/

/-- **An edit of siblings that keeps whitespace blank and the ink as it is.** -/
def Respaced (ms ns : List Node) : Prop :=
  Node.AllOf Node.Blank ms →
    Node.AllOf Node.Blank ns ∧ ink (Node.charsOf ns) = ink (Node.charsOf ms)

namespace Respaced

open Node

variable {ms ns ks ms' ns' : List Node}

theorem refl (ns : List Node) : Respaced ns ns := fun h => ⟨h, rfl⟩

theorem trans (h : Respaced ms ns) (h' : Respaced ns ks) : Respaced ms ks := by
  intro hm
  obtain ⟨hn, hi⟩ := h hm
  obtain ⟨hk, hi'⟩ := h' hn
  exact ⟨hk, hi'.trans hi⟩

theorem append (h : Respaced ms ns) (h' : Respaced ms' ns') :
    Respaced (ms ++ ms') (ns ++ ns') := by
  intro hm
  obtain ⟨hm, hm'⟩ := (allOf_append ms ms').1 hm
  obtain ⟨hn, hi⟩ := h hm
  obtain ⟨hn', hi'⟩ := h' hm'
  exact ⟨(allOf_append ns ns').2 ⟨hn, hn'⟩, by simp [hi, hi']⟩

theorem cons (n : Node) (h : Respaced ms ns) : Respaced (n :: ms) (n :: ns) :=
  (refl [n]).append h

/-- Whitespace may be taken out. -/
theorem drop {n : Node} (hk : n.kind = .space) : Respaced [n] [] := by
  intro hn
  have hb := ((allOf_cons n []).1 hn).1.self
  exact ⟨allOf_nil, by simp [hb.ink_eq_nil hk]⟩

/-- Blanks may be put in. -/
theorem put {l : Label} {t : List Char} (hk : l.kind = .space)
    (ht : ∀ c ∈ t, isBlank c = true) : Respaced [] [.leaf l t] := by
  intro _
  have hb : (Node.leaf l t).Blank := fun _ => ht
  exact ⟨by simpa using hb, by simp [hb.ink_eq_nil hk]⟩

/-- The text of whitespace may be rewritten with blanks. -/
theorem rewrite {l : Label} {t t' : List Char} (hk : l.kind = .space)
    (ht : (∀ c ∈ t, isBlank c = true) → ∀ c ∈ t', isBlank c = true) :
    Respaced [.leaf l t] [.leaf l t'] := by
  intro hn
  have hb : ∀ c ∈ t, isBlank c = true := ((allOf_cons _ []).1 hn).1.self hk
  exact ((drop (n := .leaf l t) hk).trans (put hk (ht hb))) hn

theorem branch {l : Label} (h : Respaced ms ns) : Respaced [.branch l ms] [.branch l ns] := by
  intro hm
  obtain ⟨hl, hm⟩ := (all_branch l ms).1 ((allOf_cons _ []).1 hm).1
  obtain ⟨hn, hi⟩ := h hm
  have hb : (Node.branch l ns).Blank := hl
  refine ⟨(allOf_cons _ []).2 ⟨(all_branch l ns).2 ⟨hb, hn⟩, allOf_nil⟩, ?_⟩
  simp [Node.chars, hi]

theorem withChildren {n : Node} (h : Respaced n.children ns) :
    Respaced [n] [n.withChildren ns] := by
  cases n with
  | leaf l t => exact refl _
  | branch l cs => exact branch h

mutual

/-- Edits of blocks make up an edit of a tree. -/
theorem mapBlock {f : Node → Node} (hf : ∀ b, Respaced [b] [f b]) :
    ∀ n : Node, Respaced [n] [n.mapBlock f]
  | .leaf l t => by
    unfold Node.mapBlock
    split
    · exact hf _
    · exact refl _
  | .branch l cs => by
    have hcs : Respaced [.branch l cs] [.branch l (Node.mapBlocksOf f cs)] :=
      branch (mapBlocksOf hf cs)
    unfold Node.mapBlock
    split
    · exact hcs.trans (hf _)
    · exact hcs

theorem mapBlocksOf {f : Node → Node} (hf : ∀ b, Respaced [b] [f b]) :
    ∀ ns : List Node, Respaced ns (Node.mapBlocksOf f ns)
  | [] => by
    unfold Node.mapBlocksOf
    exact refl []
  | n :: ns => by
    unfold Node.mapBlocksOf
    exact (mapBlock hf n).append (mapBlocksOf hf ns)

end

theorem mapBlocks {f : Node → Node} (hf : ∀ b, Respaced [b] [f b]) (n : Node) :
    Respaced [n] [n.mapBlocks f] :=
  withChildren (mapBlocksOf hf n.children)

end Respaced

/-! ## The edits of the rules -/

namespace Inlining

theorem respaced_filter (ns : List Node) : Respaced ns (ns.filter fun c => !c.is .space) := by
  induction ns with
  | nil => exact .refl []
  | cons n ns ih =>
    by_cases h : n.is .space
    · have hk : n.kind = .space := by simpa [Node.is] using h
      rw [List.filter_cons_of_neg (by simp [h])]
      exact (Respaced.drop hk).append ih
    · rw [List.filter_cons_of_pos (by simp [h])]
      exact ih.cons n

theorem respaced_inlineBlock (block : Node) : Respaced [block] [inlineBlock block] := by
  unfold inlineBlock
  split
  · exact .withChildren (respaced_filter block.children)
  · exact .refl _

end Inlining

namespace Colons

theorem respaced_padEnd (d : Dialect) (width : Nat) (ns : List Node) :
    Respaced ns (padEnd d (List.replicate width ' ') ns) := by
  rcases padEnd_eq d (List.replicate width ' ') ns with ⟨ms, l, t, hk, rfl, hpad⟩ | hpad
  · rw [hpad]
    refine (Respaced.refl ms).append (.rewrite hk fun ht c hc => ?_)
    rcases List.mem_append.1 hc with hc | hc
    · exact ht c hc
    · exact isBlank_of_mem_replicate hc
  · rw [hpad]
    have hput : Respaced [] [.ofSpace d (List.replicate width ' ')] :=
      .put rfl fun c hc => isBlank_of_mem_replicate hc
    have happend := (Respaced.refl ns).append hput
    rwa [List.append_nil] at happend

theorem respaced_padColon (width : Nat) (n : Node) : Respaced [n] [padColon width n] := by
  unfold padColon
  split
  · exact .refl _
  split
  · exact .refl _
  · rename_i before colon behind hc
    refine .withChildren ?_
    rw [Node.eq_of_cutFirst? hc]
    exact (respaced_padEnd _ _ before).append (.refl _)

theorem respaced_padAll (target : Nat) (ns : List Node) (cs : List (Option Nat)) :
    Respaced ns (padAll target ns cs) := by
  fun_induction padAll target ns cs with
  | case1 n ns column cs ih => exact (respaced_padColon _ n).append ih
  | case2 n ns cs ih => exact ih.cons n
  | case3 ns => exact .refl ns
  | case4 cs => exact .refl []

theorem respaced_alignBlock (block : Node) : Respaced [block] [alignBlock block] := by
  unfold alignBlock
  split
  · exact .refl _
  · exact .withChildren (respaced_padAll _ _ _)

end Colons

namespace VendorAlign

variable {os : List Occurrence} {o : Occurrence}

theorem isBlank_of_padded? {t t' : List Char} (h : padded? os o t = some t')
    (ht : ∀ c ∈ t, isBlank c = true) : ∀ c ∈ t', isBlank c = true := by
  intro c hc
  obtain ⟨target, -, rfl⟩ := Option.map_eq_some_iff.1 h
  rcases List.mem_append.1 hc with hc | hc
  · apply ht c
    rw [← splitFinalLine_append t]
    exact List.mem_append_left _ hc
  · exact isBlank_of_mem_replicate hc

theorem respaced_resize {n : Node} (hk : n.kind = .space) : Respaced [n] [resize os o n] := by
  cases n with
  | leaf l t =>
    refine .rewrite hk fun ht => ?_
    cases hp : padded? os o t with
    | none => exact ht
    | some t' => exact isBlank_of_padded? hp ht
  | branch l cs => exact .refl _

theorem respaced_gap (d : Dialect) : Respaced [] ((gap? os o).map (Node.ofSpace d)).toList := by
  cases hg : gap? os o with
  | none => exact .refl []
  | some t =>
    have hp : padded? os o [] = some t := (Option.filter_eq_some_iff.1 hg).1
    exact .put rfl (isBlank_of_padded? hp fun c hc => nomatch hc)

theorem respaced_padLead (d : Dialect) (ns : List Node) : Respaced ns (padLead os o d ns) := by
  fun_induction padLead os o d ns with
  | case1 => exact respaced_gap d
  | case2 n hk => exact respaced_resize (by simpa [Node.is] using hk)
  | case3 n hk => exact (respaced_gap d).cons n
  | case4 n ns hne ih => exact ih.cons n

theorem respaced_padValue (n : Node) : Respaced [n] [padValue os o n] := by
  unfold padValue
  split
  · exact .refl _
  · rename_i before value behind hc
    refine .withChildren ?_
    rw [Node.eq_of_cutLast? hc]
    exact (respaced_padLead _ before).append (.refl _)

theorem respaced_padValues (ns : List Node) : Respaced ns (padValues os ns) := by
  induction ns with
  | nil => exact .refl []
  | cons n ns ih =>
    have hn : Respaced [n] (padValues os [n]) := by
      simp only [padValues, List.map_cons, List.map_nil]
      split
      · exact respaced_padValue n
      · exact .refl _
    exact hn.append ih

theorem respaced_padSibling (d : Dialect) (n : Node) : Respaced [n] (padSibling os o d n) := by
  unfold padSibling
  split
  · rename_i hk
    exact respaced_resize (by simpa [Node.is] using hk)
  split
  · exact (respaced_gap d).append (.refl [n])
  · exact (respaced_gap d).cons n

theorem respaced_padProperties (d : Dialect) (ns : List (Node × Option Occurrence)) :
    Respaced (ns.map Prod.fst) (padProperties os d ns) := by
  fun_induction padProperties os d ns with
  | case1 => exact .refl []
  | case2 n o => exact .refl [n]
  | case3 n o' m o rest ih =>
    cases o with
    | some o => exact (respaced_padSibling d n).append ih
    | none => exact ih.cons n

theorem respaced_padBlock (d : Dialect) (ns : List Node) :
    Respaced ns (padProperties os d ((padValues os ns).zip (VendorBlock.properties ns))) := by
  have hlength : (padValues os ns).length ≤ (VendorBlock.properties ns).length := by
    simp [padValues]
  have hproperties : Respaced _ (padProperties os d
      ((padValues os ns).zip (VendorBlock.properties ns))) := respaced_padProperties d _
  rw [List.map_fst_zip hlength] at hproperties
  exact (respaced_padValues ns).trans hproperties

theorem respaced_alignBlock (d : Dialect) (block : Node) :
    Respaced [block] [alignBlock d block] := by
  unfold alignBlock
  dsimp only
  split
  · exact .refl _
  split
  · exact .withChildren (respaced_padValues block.children)
  · exact .withChildren (respaced_padBlock block.dialect block.children)

end VendorAlign

/-! ## Rules and runs -/

/-- A stylesheet with a given ink whose whitespace is blank. -/
structure Node.Inked (text : List Char) (tree : Node) : Prop where
  kind : tree.kind = .stylesheet
  blank : tree.All Node.Blank
  ink_eq : ink tree.chars = text

/-- A rule that keeps the ink of every stylesheet that it reshapes. -/
def Rule.KeepsInk (r : Rule) : Prop :=
  ∀ text tree next, Node.Inked text tree → r.reshape tree = .ok next → Node.Inked text next

namespace Node

theorem inked_of_parseChars {d : Dialect} {source : List Char} {tree : Node}
    (h : parseChars d source = .ok tree) : Inked (ink source) tree where
  kind := by
    obtain ⟨ts, ns, hp⟩ := parsed_of_parseChars h
    rw [hp.tree_eq]
    rfl
  blank := All.imp (fun n hn => hn.blank) tree (sound_of_parseChars h)
  ink_eq := by rw [chars_of_parseChars h]

theorem Inked.mapBlocks {text : List Char} {tree : Node} (h : Inked text tree)
    {f : Node → Node} (hf : ∀ b, Respaced [b] [f b]) : Inked text (tree.mapBlocks f) := by
  have hb : AllOf Blank [tree] := (allOf_cons tree []).2 ⟨h.blank, allOf_nil⟩
  obtain ⟨hn, hi⟩ := Respaced.mapBlocks hf tree hb
  refine ⟨?_, ((allOf_cons _ []).1 hn).1, ?_⟩
  · rw [← h.kind]
    cases tree <;> rfl
  · rw [← h.ink_eq]
    simpa using hi

end Node

theorem chars_of_kind_stylesheet {n : Node} {cs : List Node} (hk : n.kind = .stylesheet)
    (s : Span) : (Node.branch { n.label with span := s } cs).chars = Node.charsOf cs := by
  have hl : n.label.kind = .stylesheet := hk
  simp [Node.chars, Node.branchMarks, hl]

/-- A tree that is written out and read again keeps its ink. -/
theorem Node.Inked.reparse {rule : String} {text : List Char} {tree fresh : Node}
    (h : Inked text tree) (hr : TidySheet.reparse rule tree = .ok fresh) : Inked text fresh := by
  unfold TidySheet.reparse at hr
  split at hr
  · cases hr
  rename_i read hread
  split at hr
  · rename_i hchars
    cases hr
    have hi := inked_of_parseChars hread
    have hprint : read.chars = charsOf read.children := by
      obtain ⟨ts, ns, hp⟩ := parsed_of_parseChars hread
      rw [hp.tree_eq]
      simp [ofChildren, Node.chars, branchMarks, Node.children]
    refine ⟨h.kind, (all_branch _ _).2 ⟨?_, hi.blank.children⟩, ?_⟩
    · show tree.kind ≠ .space
      rw [h.kind]
      decide
    · rw [chars_of_kind_stylesheet h.kind, ← hprint, hchars, h.ink_eq]
  · cases hr

theorem Inlining.keepsInk : Rule.KeepsInk rule := by
  intro text tree next h hr
  cases hr
  exact h.mapBlocks respaced_inlineBlock

theorem VendorAlign.keepsInk : Rule.KeepsInk rule := by
  intro text tree next h hr
  cases hr
  exact h.mapBlocks (respaced_alignBlock _)

theorem Colons.keepsInk : Rule.KeepsInk rule := by
  intro text tree next h hr
  obtain ⟨fresh, hf, hr⟩ := bind_eq_ok.1 hr
  cases hr
  exact (h.reparse hf).mapBlocks respaced_alignBlock

/-- Every rule of the library keeps the ink of a stylesheet. -/
theorem keepsInk_builtIn : ∀ r ∈ Registry.builtIn.rules, r.KeepsInk := by
  intro r hr
  have hrules : Registry.builtIn.rules = [Colons.rule, Inlining.rule, VendorAlign.rule] := rfl
  rw [hrules] at hr
  simp only [List.mem_cons, List.not_mem_nil, or_false] at hr
  rcases hr with rfl | rfl | rfl
  · exact Colons.keepsInk
  · exact Inlining.keepsInk
  · exact VendorAlign.keepsInk

theorem mem_of_takeFirst? {p : Rule → Bool} {rs rest : List Rule} {found : Rule}
    (h : takeFirst? p rs = some (found, rest)) : ∀ r ∈ found :: rest, r ∈ rs := by
  induction rs generalizing rest with
  | nil => cases h
  | cons s rs ih =>
    simp only [takeFirst?] at h
    split at h
    · cases h
      exact fun r hr => hr
    split at h
    · rename_i found' rest' hc
      cases h
      intro r hr
      rcases List.mem_cons.1 hr with rfl | hr
      · exact List.mem_cons_of_mem _ (ih hc _ (by simp))
      · rcases List.mem_cons.1 hr with rfl | hr
        · simp
        · exact List.mem_cons_of_mem _ (ih hc _ (by simp [hr]))
    · cases h

theorem mem_of_arrange {rs placed : List Rule} (h : arrange rs = .ok placed) :
    ∀ r ∈ placed, r ∈ rs := by
  fun_induction arrange rs generalizing placed with
  | case1 rs r rest hf ih =>
    obtain ⟨others, ho, h⟩ := bind_eq_ok.1 h
    cases h
    intro s hs
    apply mem_of_takeFirst? hf s
    rcases List.mem_cons.1 hs with rfl | hs
    · simp
    · exact List.mem_cons_of_mem _ (ih ho s hs)
  | case2 rs hf he =>
    cases h
    simp
  | case3 rs hf he => cases h

theorem Registry.mem_of_ordered {g : Registry} {names : List String} {placed : List Rule}
    (h : g.ordered names = .ok placed) : ∀ r ∈ placed, r ∈ g.rules := by
  unfold ordered at h
  split at h
  · cases h
  · intro r hr
    exact (List.mem_filter.1 (mem_of_arrange h r hr)).1

/-- A run of rules that keep the ink keeps it. -/
theorem Node.Inked.runRules {d : Dialect} {text : List Char} {rs : List Rule} {tree : Node}
    (hrs : ∀ r ∈ rs, r.KeepsInk) (h : Inked text tree) :
    Inked text (Tidier.runRules d rs tree).1 := by
  induction rs generalizing tree with
  | nil => exact h
  | cons r rs ih =>
    have htail : ∀ s ∈ rs, s.KeepsInk := fun s hs => hrs s (List.mem_cons_of_mem _ hs)
    unfold Tidier.runRules
    split
    · split
      · exact h
      · rename_i next hn
        have hnext : Inked text next := by
          unfold Rule.process at hn
          split at hn
          · exact hrs r List.mem_cons_self _ _ _ h hn
          · cases hn
        have hlast := ih htail hnext
        split
        · rename_i last e he
          rwa [he] at hlast
        · rename_i last names he
          rwa [he] at hlast
    · exact ih htail h

theorem Tidier.keepsInk {t : Tidier}
    (ht : (∃ settings, Tidier.ofSettings settings = .ok t) ∨ Tidier.full = .ok t) :
    ∀ r ∈ t.rules, r.KeepsInk := by
  intro r hr
  apply keepsInk_builtIn r
  rcases ht with ⟨settings, ht⟩ | ht
  · obtain ⟨rules, hc, ht⟩ := bind_eq_ok.1 ht
    cases ht
    obtain ⟨names, -, ho⟩ := bind_eq_ok.1 hc
    exact Registry.mem_of_ordered ho r hr
  · obtain ⟨rules, ho, ht⟩ := bind_eq_ok.1 ht
    cases ht
    exact Registry.mem_of_ordered ho r hr

/-- **Tidying touches nothing but whitespace**: whatever rules the settings turn on, a tidied text
without its blanks is the source without its blanks. -/
theorem ink_of_tidy (t : Tidier)
    (ht : (∃ settings, Tidier.ofSettings settings = .ok t) ∨ Tidier.full = .ok t)
    (d : Dialect) (source : String) (tidied : Tidied) (h : t.tidy d source = .ok tidied) :
    ink tidied.output.toList = ink source.toList := by
  unfold Tidier.tidy at h
  split at h
  · cases h
  rename_i tree hp
  have hlast : Node.Inked (ink source.toList) (t.processTree tree).1 :=
    (Node.inked_of_parseChars hp).runRules (Tidier.keepsInk ht)
  split at h
  · cases h
  · rename_i last names hr
    cases h
    rw [hr] at hlast
    simpa [Node.render] using hlast.ink_eq

/-- All three rules change this sheet. -/
def untidySheet : String := "a\x7b\n -moz-b:c;\n b:c\n\x7d d \x7b e:f\x7d g\x7b\nhh:i;\nj:k\n\x7d"

theorem ink_of_tidy_full : ∃ t tidied, Tidier.full = .ok t ∧ t.tidy .css untidySheet = .ok tidied ∧
    tidied.changedBy.length = 3 ∧ ink tidied.output.toList = ink untidySheet.toList := by
  have hrun : (Tidier.full.toOption.bind fun t => (t.tidy .css untidySheet).toOption).map
      (fun tidied => tidied.changedBy.length) = some 3 := by decide +kernel
  cases ht : Tidier.full with
  | error e => rw [ht] at hrun; cases hrun
  | ok t =>
    cases h : t.tidy .css untidySheet with
    | error e =>
      rw [ht] at hrun
      simp [Except.toOption, h] at hrun
    | ok tidied =>
      rw [ht] at hrun
      simp only [Except.toOption, h, Option.bind_some, Option.map_some, Option.some.injEq] at hrun
      exact ⟨t, tidied, rfl, h, hrun, ink_of_tidy t (.inr ht) .css untidySheet tidied h⟩

end TidySheet
