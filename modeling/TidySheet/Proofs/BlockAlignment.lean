import TidySheet.Proofs.PropertyPadding

/-!
# Aligning a block twice

A block is aligned by padding its values and then, but for sass, its properties. What alignment
reads off a block is the same afterwards, but for the names that moved to their targets.

* `Alike` — nodes that alignment measures alike;
* `reach_alignChildren`, `isOneLine_alignChildren` — targets stay, and so does the layout;
* `alignChildren_alignChildren` — a block that holds no property back is aligned once and for all;
* `isHeld_alignChildren` — one that does still does so when it is aligned.
-/

set_option autoImplicit false

namespace TidySheet

theorem Dialect.usesBraces_of_ne {d : Dialect} (hd : d ≠ .sass) : d.usesBraces = true := by
  cases d with
  | sass => exact absurd rfl hd
  | _ => rfl

namespace VendorBlock

open Node

/-! ## Nodes that are measured alike -/

/-- Nodes that look the same to a property behind them, and have the same property. -/
structure Alike (n n' : Node) : Prop where
  leaf_iff : ∀ l t, n' = .leaf l t ↔ n = .leaf l t
  kind_eq : n'.kind = n.kind
  property_eq : propertyName? n' = propertyName? n

theorem Alike.refl (n : Node) : Alike n n := ⟨fun _ _ => Iff.rfl, rfl, rfl⟩

theorem Alike.hasBreak_eq {n n' : Node} (h : Alike n n') : n'.hasBreak = n.hasBreak := by
  cases n with
  | leaf l t => rw [(h.leaf_iff l t).2 rfl]
  | branch l cs =>
    cases n' with
    | leaf l t => cases (h.leaf_iff l t).1 rfl
    | branch l' cs' => rfl

variable {f : Node → Node} {before ns : List Node}

theorem measureBack_map (hf : ∀ n ∈ ns, Alike n (f n)) :
    Indent.measureBack (ns.map f) = Indent.measureBack ns := by
  induction ns with
  | nil => rfl
  | cons n ns ih =>
    have hn := hf n List.mem_cons_self
    have htail := ih fun m hm => hf m (List.mem_cons_of_mem _ hm)
    rw [List.map_cons]
    cases n with
    | leaf l t =>
      rw [(hn.leaf_iff l t).2 rfl]
      simp only [Indent.measureBack, htail]
    | branch l cs =>
      cases hfn : f (.branch l cs) with
      | leaf l' t => cases (hn.leaf_iff l' t).1 hfn
      | branch l' cs' =>
        simp only [Indent.measureBack]
        exact htail

theorem leadPast_map {n : Node} (hn : Alike n (f n)) :
    leadPast (before.map f) (f n) = (leadPast before n).map f := by
  have hk : (f n).is .declarationDelimiter = n.is .declarationDelimiter := by
    rw [is, is, hn.kind_eq]
  rw [leadPast, leadPast, hk]
  split <;> rfl

theorem alike_leadPast {n : Node} (hn : Alike n (f n)) (hb : ∀ m ∈ before, Alike m (f m)) :
    ∀ m ∈ leadPast before n, Alike m (f m) := by
  intro m hm
  rw [leadPast] at hm
  split at hm
  · cases hm
  · rcases List.mem_cons.1 hm with rfl | hm
    · exact hn
    · exact hb m hm

theorem propertiesFrom_map (hb : ∀ n ∈ before, Alike n (f n)) (hns : ∀ n ∈ ns, Alike n (f n)) :
    propertiesFrom (before.map f) (ns.map f) = propertiesFrom before ns := by
  induction ns generalizing before with
  | nil => rfl
  | cons n ns ih =>
    have hn := hns n List.mem_cons_self
    rw [List.map_cons, propertiesFrom_cons, propertiesFrom_cons, leadPast_map hn,
      ih (alike_leadPast hn hb) fun m hm => hns m (List.mem_cons_of_mem _ hm), propertyOccurrence?,
      propertyOccurrence?, hn.property_eq, measureBack_map hb]

theorem properties_map (hns : ∀ n ∈ ns, Alike n (f n)) :
    properties (ns.map f) = properties ns := by
  have hnil : ∀ n ∈ ([] : List Node), Alike n (f n) := fun _ hn => nomatch hn
  exact propertiesFrom_map hnil hns

/-! ## Lines -/

/-- Whether no break stands before any of the siblings `ns`. -/
def oneLineFrom (before ns : List Node) : Bool :=
  (withLead before ns).all fun (b, _) => !(Indent.measureBack b).lineBreak

/-- Whether no break stands before the value of a node. -/
def isOneLineValue (n : Node) : Bool := !(n.is .declaration && (valueIndent n).lineBreak)

theorem isOneLine_eq (cs : List Node) :
    isOneLine cs = (oneLineFrom [] cs && cs.all isOneLineValue) := rfl

theorem oneLineFrom_cons (before : List Node) (n : Node) (ns : List Node) :
    oneLineFrom before (n :: ns) =
      (!before.any hasBreak && oneLineFrom (leadPast before n) ns) := by
  rw [← Indent.lineBreak_measureBack]
  rfl

theorem oneLineFrom_map (hb : ∀ n ∈ before, Alike n (f n)) (hns : ∀ n ∈ ns, Alike n (f n)) :
    oneLineFrom (before.map f) (ns.map f) = oneLineFrom before ns := by
  induction ns generalizing before with
  | nil => rfl
  | cons n ns ih =>
    have hn := hns n List.mem_cons_self
    have hany : (before.map f).any hasBreak = before.any hasBreak := by
      rw [← Indent.lineBreak_measureBack, measureBack_map hb, Indent.lineBreak_measureBack]
    rw [List.map_cons, oneLineFrom_cons, oneLineFrom_cons, leadPast_map hn, hany,
      ih (alike_leadPast hn hb) fun m hm => hns m (List.mem_cons_of_mem _ hm)]

end VendorBlock

namespace VendorAlign

open Node VendorBlock

variable {os os' : List Occurrence} {o : Occurrence} {d k : Dialect}

/-! ## What padding does to a block -/

section

variable {before before' ns : List Node}

theorem mem_padFrom {e : Node} (h : e ∈ padFrom os d before ns) :
    e ∈ ns ∨ ∃ l t, e = .leaf l t ∧ l.kind = .space := by
  induction ns generalizing before with
  | nil => cases h
  | cons n ns ih =>
    cases ns with
    | nil => exact .inl h
    | cons m ns =>
      rw [padFrom_cons_cons] at h
      rcases List.mem_append.1 h with h | h
      · cases ho : propertyOccurrence? (leadPast before n) m with
        | none =>
          rw [ho] at h
          rw [List.mem_singleton.1 h]
          exact .inl List.mem_cons_self
        | some o =>
          rw [ho] at h
          rcases mem_padSibling h with rfl | h
          · exact .inl List.mem_cons_self
          · exact .inr h
      · exact (ih h).imp_left (List.mem_cons_of_mem _)

theorem mem_padFrom_of_mem {n : Node} (h : n ∈ ns) (hn : n.kind ≠ .space) :
    n ∈ padFrom os d before ns := by
  induction ns generalizing before with
  | nil => cases h
  | cons m ns ih =>
    cases ns with
    | nil => exact h
    | cons m' ns =>
      rw [padFrom_cons_cons]
      rcases List.mem_cons.1 h with rfl | h
      · apply List.mem_append_left
        cases propertyOccurrence? (leadPast before n) m' with
        | none => exact List.mem_singleton_self n
        | some o => exact mem_padSibling_self hn
      · exact List.mem_append_right _ (ih h)

/-- Padding around a node puts in no break and takes none out. -/
theorem any_hasBreak_emit (hb : before'.any hasBreak = before.any hasBreak) (n : Node)
    (p : Option Occurrence) :
    ((emit os d p n).foldl leadPast before').any hasBreak = (leadPast before n).any hasBreak := by
  have hlead : (leadPast before' n).any hasBreak = (leadPast before n).any hasBreak := by
    rw [leadPast, leadPast]
    split
    · rfl
    · rw [List.any_cons, List.any_cons, hb]
  cases p with
  | none => exact hlead
  | some o =>
    have hgap : ∀ b, (gapNodes os o d ++ b).any hasBreak = b.any hasBreak := by
      intro b
      rw [List.any_append, any_hasBreak_gapNodes, Bool.false_or]
    rw [emit, padSibling_eq]
    split
    · rename_i hk
      have hk := is_eq_true.1 hk
      rw [List.foldl_cons, List.foldl_nil, ← hlead,
        leadPast_of_kind_ne (by rw [kind_resize, hk]; decide),
        leadPast_of_kind_ne (by rw [hk]; decide), List.any_cons, List.any_cons, hasBreak_resize]
    split
    · rename_i hk
      have hk := is_eq_true.1 hk
      rw [List.foldl_append, foldl_leadPast_gapNodes, List.foldl_cons, List.foldl_nil, ← hlead,
        leadPast_of_kind_ne (by rw [hk]; decide), leadPast_of_kind_ne (by rw [hk]; decide),
        List.any_cons, List.any_cons, hgap]
    · rw [List.foldl_cons, foldl_leadPast_gapNodes, hgap, hlead]

theorem oneLineFrom_append {ms : List Node} (h : oneLineFrom before (ms ++ ns) = true) :
    oneLineFrom before ms = true ∧ oneLineFrom (ms.foldl leadPast before) ns = true := by
  induction ms generalizing before with
  | nil => exact ⟨rfl, h⟩
  | cons m ms ih =>
    rw [List.cons_append, oneLineFrom_cons, Bool.and_eq_true] at h
    obtain ⟨hms, hns⟩ := ih h.2
    refine ⟨?_, hns⟩
    rw [oneLineFrom_cons, h.1, hms]
    rfl

/-- Siblings on one line after padding were on one line before it. -/
theorem oneLineFrom_of_padFrom (hb : before'.any hasBreak = before.any hasBreak)
    (h : oneLineFrom before' (padFrom os d before ns) = true) : oneLineFrom before ns = true := by
  induction ns generalizing before before' with
  | nil => rfl
  | cons n ns ih =>
    obtain ⟨f, fs, hfs, -⟩ := exists_padFrom_cons os d before n ns
    have hfirst := h
    rw [hfs, oneLineFrom_cons, Bool.and_eq_true, hb] at hfirst
    rw [oneLineFrom_cons, hfirst.1, Bool.true_and]
    cases ns with
    | nil => rfl
    | cons m ns =>
      rw [padFrom_cons_cons] at h
      exact ih (any_hasBreak_emit hb n _) (oneLineFrom_append h).2

end

/-! ## Blocks -/

/-- The children of a block, aligned. -/
def alignChildren (d k : Dialect) (cs : List Node) : List Node :=
  if isOneLine cs && d != .sass then cs
  else
    let padded := padValues (occurrences cs) cs
    if d = .sass then padded
    else padProperties (occurrences cs) k (padded.zip (properties cs))

theorem alignBlock_branch (l : Label) (cs : List Node) :
    alignBlock d (.branch l cs) = .branch l (alignChildren d l.dialect cs) := by
  unfold alignBlock alignChildren
  dsimp only [Node.children]
  split
  · rfl
  · split <;> rfl

/-- **Whether a property of the block is held back**: it is short of its target, and right before it
stands a comment with a break. Such a block is padded again each time it is aligned. -/
def isHeld (d : Dialect) (cs : List Node) : Bool :=
  d != .sass && !isOneLine cs && hasStuck (occurrences cs) (cs.zip (properties cs))

section

variable {cs : List Node}

theorem inReach_of_mem {n : Node} (hn : n ∈ cs) : InReach (occurrences cs) n := by
  intro o ho
  refine total_le_reach (List.mem_append_right _ ?_)
  rw [filterMap_values]
  exact List.mem_filterMap.2 ⟨n, hn, ho⟩

theorem alike_padOwn {n : Node} (hn : n.Formed) (hr : InReach os n) : Alike n (padOwn os n) := by
  by_cases hk : n.kind = .declaration
  · have hp := padded_padOwn hn hr
    have hk' : (padOwn os n).kind = .declaration := by rw [Node.kind, hp.label_eq]; exact hk
    obtain ⟨l, ds, hl⟩ := hn.fits.eq_branch (by rw [hk]; rfl)
    obtain ⟨l', ds', hl'⟩ := hp.formed.fits.eq_branch (by rw [hk']; rfl)
    refine ⟨fun m t => ?_, by rw [hk, hk'], hp.property_eq⟩
    rw [hl', hl]
    exact ⟨fun h => (by cases h), fun h => (by cases h)⟩
  · rw [padOwn_of_kind_ne hk]
    exact .refl n

theorem alike_padValues (hcs : ∀ n ∈ cs, n.Formed) :
    ∀ n ∈ cs, Alike n (padOwn (occurrences cs) n) :=
  fun n hn => alike_padOwn (hcs n hn) (inReach_of_mem hn)

theorem properties_padValues (hcs : ∀ n ∈ cs, n.Formed) :
    properties (padValues (occurrences cs) cs) = properties cs :=
  properties_map (alike_padValues hcs)

/-- A block on several lines, in a dialect with braces. -/
theorem alignChildren_of_braces (hcs : ∀ n ∈ cs, n.Formed) (hd : d ≠ .sass)
    (hl : isOneLine cs = false) :
    alignChildren d k cs = padFrom (occurrences cs) k [] (padValues (occurrences cs) cs) := by
  rw [alignChildren, hl, Bool.false_and, if_neg (by decide), if_neg hd, padFrom, ← properties_eq,
    properties_padValues hcs]

theorem alignChildren_of_oneLine (hd : d ≠ .sass) (hl : isOneLine cs = true) :
    alignChildren d k cs = cs := by
  have hne : (d != Dialect.sass) = true := bne_iff_ne.2 hd
  rw [alignChildren, hl, hne, if_pos (by decide)]

theorem alignChildren_of_sass (cs : List Node) :
    alignChildren .sass k cs = padValues (occurrences cs) cs := by
  rw [alignChildren, if_neg (by simp), if_pos rfl]

theorem separated_map {f : Node → Node} (hf : ∀ n ∈ cs, Alike n (f n)) (seen : Bool) :
    Separated seen (cs.map f) ↔ Separated seen cs := by
  induction cs generalizing seen with
  | nil => exact Iff.rfl
  | cons n cs ih =>
    have htail := ih fun m hm => hf m (List.mem_cons_of_mem _ hm)
    rw [List.map_cons]
    unfold Separated
    rw [(hf n List.mem_cons_self).kind_eq]
    split
    · exact htail false
    · exact and_congr_right fun _ => htail true
    · exact htail seen

/-- The walk along a block whose values are padded. -/
theorem walk_padValues (hcs : ∀ n ∈ cs, n.Formed) (hs : Separated false cs) {n : Node}
    {ns : List Node} (hv : padValues (occurrences cs) cs = n :: ns) :
    Walk (occurrences cs) false [] [] n ns := by
  refine Walk.start ?_ ?_ ?_
  · rw [← hv]
    exact (separated_map (alike_padValues hcs) false).2 hs
  · rw [← hv]
    intro m hm
    obtain ⟨c, hc, rfl⟩ := List.mem_map.1 hm
    exact (padded_padOwn (hcs c hc) (inReach_of_mem hc)).formed.fits
  · rw [← hv, ← properties_eq, properties_padValues hcs]
    intro o ho
    exact total_le_reach (List.mem_append_left _ ho)

/-- Alignment moves no name beyond its target. -/
theorem allRaised_alignChildren (hcs : ∀ n ∈ cs, n.Formed)
    (hs : d.usesBraces = true → Separated false cs) :
    AllRaised (occurrences cs) (occurrences cs) (occurrences (alignChildren d k cs)) := by
  have hvalues := allRaised_padValues hcs fun n hn => inReach_of_mem hn
  rw [← filterMap_values, ← filterMap_values] at hvalues
  by_cases hd : d = .sass
  · rw [hd, alignChildren_of_sass]
    have hproperties : AllRaised (occurrences cs) ((properties cs).filterMap id)
        ((properties (padValues (occurrences cs) cs)).filterMap id) := by
      rw [properties_padValues hcs]
      exact .refl fun o ho => List.mem_append_left _ ho
    exact hproperties.append hvalues
  cases hl : isOneLine cs with
  | true =>
    rw [alignChildren_of_oneLine hd hl]
    exact .refl fun o ho => ho
  | false =>
    rw [alignChildren_of_braces hcs hd hl]
    have hbraces := Dialect.usesBraces_of_ne hd
    have hmem : ∀ o, o ∈ (values (padFrom (occurrences cs) k []
          (padValues (occurrences cs) cs))).filterMap id ↔
        o ∈ (values (padValues (occurrences cs) cs)).filterMap id := by
      intro o
      rw [filterMap_values, filterMap_values, List.mem_filterMap, List.mem_filterMap]
      constructor
      · rintro ⟨n, hn, ho⟩
        rcases mem_padFrom hn with hn | ⟨l, t, rfl, hl⟩
        · exact ⟨n, hn, ho⟩
        · rw [valueOccurrence?_of_kind_ne (by rw [Node.kind, Node.label, hl]; decide)] at ho
          cases ho
      · rintro ⟨n, hn, ho⟩
        refine ⟨n, mem_padFrom_of_mem hn ?_, ho⟩
        intro hk
        rw [valueOccurrence?_of_kind_ne (by rw [hk]; decide)] at ho
        cases ho
    have hproperties : AllRaised (occurrences cs) ((properties cs).filterMap id)
        ((properties (padFrom (occurrences cs) k []
          (padValues (occurrences cs) cs))).filterMap id) := by
      rw [← properties_padValues hcs, properties_eq, properties_eq]
      cases hv : padValues (occurrences cs) cs with
      | nil => exact .refl fun o ho => by cases ho
      | cons n ns => exact allRaised_padFrom (walk_padValues hcs (hs hbraces) hv)
    exact hproperties.append (hvalues.of_mem_iff hmem)

theorem reach_alignChildren (hcs : ∀ n ∈ cs, n.Formed)
    (hs : d.usesBraces = true → Separated false cs) (id : List Char) :
    reach (occurrences (alignChildren d k cs)) id = reach (occurrences cs) id :=
  reach_eq_of_raised (allRaised_alignChildren hcs hs) id

theorem isOneLineValue_padOwn {n : Node} (hn : n.Formed) (hr : InReach os n) :
    isOneLineValue (padOwn os n) = isOneLineValue n := by
  have hp := padded_padOwn hn hr
  rw [isOneLineValue, isOneLineValue, is, is, Node.kind, Node.kind, hp.label_eq, hp.lineBreak_eq]

/-- A block on several lines stays on several lines. -/
theorem isOneLine_alignChildren (hcs : ∀ n ∈ cs, n.Formed) (hd : d ≠ .sass)
    (hl : isOneLine cs = false) : isOneLine (alignChildren d k cs) = false := by
  rw [alignChildren_of_braces hcs hd hl]
  cases hy : isOneLine (padFrom (occurrences cs) k [] (padValues (occurrences cs) cs)) with
  | false => rfl
  | true =>
    rw [isOneLine_eq, Bool.and_eq_true] at hy
    have hlines := oneLineFrom_of_padFrom rfl hy.1
    have hnil : ∀ n ∈ ([] : List Node), Alike n (padOwn (occurrences cs) n) :=
      fun _ hn => nomatch hn
    have hfrom := oneLineFrom_map hnil (alike_padValues hcs)
    have hvalues : cs.all isOneLineValue = true := by
      rw [List.all_eq_true] at hy ⊢
      intro n hn
      rw [← isOneLineValue_padOwn (hcs n hn) (inReach_of_mem hn)]
      by_cases hk : (padOwn (occurrences cs) n).kind = .space
      · rw [isOneLineValue, is_eq_false.2 (by rw [hk]; decide)]
        rfl
      · exact hy.2 _ (mem_padFrom_of_mem (List.mem_map_of_mem hn) hk)
    rw [List.map_nil, ← padValues_eq_map, hlines] at hfrom
    rw [isOneLine_eq, ← hfrom, hvalues] at hl
    cases hl

/-! ## Aligning again -/

theorem hides_eq {n n' : Node} (h : Alike n n') : hides n' = hides n := by
  rw [hides, hides, is, is, h.kind_eq, h.hasBreak_eq]

/-- Each property but the first with what it sees of the node before it. -/
def followers (ps : List (Node × Option Occurrence)) : List (Bool × Option Occurrence) :=
  (ps.zip ps.tail).map fun (before, behind) => (hides before.1, behind.2)

theorem hasStuck_eq (os : List Occurrence) (ps : List (Node × Option Occurrence)) :
    hasStuck os ps = (followers ps).any fun (hidden, p) =>
      p.any fun o => hidden && (target? os o.id).any (o.total < ·) := by
  fun_induction hasStuck os ps with
  | case1 => rfl
  | case2 => rfl
  | case3 n q m p rest ih =>
    rw [ih]
    cases p <;> rfl

/-- **Nodes that are measured alike look the same to the properties behind them.** -/
theorem followers_map {f : Node → Node} (ps : List (Option Occurrence))
    (hf : ∀ n ∈ cs, Alike n (f n)) : followers ((cs.map f).zip ps) = followers (cs.zip ps) := by
  rw [List.zip_map_left, followers, followers, ← List.map_tail, List.zip_map, List.map_map]
  apply List.map_congr_left
  rintro ⟨before, behind⟩ hmem
  have hbefore : before.1 ∈ cs := (List.of_mem_zip (List.of_mem_zip hmem).1).1
  simp only [Function.comp_apply, Prod.map, hides_eq (hf _ hbefore), id]

theorem hasStuck_map {f : Node → Node} (ps : List (Option Occurrence))
    (hf : ∀ n ∈ cs, Alike n (f n)) : hasStuck os ((cs.map f).zip ps) = hasStuck os (cs.zip ps) := by
  rw [hasStuck_eq, hasStuck_eq, followers_map ps hf]

theorem stuckFrom_padValues (hcs : ∀ n ∈ cs, n.Formed) :
    stuckFrom (occurrences cs) [] (padValues (occurrences cs) cs) =
      hasStuck (occurrences cs) (cs.zip (properties cs)) := by
  rw [stuckFrom, ← properties_eq, properties_padValues hcs]
  exact hasStuck_map _ (alike_padValues hcs)

/-- Values at their targets need no padding any more. -/
theorem padValues_alignChildren (hcs : ∀ n ∈ cs, n.Formed)
    (hreach : ∀ id, reach os' id = reach (occurrences cs) id) :
    padValues os' (padFrom (occurrences cs) k [] (padValues (occurrences cs) cs)) =
      padFrom (occurrences cs) k [] (padValues (occurrences cs) cs) := by
  rw [padValues_eq_map]
  refine (List.map_congr_left fun n hn => ?_).trans (List.map_id _)
  rcases mem_padFrom hn with hn | ⟨l, t, rfl, hl⟩
  · obtain ⟨c, hc, rfl⟩ := List.mem_map.1 hn
    exact (padded_padOwn (hcs c hc) (inReach_of_mem hc)).settled os' hreach
  · exact padOwn_of_kind_ne (by rw [Node.kind, Node.label, hl]; decide)

/-- **A block that holds no property back is aligned once and for all.** -/
theorem alignChildren_alignChildren (hcs : ∀ n ∈ cs, n.Formed)
    (hs : d.usesBraces = true → Separated false cs) (hheld : isHeld d cs = false) :
    alignChildren d k (alignChildren d k cs) = alignChildren d k cs := by
  have hreach := reach_alignChildren (k := k) hcs hs
  by_cases hd : d = .sass
  · rw [hd, alignChildren_of_sass] at hreach ⊢
    rw [alignChildren_of_sass]
    exact padValues_eq_self hcs (fun n hn => inReach_of_mem hn) hreach
  cases hl : isOneLine cs with
  | true => rw [alignChildren_of_oneLine hd hl, alignChildren_of_oneLine hd hl]
  | false =>
    have hl' := isOneLine_alignChildren (k := k) hcs hd hl
    have hne : (d != Dialect.sass) = true := bne_iff_ne.2 hd
    have hbraces := Dialect.usesBraces_of_ne hd
    have hstuck : stuckFrom (occurrences cs) [] (padValues (occurrences cs) cs) = false := by
      rw [isHeld, hne, hl, Bool.not_false, Bool.true_and, Bool.true_and] at hheld
      rw [stuckFrom_padValues hcs, hheld]
    have htwice : alignChildren d k (alignChildren d k cs) =
        padProperties (occurrences (alignChildren d k cs)) k
          ((padValues (occurrences (alignChildren d k cs)) (alignChildren d k cs)).zip
            (properties (alignChildren d k cs))) := by
      conv => lhs; rw [alignChildren, hl', Bool.false_and, if_neg (by decide), if_neg hd]
    rw [htwice]
    rw [alignChildren_of_braces hcs hd hl] at hreach ⊢
    rw [padValues_alignChildren hcs hreach]
    show padFrom _ k [] _ = _
    cases hv : padValues (occurrences cs) cs with
    | nil => rfl
    | cons n ns =>
      rw [hv] at hreach hstuck
      exact padFrom_padFrom hreach (walk_padValues hcs (hs hbraces) hv) hstuck

/-- A property that is held back is held back after alignment as well. -/
theorem isHeld_alignChildren (hcs : ∀ n ∈ cs, n.Formed)
    (hs : d.usesBraces = true → Separated false cs) (hheld : isHeld d cs = true) :
    isHeld d (alignChildren d k cs) = true := by
  have hreach := reach_alignChildren (k := k) hcs hs
  rw [isHeld, Bool.and_eq_true, Bool.and_eq_true, Bool.not_eq_true'] at hheld
  obtain ⟨⟨hne, hl⟩, hstuck⟩ := hheld
  have hd : d ≠ .sass := bne_iff_ne.1 hne
  have hbraces := Dialect.usesBraces_of_ne hd
  rw [← stuckFrom_padValues hcs] at hstuck
  rw [isHeld, hne, isOneLine_alignChildren hcs hd hl, Bool.not_false, Bool.true_and, Bool.true_and]
  rw [alignChildren_of_braces hcs hd hl] at hreach ⊢
  cases hv : padValues (occurrences cs) cs with
  | nil =>
    rw [hv] at hstuck
    cases hstuck
  | cons n ns =>
    rw [hv] at hreach hstuck
    exact stuckFrom_padFrom hreach (walk_padValues hcs (hs hbraces) hv) hstuck

end

end VendorAlign

end TidySheet
