import TidySheet.Proofs.Realignment
import TidySheet.Proofs.Refilling

/-!
# Vendor alignment keeps what a sheet says

Alignment puts blanks behind colons and, between braces, before the declarations of a block. Such
blanks are of no matter to what a sheet says, whatever stands next to them.

* `VendorAlign.refills_padOwn` — a padded declaration stands in for the declaration;
* `VendorAlign.exists_filled` — the siblings of a block, with their properties padded;
* `VendorAlign.exists_parse_reshape` — an aligned sheet is read back, but for whitespace.
-/

set_option autoImplicit false

namespace TidySheet

open Node

variable {d : Dialect} {gone : Position → Prop}

namespace VendorAlign

open VendorBlock

variable {os : List Occurrence} {o : Occurrence}

/-! ## Padded whitespace -/

/-- The name is moved to the right, if at all. -/
def Fits (os : List Occurrence) (o : Occurrence) : Prop :=
  ∀ target, target? os o.id = some target → o.total ≤ target

theorem fits_of_le (h : o.total ≤ reach os o.id) : Fits os o := by
  intro target ht
  rw [(target?_eq_some ht).1]
  exact h

theorem fits_nil (o : Occurrence) : Fits [] o := by
  intro target ht
  cases ht

/-- Whitespace stays whitespace. -/
theorem isBlankIn_padded {t : List Char} (hf : Fits os o) (hne : t ≠ [])
    (hb : ∀ x ∈ t, isBlankIn d x = true) :
    (padded? os o t).getD t ≠ [] ∧ ∀ x ∈ (padded? os o t).getD t, isBlankIn d x = true := by
  unfold padded?
  cases ht : target? os o.id with
  | none => exact ⟨hne, hb⟩
  | some target =>
    have hle := hf target ht
    have happend := splitFinalLine_append t
    have hlength := congrArg List.length happend
    have hpos := List.length_pos_iff.2 hne
    rw [List.length_append] at hlength
    rw [Option.map_some, Option.getD_some]
    refine ⟨fun hnil => ?_, fun x hx => ?_⟩
    · have hzero := congrArg List.length hnil
      rw [List.length_append, List.length_replicate, List.length_nil] at hzero
      omega
    · rcases List.mem_append.1 hx with hx | hx
      · exact hb x (by rw [← happend]; simp [hx])
      · exact isBlankIn_replicate _ x hx

theorem isBlankIn_gapNodes (k : Dialect) :
    ∀ x ∈ charsOf (gapNodes os o k), isBlankIn d x = true := by
  intro x hx
  by_cases hlt : o.total < reach os o.id
  · rw [gapNodes_of_lt hlt] at hx
    have hx : x ∈ List.replicate (reach os o.id - o.total) ' ' := by
      simpa [ofSpace, ofText, Node.chars, leafMarks] using hx
    exact isBlankIn_replicate _ x hx
  · rw [gapNodes_of_le (by omega)] at hx
    simp at hx

/-! Without occurrences nothing is padded. -/

theorem gapNodes_nil (o : Occurrence) (k : Dialect) : gapNodes [] o k = [] := rfl

theorem resize_nil (o : Occurrence) (n : Node) : resize [] o n = n := by
  cases n <;> rfl

theorem padOwn_nil (n : Node) : padOwn [] n = n := by
  unfold padOwn
  split
  · rename_i o _
    have hlead : ∀ k ns, padLead [] o k ns = ns := by
      intro k ns
      rcases List.eq_nil_or_concat ns with rfl | ⟨ms, m, rfl⟩
      · rfl
      · rw [List.concat_eq_append, padLead_concat, resize_nil, gapNodes_nil]
        split <;> rfl
    unfold padValue
    split
    · rfl
    · rename_i before value behind hcut
      rw [hlead, ← eq_of_cutLast? hcut]
      cases n <;> rfl
  · rfl

theorem padFrom_nil (k : Dialect) (before ns : List Node) : padFrom [] k before ns = ns := by
  induction ns generalizing before with
  | nil => rfl
  | cons n ns ih =>
    cases ns with
    | nil => rfl
    | cons m ns =>
      rw [padFrom_cons_cons, ih]
      cases propertyOccurrence? (leadPast before n) m with
      | none => rfl
      | some o =>
        rw [emit, padSibling_eq, resize_nil, gapNodes_nil]
        split
        · rfl
        · split <;> rfl

/-! ## Values -/

/-- A value with a name has text. -/
theorem chars_ne_nil_of_valueOccurrence? {l : Label} {cs gap lead : List Node}
    {property colon value : Node} (hv : AllOf (Paddable d) value.children)
    (h : DeclarationForm cs property gap colon lead value)
    (ho : valueOccurrence? (.branch l cs) = some o) : value.chars ≠ [] := by
  obtain ⟨name, hname, -⟩ := Option.map_eq_some_iff.1 ho
  rw [valueName?, h.first?_value, Option.bind_some] at hname
  split at hname
  · obtain ⟨first, hfirst, hname⟩ := Option.bind_eq_some_iff.1 hname
    have hmem : first ∈ value.children := List.mem_of_mem_head? hfirst
    refine chars_ne_nil_of_mem hmem (((allOf_iff _).1 hv first hmem).self.name ?_)
    split at hname
    · exact .inl (by assumption)
    · exact .inr (by assumption)
    · cases hname
  · cases hname

theorem put_gapNodes {s : Slack} (hs : s ≠ .stuck) : Put d s (gapNodes os o d) := by
  by_cases hlt : o.total < reach os o.id
  · rw [gapNodes_of_lt hlt]
    exact .blanks hs (by simp; omega) (isBlankIn_replicate _)
  · rw [gapNodes_of_le (by omega)]
    exact .none s

/-- Padding does not take a break from the front of whitespace. -/
theorem head?_padded {t : List Char} (h : t.head? = some '\n') :
    ((padded? os o t).getD t).head? = some '\n' := by
  unfold padded?
  cases target? os o.id with
  | none => exact h
  | some target =>
    have hne : (splitFinalLine t).1 ≠ [] := by
      obtain ⟨cs, rfl⟩ := List.head?_eq_some_iff.1 h
      rw [← List.isEmpty_eq_false_iff, isEmpty_splitFinalLine]
      rfl
    rw [← splitFinalLine_append t, List.head?_append_of_ne_nil _ hne] at h
    rw [Option.map_some, Option.getD_some, List.head?_append_of_ne_nil _ hne]
    exact h

/-- **What stands between a colon and its value**, padded for the value. -/
theorem regapped_padLead {s : Slack} {value : Node} {lead : List Node} (hs : s ≠ .stuck)
    (hlead : ∀ n ∈ lead, n.isTrivia = true) (happart : Apart lead) (hp : ∀ n ∈ lead, Paddable d n)
    (hvalue : value.kind = .value) (hne : value.chars ≠ []) (hf : Fits os o) :
    Regapped d gone s (lead ++ [value]) (padLead os o d lead ++ [value]) (.beyond d value) := by
  have hput : ∀ {s : Slack}, s ≠ .stuck →
      Regapped d gone s [value] (gapNodes os o d ++ [value]) (.beyond d value) := fun hs =>
    .keep value (put_gapNodes hs) (fun _ => by simp [hvalue, hne]) (.nil _)
  rcases List.eq_nil_or_concat lead with rfl | ⟨ms, m, rfl⟩
  · exact hput hs
  rw [List.concat_eq_append] at hlead happart hp ⊢
  rw [padLead_concat]
  by_cases hm : m.kind = .space
  · obtain ⟨s', hms, hs'⟩ : ∃ s', Regapped d gone s ms ms s' ∧ s' ≠ .stuck :=
      Regapped.exists_trivia hs (fun n hn => hlead n (by simp [hn])) (happart.getLast?_ne hm)
    obtain ⟨l, t, rfl, hl, ht, hb⟩ := (hp m (by simp)).exists_space hm
    obtain ⟨hne', hb'⟩ := isBlankIn_padded hf ht hb
    have hall := hms.append (.resize hs' hl hne' hb' head?_padded (.kept _ [] value))
    rw [is_eq_true.2 hm, if_pos rfl]
    simpa [VendorAlign.resize] using hall
  · obtain ⟨s', hms, hs'⟩ : ∃ s', Regapped d gone s (ms ++ [m]) (ms ++ [m]) s' ∧ s' ≠ .stuck :=
      Regapped.exists_trivia hs hlead (by simpa using hm)
    have hall := hms.append (hput hs')
    rw [is_eq_false.2 hm, if_neg (by decide)]
    simpa using hall

/-- **A padded declaration stands in for the declaration.** -/
theorem refills_padOwn {n : Node} (hn : n.All (Paddable d)) (hk : n.kind = .declaration)
    (hf : ∀ o, valueOccurrence? n = some o → Fits os o) : Refills d gone n (padOwn os n) := by
  unfold padOwn
  split
  · rename_i o ho
    obtain ⟨l, cs, rfl⟩ := hn.self.formed.fits.eq_branch (by rw [hk]; rfl)
    obtain ⟨property, gap, colon, lead, value, hform, -⟩ := hn.self.formed.declaration hk
    rw [children] at hform
    have hcs := hform.children
    have hdialect : l.dialect = d := hn.self.wellFormed.dialect
    have hchildren : ∀ c ∈ cs, c.All (Paddable d) := (allOf_iff cs).1 hn.children
    have happart : Apart lead := by
      have hall : Apart cs := hn.self.wellFormed.apart
      rw [hcs, ← List.cons_append] at hall
      exact hall.right_of_append.tail.left_of_append
    have hvalue := chars_ne_nil_of_valueOccurrence?
      (hchildren value (by rw [hcs]; simp)).children hform ho
    rw [padValue_of_form hform, hdialect, hcs]
    have hcolon : Slack.beyond d colon ≠ .stuck := by simp [Slack.beyond, hform.colon_kind]
    have hlead : Regapped d gone (.beyond d colon) (lead ++ [value])
        (padLead os o d lead ++ [value]) (.beyond d value) := by
      refine regapped_padLead hcolon hform.lead_trivia happart (fun n hm => (hchildren n ?_).self)
        hform.value_kind hvalue (hf o ho)
      rw [hcs]
      simp [hm]
    have hall := (Regapped.kept (if property.children = [] then .stuck else .free) gap colon).append
      hlead
    exact .declaration hk (by simpa using hall)
  · exact .refl n

/-! ## Siblings -/

/-- A node of a block with the blocks below it aligned and its value padded. -/
def alignOwn (d : Dialect) (os : List Occurrence) (n : Node) : Node :=
  padOwn os (n.mapBlock (alignBlock d))

/-- The names of siblings, as far as they are padded, are moved to the right. -/
def PropertiesFit (os : List Occurrence) (before ns : List Node) : Prop :=
  ∀ o ∈ (propertiesFrom before ns).filterMap id, Fits os o

theorem PropertiesFit.tail {before ns : List Node} {n : Node}
    (h : PropertiesFit os before (n :: ns)) :
    PropertiesFit os (leadPast before n) ns := by
  intro o ho
  apply h
  rw [filterMap_propertiesFrom_cons]
  exact List.mem_append_right _ ho

/-- **An aligned block is padded for names that are moved to the right**, for none if it is on one
line. -/
theorem exists_alignChildren {k : Dialect} {cs : List Node} (hcs : ∀ n ∈ cs, n.Formed)
    (hd : d ≠ .sass) :
    ∃ os, alignChildren d k cs = padFrom os k [] (cs.map (padOwn os)) ∧
      (∀ n ∈ cs, ∀ o, valueOccurrence? n = some o → Fits os o) ∧
        PropertiesFit os [] (cs.map (padOwn os)) := by
  cases hl : isOneLine cs with
  | true =>
    refine ⟨[], ?_, fun n _ o _ => fits_nil o, fun o _ => fits_nil o⟩
    rw [alignChildren_of_oneLine hd hl, padFrom_nil]
    exact ((List.map_congr_left fun n _ => padOwn_nil n).trans (List.map_id _)).symm
  | false =>
    refine ⟨occurrences cs, alignChildren_of_braces hcs hd hl,
      fun n hn o ho => fits_of_le (inReach_of_mem hn o ho), fun o ho => fits_of_le ?_⟩
    rw [← padValues_eq_map, ← properties_eq, properties_padValues hcs] at ho
    exact total_le_reach (List.mem_append_left _ ho)

theorem kind_padOwn (n : Node) : (padOwn os n).kind = n.kind := by
  unfold padOwn padValue
  split
  · split
    · rfl
    · cases n <;> rfl
  · rfl

theorem kind_alignOwn (os : List Occurrence) {n : Node} (hn : n.Formed) :
    (alignOwn d os n).kind = n.kind := by
  rw [alignOwn, kind_padOwn, (alike_mapBlock hn).kind_eq]

theorem alignOwn_of_leaf {l : Label} {t : List Char} (hl : l.kind.isLeaf = true) :
    alignOwn d os (.leaf l t) = .leaf l t := by
  rw [alignOwn, mapBlock_leaf hl]
  refine padOwn_of_kind_ne fun hk => ?_
  rw [show l.kind = .declaration from hk] at hl
  cases hl

/-- What stands in for a node of an aligned block. -/
theorem exists_refills {n m : Node} (hn : n.All (Paddable d)) (h : Reblocked d gone n m)
    (hm : m.chars = (n.mapBlock (alignBlock d)).chars)
    (hf : ∀ o, valueOccurrence? (n.mapBlock (alignBlock d)) = some o → Fits os o) :
    ∃ m', Refills d gone n m' ∧ m'.chars = (alignOwn d os n).chars := by
  by_cases hk : n.kind = .declaration
  · have hself : n.mapBlock (alignBlock d) = n := mapBlock_declaration hn.self.formed hk
    rw [hself] at hf
    exact ⟨padOwn os n, refills_padOwn hn hk hf, by rw [alignOwn, hself]⟩
  · refine ⟨m, .of_reblocked h, ?_⟩
    rw [hm, alignOwn, padOwn_of_kind_ne (by rwa [(alike_mapBlock hn.self.formed).kind_eq])]

/-- The siblings are padded one by one, each for the declaration right behind it. -/
theorem exists_emit {before ns : List Node} {n : Node} (hns : ∀ k ∈ ns, k.Formed)
    (hp : PropertiesFit os before (n :: ns.map (alignOwn d os))) :
    ∃ p, (∀ o ∈ p, Fits os o ∧ Takes ns) ∧ padFrom os d before (n :: ns.map (alignOwn d os)) =
      emit os d p n ++ padFrom os d (leadPast before n) (ns.map (alignOwn d os)) := by
  cases ns with
  | nil => exact ⟨none, by simp, rfl⟩
  | cons k ns =>
    have hk := hns k (by simp)
    refine ⟨_, fun o ho => ⟨hp.tail o ?_, ?_⟩, padFrom_cons_cons before n _ _⟩
    · rw [List.map_cons, filterMap_propertiesFrom_cons, Option.mem_def.1 ho]
      simp
    · exact takes_of_declaration hk (by
        rw [← kind_alignOwn (d := d) os hk]
        exact kind_of_propertyOccurrence? ho)

/-- A space, padded for the declaration behind it. -/
theorem exists_emit_space (os : List Occurrence) {l : Label} {t : List Char}
    {p : Option Occurrence} (hl : l.kind = .space) (hne : t ≠ [])
    (hb : ∀ x ∈ t, isBlankIn d x = true) (hp : ∀ o ∈ p, Fits os o) :
    ∃ t', charsOf (emit os d p (.leaf l t)) = t' ∧ t' ≠ [] ∧ (∀ x ∈ t', isBlankIn d x = true) ∧
      (t.head? = some '\n' → t'.head? = some '\n') := by
  have hspace : (Node.leaf l t).is .space = true := is_eq_true.2 hl
  cases p with
  | none => exact ⟨t, by simp [emit, Node.chars, leafMarks, hl], hne, hb, id⟩
  | some o =>
    obtain ⟨hne', hb'⟩ := isBlankIn_padded (hp o rfl) hne hb
    refine ⟨_, ?_, hne', hb', head?_padded⟩
    rw [emit, padSibling_eq, hspace, if_pos rfl]
    simp [VendorAlign.resize, Node.chars, leafMarks, hl]

/-- Another node, padded for the declaration behind it: a comment has the blanks before it. -/
theorem exists_emit_blanks (os : List Occurrence) (p : Option Occurrence) {n : Node}
    (hs : n.kind ≠ .space) :
    ∃ before behind, charsOf (emit os d p n) = before ++ (n.chars ++ behind) ∧
      (∀ x ∈ before, isBlankIn d x = true) ∧ (before ≠ [] → n.kind = .multilineComment) ∧
      (∀ x ∈ behind, isBlankIn d x = true) ∧ (behind ≠ [] → p ≠ none) := by
  cases p with
  | none => exact ⟨[], [], by simp [emit]⟩
  | some o =>
    rw [emit, padSibling_eq, is_eq_false.2 hs, if_neg (by decide)]
    split
    · rename_i hc
      exact ⟨charsOf (gapNodes os o d), [], by simp, isBlankIn_gapNodes d,
        fun _ => is_eq_true.1 hc, by simp, fun h => absurd rfl h⟩
    · exact ⟨[], charsOf (gapNodes os o d), by simp, by simp, fun h => absurd rfl h,
        isBlankIn_gapNodes d, fun _ => Option.some_ne_none o⟩

/-- **The siblings of an aligned block.** -/
theorem exists_filled (hd : d ≠ .sass) {ns ms before : List Node}
    (h : List.Forall₂ (Reblocked d gone) ns ms)
    (hchars : List.Forall₂ (fun m n => m.chars = n.chars) ms (ns.map (mapBlock (alignBlock d))))
    (hn : AllOf (Paddable d) ns) (happart : Apart ns)
    (hv : ∀ n ∈ ns, ∀ o, valueOccurrence? (n.mapBlock (alignBlock d)) = some o → Fits os o)
    (hp : PropertiesFit os before (ns.map (alignOwn d os))) :
    ∃ loose g text, Filled d gone ns loose g text ∧
      g ++ text = charsOf (padFrom os d before (ns.map (alignOwn d os))) := by
  induction h generalizing before with
  | nil => exact ⟨false, [], [], .nil, rfl⟩
  | @cons n m ns ms hnm hrest ih =>
    rw [List.map_cons] at hchars hp ⊢
    rw [allOf_cons] at hn
    obtain ⟨hm, hms⟩ := List.forall₂_cons.1 hchars
    obtain ⟨loose, g, text, hfilled, htext⟩ := ih hms hn.2 happart.tail
      (fun k hk => hv k (by simp [hk])) hp.tail
    have hkind := kind_alignOwn (d := d) os hn.1.self.formed
    obtain ⟨p, hfits, heq⟩ := exists_emit (fun k hk => ((allOf_iff ns).1 hn.2 k hk).self.formed) hp
    rw [heq, charsOf_append, ← htext]
    by_cases hspace : n.kind = .space
    · obtain ⟨l, t, rfl, hl, hne, hb⟩ := hn.1.self.exists_space hspace
      obtain ⟨t', ht', hne', hb', hbreak⟩ :=
        exists_emit_space os hl hne hb fun o ho => (hfits o ho).1
      rw [hfilled.loose_eq_false (happart.kind_ne hspace)] at hfilled
      rw [alignOwn_of_leaf (by rw [hl]; rfl), ht']
      exact ⟨true, [], _, hfilled.resize hl hne' hb' hbreak, rfl⟩
    · obtain ⟨m', hm', hmchars⟩ := exists_refills hn.1 hnm hm (hv n (by simp))
      obtain ⟨xs, ys, hemit, hxs, hcomment, hys, hsome⟩ :=
        exists_emit_blanks (d := d) os p (n := alignOwn d os n) (by rwa [hkind])
      refine ⟨false, xs, _, hfilled.cons hm' hxs (fun hne => ?_) hys (fun hne => ?_)
        (fun _ => Slack.beyond_ne_stuck hd hspace), ?_⟩
      · have hk : n.kind = .multilineComment := hkind ▸ hcomment hne
        refine takes_cons hspace (by rw [hk]; exact Kind.noConfusion) ?_ ns
        obtain ⟨l, t, rfl⟩ := hn.1.self.formed.fits.eq_leaf (by rw [hk]; rfl)
        have hl : l.kind = .multilineComment := hk
        simp [Node.chars, leafMarks, hl]
      · obtain ⟨o, ho⟩ := Option.ne_none_iff_exists'.1 (hsome hne)
        exact (hfits o ho).2
      · rw [hemit, hmchars]
        simp

/-- **The siblings of an aligned block on lines**: there only values are padded. -/
theorem filled_of_sass {ns ms : List Node} (h : List.Forall₂ (Reblocked .sass gone) ns ms)
    (hchars : List.Forall₂ (fun m n => m.chars = n.chars) ms
      (ns.map (mapBlock (alignBlock .sass))))
    (hn : AllOf (Paddable .sass) ns)
    (hv : ∀ n ∈ ns, ∀ o, valueOccurrence? (n.mapBlock (alignBlock .sass)) = some o → Fits os o) :
    Filled .sass gone ns false [] (charsOf (ns.map (alignOwn .sass os))) := by
  induction h with
  | nil => exact .nil
  | @cons n m ns ms hnm hrest ih =>
    rw [List.map_cons] at hchars ⊢
    rw [allOf_cons] at hn
    obtain ⟨hm, hms⟩ := List.forall₂_cons.1 hchars
    have hfilled := ih hms hn.2 fun k hk => hv k (by simp [hk])
    rw [charsOf_cons]
    by_cases hspace : n.kind = .space
    · obtain ⟨l, t, rfl, hl, -⟩ := hn.1.self.exists_space hspace
      rw [alignOwn_of_leaf (by rw [hl]; rfl), Filled.chars_space hl]
      exact hfilled.keep hl
    · obtain ⟨m', hm', hmchars⟩ := exists_refills hn.1 hnm hm (hv n (by simp))
      rw [← hmchars]
      exact hfilled.cons hm' (by simp) (fun h => absurd rfl h) (by simp) (fun h => absurd rfl h)
        (by simp)

/-! ## Blocks -/

/-- **Alignment changes the whitespace in the gaps of each block.** -/
theorem walks (gone : Position → Prop) (rows : List Lines.Line) :
    Walks d gone rows (Paddable d) (fun m n => m.chars = n.chars) (alignBlock d) where
  refl _ := rfl
  congr h := by simp [Node.chars, h]
  block := by
    intro k cs ms hk hP _ hcs hms
    have hdialect : k.dialect = d := hP.self.wellFormed.dialect
    have hchildren := hP.children
    have hblock : ∀ {cs' cs'' : List Node}, charsOf cs' = charsOf cs'' →
        (Node.branch k cs').chars = (Node.branch k cs'').chars := by
      intro cs' cs'' h
      simp [Node.chars, h]
    have hown : ∀ os, (cs.map (mapBlock (alignBlock d))).map (padOwn os) =
        cs.map (alignOwn d os) := fun os => by
      rw [List.map_map]
      rfl
    rw [alignBlock_branch, hdialect]
    by_cases hd : d = .sass
    · subst hd
      have hfilled := filled_of_sass hcs hms hchildren fun n hn o ho =>
        fits_of_le (inReach_of_mem (List.mem_map_of_mem hn) o ho)
      obtain ⟨ms', s, hms', hr⟩ := hfilled.exists_regapped (s := .opening .sass) (by simp)
      refine ⟨ms', s, hr, hblock ?_⟩
      rw [hms', alignChildren_of_sass, padValues_eq_map, hown]
      rfl
    · have hformed : ∀ n ∈ cs.map (mapBlock (alignBlock d)), n.Formed := by
        intro n hn
        obtain ⟨c, hc, rfl⟩ := List.mem_map.1 hn
        exact formed_mapBlock ((allOf_iff cs).1 hchildren c hc).self.formed
      obtain ⟨os, heq, hv, hp⟩ := exists_alignChildren (d := d) (k := d) hformed hd
      rw [hown] at heq hp
      obtain ⟨loose, g, text, hfilled, htext⟩ := exists_filled hd hcs hms hchildren
        hP.self.wellFormed.apart (fun n hn => hv _ (List.mem_map_of_mem hn)) hp
      obtain ⟨ms', s, hms', hr⟩ := hfilled.exists_regapped (s := .opening d)
        fun _ => by simp [Slack.opening, hd]
      exact ⟨ms', s, hr, hblock (by rw [hms', htext, heq])⟩

/-! ## Sheets -/

theorem process_eq_reshape (tree : Node) : rule.process tree = .ok (reshape tree) := by
  have hsupports : rule.supports tree.dialect = true := by
    cases tree.dialect <;> rfl
  rw [Rule.process, if_pos hsupports]
  rfl

/-- **An aligned sheet is read back**, but for whitespace. -/
theorem exists_parse_reshape {source : List Char} {tree : Node}
    (h : parseChars d source = .ok tree) :
    ∃ again, parseChars d (reshape tree).chars = .ok again ∧
      again.solid.sameShape tree.solid = true := by
  obtain ⟨ts, ns, hp⟩ := parsed_of_parseChars h
  have hdialect : tree.dialect = d := by
    rw [hp.tree_eq]
    rfl
  rw [reshape, hdialect]
  exact hp.exists_parse_mapBlocks (walks _ _) hp.paddable

/-- **Vendor alignment keeps what a sheet says**: whatever the dialect, the aligned text can be
read, and without whitespace it is read into the tree that the sheet was read into. -/
theorem sameShape_solid_process (d : Dialect) (source : String) (tree : Node)
    (h : parse d source = .ok tree) :
    ∃ once again, rule.process tree = .ok once ∧ parse d once.render = .ok again ∧
      again.solid.sameShape tree.solid = true := by
  obtain ⟨again, hagain, hsame⟩ := exists_parse_reshape h
  refine ⟨reshape tree, again, process_eq_reshape tree, ?_, hsame⟩
  rw [parse, Node.render, String.toList_ofList]
  exact hagain

/-- A sheet with names behind whitespace, comments, delimiters and blocks. -/
def crowdedSheet : String :=
  "a \x7b\n  -webkit-b: c; // d\n  b:-moz-c;/*e*/b: c;f \x7b g: 1 \x7d-o-b : 1;\n\x7d"

/-- The like on lines. -/
def crowdedLines : String :=
  "a\n  -webkit-b: c // d\n  b: -moz-c\n  b:/*e*/ c\n  f\n    g:   -o-h\n    g:h"

theorem sameShape_solid_process_crowded :
    (∃ tree once again, parse .scss crowdedSheet = .ok tree ∧ rule.process tree = .ok once ∧
      once.render ≠ crowdedSheet ∧ parse .scss once.render = .ok again ∧
        again.solid.sameShape tree.solid = true) ∧
    ∃ tree once again, parse .sass crowdedLines = .ok tree ∧ rule.process tree = .ok once ∧
      once.render ≠ crowdedLines ∧ parse .sass once.render = .ok again ∧
        again.solid.sameShape tree.solid = true := by
  have hmoved : ∀ d source, (parse d source).toOption.map (fun tree =>
      (reshape tree).render != source) = some true →
        ∃ tree once again, parse d source = .ok tree ∧ rule.process tree = .ok once ∧
          once.render ≠ source ∧ parse d once.render = .ok again ∧
            again.solid.sameShape tree.solid = true := by
    intro d source hmoves
    cases h : parse d source with
    | error e => rw [h] at hmoves; cases hmoves
    | ok tree =>
      rw [h] at hmoves
      obtain ⟨once, again, honce, hagain, hsame⟩ := sameShape_solid_process d source tree h
      obtain rfl : reshape tree = once := Except.ok.inj ((process_eq_reshape tree).symm.trans honce)
      exact ⟨tree, _, again, rfl, honce, bne_iff_ne.1 (Option.some.inj hmoves), hagain, hsame⟩
  exact ⟨hmoved _ _ (by decide +kernel), hmoved _ _ (by decide +kernel)⟩

end VendorAlign

end TidySheet
