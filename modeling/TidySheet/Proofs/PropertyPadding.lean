import TidySheet.Proofs.ValuePadding

/-!
# Padding the properties of a block

The whitespace that moves a property stands behind the last delimiter before it, and between two
delimiters there is one declaration at most. So one walk along the children of a block, with the
siblings since the last delimiter before and after padding (`Walk`), tells where padding leaves each
property.

* `Walk.occurrence` — a property is moved to its target, but for one right behind a comment with a
  break, which hides the whitespace put before it;
* `allRaised_padFrom` — padding moves no property beyond its target;
* `padFrom_padFrom` — without such comments a second padding changes nothing;
* `stuckFrom_padFrom` — and with one the property is as far from its target as before.
-/

set_option autoImplicit false

namespace TidySheet

namespace VendorBlock

open Node

/-! ## Siblings since the last delimiter -/

/-- The siblings since the last delimiter, nearest first, once `n` is one of them. -/
def leadPast (before : List Node) (n : Node) : List Node :=
  if n.is .declarationDelimiter then [] else n :: before

/-- For each of the siblings `ns`, the occurrence of its property. -/
def propertiesFrom (before ns : List Node) : List (Option Occurrence) :=
  (withLead before ns).map fun (b, n) => propertyOccurrence? b n

theorem properties_eq (cs : List Node) : properties cs = propertiesFrom [] cs := rfl

@[simp] theorem propertiesFrom_nil (before : List Node) : propertiesFrom before [] = [] := rfl

@[simp] theorem propertiesFrom_cons (before : List Node) (n : Node) (ns : List Node) :
    propertiesFrom before (n :: ns) =
      propertyOccurrence? before n :: propertiesFrom (leadPast before n) ns := rfl

theorem propertiesFrom_append (before ms ns : List Node) :
    propertiesFrom before (ms ++ ns) =
      propertiesFrom before ms ++ propertiesFrom (ms.foldl leadPast before) ns := by
  induction ms generalizing before with
  | nil => rfl
  | cons m ms ih => rw [List.cons_append, propertiesFrom_cons, ih]; rfl

theorem propertyName?_of_kind_ne {n : Node} (h : n.kind ≠ .declaration) :
    propertyName? n = none := by
  rw [propertyName?, is_eq_false.2 h, if_neg (by decide)]

theorem propertyOccurrence?_of_kind_ne {n : Node} (h : n.kind ≠ .declaration)
    (before : List Node) : propertyOccurrence? before n = none := by
  rw [propertyOccurrence?, propertyName?_of_kind_ne h]
  rfl

theorem kind_of_propertyOccurrence? {before : List Node} {n : Node} {o : Occurrence}
    (h : propertyOccurrence? before n = some o) : n.kind = .declaration :=
  Decidable.byContradiction fun hne => by
    rw [propertyOccurrence?_of_kind_ne hne] at h
    cases h

/-- Whether a node has a property name does not depend on what stands before it. -/
theorem propertyOccurrence?_eq_none {before : List Node} {n : Node}
    (h : propertyOccurrence? before n = none) (before' : List Node) :
    propertyOccurrence? before' n = none := by
  rw [propertyOccurrence?, Option.map_eq_none_iff] at h ⊢
  exact h

theorem exists_propertyOccurrence? {before : List Node} {n : Node} {o : Occurrence}
    (h : propertyOccurrence? before n = some o) :
    ∃ mark, o.total = mark + (Indent.measureBack before).width ∧
      ∀ before', ∃ o', propertyOccurrence? before' n = some o' ∧ o'.id = o.id ∧
        o'.total = mark + (Indent.measureBack before').width := by
  obtain ⟨name, hname, rfl⟩ := Option.map_eq_some_iff.1 h
  refine ⟨(stripVendor name).2, rfl, fun before' =>
    ⟨.ofName name [] (Indent.measureBack before').width, ?_, rfl, rfl⟩⟩
  rw [propertyOccurrence?, hname]
  rfl

/-! ## Separated declarations -/

/-- Whether a declaration stands behind the last delimiter, once `n` has been passed. -/
def seenPast (seen : Bool) (n : Node) : Bool :=
  match n.kind with
  | .declarationDelimiter => false
  | .declaration => true
  | _ => seen

theorem seenPast_of_ne {seen : Bool} {n : Node} (hd : n.kind ≠ .declarationDelimiter)
    (hc : n.kind ≠ .declaration) : seenPast seen n = seen := by
  unfold seenPast
  split
  · rename_i hk
    exact absurd hk hd
  · rename_i hk
    exact absurd hk hc
  · rfl

theorem separated_cons {seen : Bool} {n : Node} {ns : List Node}
    (h : Separated seen (n :: ns)) :
    (n.kind = .declaration → seen = false) ∧ Separated (seenPast seen n) ns := by
  unfold Separated at h
  split at h
  · rename_i hk
    rw [seenPast, hk]
    exact ⟨fun hk => (by cases hk), h⟩
  · rename_i hk
    rw [seenPast, hk]
    exact ⟨fun _ => h.1, h.2⟩
  · rename_i hd hc
    rw [seenPast_of_ne hd hc]
    exact ⟨fun hk => absurd hk hc, h⟩

end VendorBlock

namespace VendorAlign

open Node VendorBlock

variable {os os' : List Occurrence} {o : Occurrence} {d : Dialect}

/-! ## One step -/

/-- A node, padded if a property stands behind it. -/
def emit (os : List Occurrence) (d : Dialect) : Option Occurrence → Node → List Node
  | some o, n => padSibling os o d n
  | none, n => [n]

/-- The siblings `ns` with their properties padded. -/
def padFrom (os : List Occurrence) (d : Dialect) (before ns : List Node) : List Node :=
  padProperties os d (ns.zip (propertiesFrom before ns))

theorem padFrom_singleton (before : List Node) (n : Node) : padFrom os d before [n] = [n] := rfl

theorem padFrom_cons_cons (before : List Node) (n m : Node) (ns : List Node) :
    padFrom os d before (n :: m :: ns) =
      emit os d (propertyOccurrence? (leadPast before n) m) n ++
        padFrom os d (leadPast before n) (m :: ns) := by
  simp only [padFrom, propertiesFrom_cons, List.zip_cons_cons, padProperties]
  cases propertyOccurrence? (leadPast before n) m <;> rfl

theorem padSibling_eq (n : Node) : padSibling os o d n =
    if n.is .space then [resize os o n]
    else if n.is .multilineComment then gapNodes os o d ++ [n]
    else n :: gapNodes os o d := rfl

theorem mem_padSibling {n e : Node} (h : e ∈ padSibling os o d n) :
    e = n ∨ ∃ l t, e = .leaf l t ∧ l.kind = .space := by
  have hgap : e ∈ gapNodes os o d → ∃ l t, e = .leaf l t ∧ l.kind = .space := by
    intro he
    obtain ⟨k, rfl⟩ := eq_ofSpace_of_mem_gapNodes he
    exact ⟨_, _, rfl, rfl⟩
  rw [padSibling_eq] at h
  split at h
  · rename_i hk
    rw [List.mem_singleton.1 h]
    cases n with
    | leaf l t => exact .inr ⟨l, _, rfl, is_eq_true.1 hk⟩
    | branch l cs => exact .inl rfl
  split at h
  · rcases List.mem_append.1 h with h | h
    · exact .inr (hgap h)
    · exact .inl (List.mem_singleton.1 h)
  · rcases List.mem_cons.1 h with h | h
    · exact .inl h
    · exact .inr (hgap h)

theorem mem_padSibling_self {n : Node} (hn : n.kind ≠ .space) : n ∈ padSibling os o d n := by
  rw [padSibling_eq, is_eq_false.2 hn, if_neg (by decide)]
  split <;> simp

theorem leadPast_of_kind_ne {before : List Node} {n : Node} (h : n.kind ≠ .declarationDelimiter) :
    leadPast before n = n :: before := by
  rw [leadPast, is_eq_false.2 h, if_neg (by decide)]

theorem foldl_leadPast_gapNodes (before : List Node) :
    (gapNodes os o d).foldl leadPast before = gapNodes os o d ++ before := by
  by_cases hlt : o.total < reach os o.id
  · rw [gapNodes_of_lt hlt]
    rfl
  · rw [gapNodes_of_le (by omega)]
    rfl

/-- A comment with a break: what stands before it is not measured. -/
def hides (n : Node) : Bool := n.is .multilineComment && n.hasBreak

/-- Where the whitespace around `n` leaves the property behind it. -/
theorem width_padSibling {before : List Node} {n : Node} {mark : Nat} (hn : n.KindFits)
    (ho : o.total = mark + (Indent.measureBack (leadPast before n)).width)
    (hle : o.total ≤ reach os o.id) :
    mark + (Indent.measureBack ((padSibling os o d n).foldl leadPast before)).width =
      if hides n then o.total else reach os o.id := by
  rw [padSibling_eq]
  split
  · rename_i hk
    have hk := is_eq_true.1 hk
    obtain ⟨l, t, rfl⟩ := hn.eq_leaf (by rw [hk]; rfl)
    have hh : hides (.leaf l t) = false := by simp [hides, is, hk]
    rw [leadPast_of_kind_ne (by rw [hk]; decide)] at ho
    rw [hh, if_neg (by decide), List.foldl_cons, List.foldl_nil,
      leadPast_of_kind_ne (by rw [kind_resize, hk]; decide)]
    exact width_measureBack_resize hk ho hle
  split
  · rename_i hk
    have hk := is_eq_true.1 hk
    obtain ⟨l, t, rfl⟩ := hn.eq_leaf (by rw [hk]; rfl)
    have hl : l.kind = .multilineComment := hk
    have hdelim : (Node.leaf l t).kind ≠ .declarationDelimiter := by rw [hk]; decide
    have hgap := width_measureBack_gapNodes (d := d) hle before
    rw [leadPast_of_kind_ne hdelim] at ho
    rw [List.foldl_append, foldl_leadPast_gapNodes, List.foldl_cons, List.foldl_nil,
      leadPast_of_kind_ne hdelim]
    cases hb : t.any isBreak with
    | true =>
      have hh : hides (.leaf l t) = true := by simp [hides, is, hk, hasBreak, hb]
      rw [hh, if_pos rfl, ho, Indent.width_measureBack_comment_of_hasBreak hl hb _ before]
    | false =>
      have hh : hides (.leaf l t) = false := by simp [hides, hasBreak, hb]
      rw [Indent.width_measureBack_comment hl hb] at ho
      rw [hh, if_neg (by decide), Indent.width_measureBack_comment hl hb]
      omega
  · rename_i hs hc
    have hh : hides n = false := by simp [hides, hc]
    have hgap := width_measureBack_gapNodes (d := d) hle (leadPast before n)
    rw [hh, if_neg (by decide), List.foldl_cons, foldl_leadPast_gapNodes]
    omega

/-! ## The walk -/

/-- A walk that has come to `n`, with the siblings since the last delimiter before it, without
padding and with it. They are the same as long as no declaration stands among them. -/
structure Walk (os : List Occurrence) (seen : Bool) (before before' : List Node) (n : Node)
    (ns : List Node) : Prop where
  separated : Separated seen (n :: ns)
  fits : ∀ m ∈ n :: ns, m.KindFits
  within : ∀ o ∈ (propertiesFrom before (n :: ns)).filterMap id, o.total ≤ reach os o.id
  raised : ∀ o, propertyOccurrence? before n = some o →
    ∃ o', propertyOccurrence? before' n = some o' ∧ Raised os o o'
  same : n.kind ≠ .declaration → seen = false → before' = before

theorem filterMap_propertiesFrom_cons (before : List Node) (n : Node) (ns : List Node) :
    (propertiesFrom before (n :: ns)).filterMap id =
      (propertyOccurrence? before n).toList ++
        (propertiesFrom (leadPast before n) ns).filterMap id := by
  rw [propertiesFrom_cons]
  cases propertyOccurrence? before n <;> simp

namespace Walk

variable {seen : Bool} {before before' ns : List Node} {n m : Node}

/-- At the start of a block nothing has been padded. -/
theorem start (hs : Separated seen (n :: ns)) (hf : ∀ m ∈ n :: ns, m.KindFits)
    (hr : ∀ o ∈ (propertiesFrom before (n :: ns)).filterMap id, o.total ≤ reach os o.id) :
    Walk os seen before before n ns := by
  refine ⟨hs, hf, hr, fun o ho => ⟨o, ho, rfl, Nat.le_refl _, hr o ?_⟩, fun _ _ => rfl⟩
  rw [filterMap_propertiesFrom_cons, ho]
  simp

theorem le_reach (hw : Walk os seen before before' n (m :: ns))
    (ho : propertyOccurrence? (leadPast before n) m = some o) : o.total ≤ reach os o.id := by
  apply hw.within o
  rw [filterMap_propertiesFrom_cons, filterMap_propertiesFrom_cons, ho]
  simp

/-- Both leads are the same until a declaration is seen. -/
theorem leadPast_eq (hw : Walk os seen before before' n ns) (hseen : seenPast seen n = false) :
    leadPast before n = leadPast before' n := by
  unfold seenPast at hseen
  split at hseen
  · rename_i hk
    rw [leadPast, leadPast, is_eq_true.2 hk]
    rfl
  · cases hseen
  · rename_i hk
    rw [hw.same hk hseen]

theorem leadPast_eq_of_declaration (hw : Walk os seen before before' n (m :: ns))
    (hm : m.kind = .declaration) : leadPast before n = leadPast before' n :=
  hw.leadPast_eq ((separated_cons (separated_cons hw.separated).2).1 hm)

/-- **A property is moved to its target, but for one that a comment with a break holds back.** -/
theorem occurrence (hw : Walk os seen before before' n (m :: ns))
    (ho : propertyOccurrence? (leadPast before n) m = some o) :
    ∃ o', propertyOccurrence? ((padSibling os o d n).foldl leadPast before') m = some o' ∧
      o'.id = o.id ∧ o'.total = if hides n then o.total else reach os o.id := by
  obtain ⟨mark, htotal, hpadded⟩ := exists_propertyOccurrence? ho
  obtain ⟨o', ho', hid, htotal'⟩ := hpadded ((padSibling os o d n).foldl leadPast before')
  rw [hw.leadPast_eq_of_declaration (kind_of_propertyOccurrence? ho)] at htotal
  refine ⟨o', ho', hid, ?_⟩
  rw [htotal', width_padSibling (hw.fits n List.mem_cons_self) htotal (hw.le_reach ho)]

/-- One step of the walk. -/
theorem next (hw : Walk os seen before before' n (m :: ns)) :
    Walk os (seenPast seen n) (leadPast before n)
      ((emit os d (propertyOccurrence? (leadPast before n) m) n).foldl leadPast before') m ns := by
  have hwithin : ∀ o ∈ (propertiesFrom (leadPast before n) (m :: ns)).filterMap id,
      o.total ≤ reach os o.id := by
    intro o ho
    apply hw.within o
    rw [filterMap_propertiesFrom_cons]
    exact List.mem_append_right _ ho
  refine ⟨(separated_cons hw.separated).2, fun k hk => hw.fits k (List.mem_cons_of_mem _ hk),
    hwithin, ?_, ?_⟩
  · intro o ho
    obtain ⟨o', ho', hid, ht⟩ := hw.occurrence (d := d) ho
    have hle := hw.le_reach ho
    rw [ho]
    refine ⟨o', ho', ?_⟩
    split at ht
    · exact ⟨hid, by omega, by omega⟩
    · exact ⟨hid, by omega, by omega⟩
  · intro hm hseen
    rw [propertyOccurrence?_of_kind_ne hm]
    exact (hw.leadPast_eq hseen).symm

theorem allRaised_head (hw : Walk os seen before before' n ns) :
    AllRaised os (propertyOccurrence? before n).toList (propertyOccurrence? before' n).toList := by
  cases ho : propertyOccurrence? before n with
  | none =>
    rw [propertyOccurrence?_eq_none ho]
    exact .refl fun o ho => nomatch ho
  | some o =>
    obtain ⟨o', ho', hraised⟩ := hw.raised o ho
    rw [ho']
    exact .cons hraised (.refl fun o ho => nomatch ho)

end Walk

/-! ## Where the properties end up -/

section

variable {seen : Bool} {before before' ns : List Node} {n : Node}

theorem filterMap_propertiesFrom_eq_nil (hns : ∀ n ∈ ns, n.kind ≠ .declaration) :
    (propertiesFrom before ns).filterMap id = [] := by
  induction ns generalizing before with
  | nil => rfl
  | cons n ns ih =>
    rw [propertiesFrom_cons, propertyOccurrence?_of_kind_ne (hns n List.mem_cons_self),
      List.filterMap_cons_none rfl]
    exact ih fun m hm => hns m (List.mem_cons_of_mem _ hm)

/-- Padding around a node brings in no other property. -/
theorem filterMap_propertiesFrom_emit (p : Option Occurrence) :
    (propertiesFrom before (emit os d p n)).filterMap id =
      (propertyOccurrence? before n).toList := by
  cases p with
  | none => rw [emit, filterMap_propertiesFrom_cons]; simp
  | some o =>
    by_cases hn : n.kind = .declaration
    · have hsibling : padSibling os o d n = n :: gapNodes os o d := by
        rw [padSibling_eq, is_eq_false.2 (by rw [hn]; decide), if_neg (by decide),
          is_eq_false.2 (by rw [hn]; decide), if_neg (by decide)]
      have hgap : ∀ m ∈ gapNodes os o d, m.kind ≠ .declaration := by
        intro m hm
        obtain ⟨k, rfl⟩ := eq_ofSpace_of_mem_gapNodes hm
        exact fun hk => by cases hk
      rw [emit, hsibling, filterMap_propertiesFrom_cons, filterMap_propertiesFrom_eq_nil hgap,
        List.append_nil]
    · rw [propertyOccurrence?_of_kind_ne hn]
      apply filterMap_propertiesFrom_eq_nil
      intro m hm
      rcases mem_padSibling hm with rfl | ⟨l, t, rfl, hl⟩
      · exact hn
      · show l.kind ≠ .declaration
        rw [hl]
        decide

/-- **Padding moves no property beyond its target.** -/
theorem allRaised_padFrom (hw : Walk os seen before before' n ns) :
    AllRaised os ((propertiesFrom before (n :: ns)).filterMap id)
      ((propertiesFrom before' (padFrom os d before (n :: ns))).filterMap id) := by
  induction ns generalizing seen before before' n with
  | nil =>
    rw [padFrom_singleton, filterMap_propertiesFrom_cons, filterMap_propertiesFrom_cons]
    exact hw.allRaised_head.append (.refl fun o ho => nomatch ho)
  | cons m ns ih =>
    rw [filterMap_propertiesFrom_cons, padFrom_cons_cons, propertiesFrom_append,
      List.filterMap_append, filterMap_propertiesFrom_emit]
    exact hw.allRaised_head.append (ih hw.next)

/-! ## Padding again -/

/-- Whether a property short of its target stands right behind a comment with a break. -/
def hasStuck (os : List Occurrence) : List (Node × Option Occurrence) → Bool
  | [] => false
  | [_] => false
  | (n, _) :: (m, o) :: rest =>
    (match o with
      | some o => hides n && (target? os o.id).any (o.total < ·)
      | none => false) || hasStuck os ((m, o) :: rest)

/-- Whether that is so among the siblings `ns`. -/
def stuckFrom (os : List Occurrence) (before ns : List Node) : Bool :=
  hasStuck os (ns.zip (propertiesFrom before ns))

theorem any_target? (os : List Occurrence) (o : Occurrence) :
    (target? os o.id).any (o.total < ·) = decide (o.total < reach os o.id) := by
  cases ht : target? os o.id with
  | none => rw [target?_eq_none ht]; simp
  | some T => rw [(target?_eq_some ht).1]; simp

theorem stuckFrom_of_some {m : Node} (ho : propertyOccurrence? (leadPast before n) m = some o) :
    stuckFrom os before (n :: m :: ns) =
      ((hides n && decide (o.total < reach os o.id)) ||
        stuckFrom os (leadPast before n) (m :: ns)) := by
  simp only [stuckFrom, propertiesFrom_cons, List.zip_cons_cons, hasStuck, ho, any_target?]

theorem stuckFrom_of_none {m : Node} (ho : propertyOccurrence? (leadPast before n) m = none) :
    stuckFrom os before (n :: m :: ns) = stuckFrom os (leadPast before n) (m :: ns) := by
  simp only [stuckFrom, propertiesFrom_cons, List.zip_cons_cons, hasStuck, ho, Bool.false_or]

theorem stuckFrom_cons (h : stuckFrom os (leadPast before n) ns = true) :
    stuckFrom os before (n :: ns) = true := by
  cases ns with
  | nil => cases h
  | cons m ns =>
    cases ho : propertyOccurrence? (leadPast before n) m with
    | none => rw [stuckFrom_of_none ho, h]
    | some o => rw [stuckFrom_of_some ho, h, Bool.or_true]

theorem stuckFrom_append {ms : List Node} (h : stuckFrom os (ms.foldl leadPast before) ns = true) :
    stuckFrom os before (ms ++ ns) = true := by
  induction ms generalizing before with
  | nil => exact h
  | cons m ms ih => exact stuckFrom_cons (ih h)

/-- Padding starts with the first node, or with whitespace before it or in its place. -/
theorem exists_padFrom_cons (os : List Occurrence) (d : Dialect) (before : List Node) (n : Node)
    (ns : List Node) :
    ∃ f fs, padFrom os d before (n :: ns) = f :: fs ∧
      (f = n ∨ n.kind ≠ .declaration ∧ f.kind ≠ .declaration) := by
  cases ns with
  | nil => exact ⟨n, [], rfl, .inl rfl⟩
  | cons m ns =>
    rw [padFrom_cons_cons]
    cases propertyOccurrence? (leadPast before n) m with
    | none => exact ⟨n, _, rfl, .inl rfl⟩
    | some o =>
      rw [emit, padSibling_eq]
      split
      · rename_i hk
        have hk := is_eq_true.1 hk
        exact ⟨_, _, rfl, .inr ⟨by rw [hk]; decide, by rw [kind_resize, hk]; decide⟩⟩
      split
      · rename_i hk
        have hk := is_eq_true.1 hk
        by_cases hlt : o.total < reach os o.id
        · rw [gapNodes_of_lt hlt]
          exact ⟨_, _, rfl, .inr ⟨by rw [hk]; decide, fun h => by cases h⟩⟩
        · rw [gapNodes_of_le (by omega)]
          exact ⟨n, _, rfl, .inl rfl⟩
      · exact ⟨n, _, rfl, .inl rfl⟩

theorem padFrom_of_none {m : Node} (ho : propertyOccurrence? (leadPast before n) m = none)
    (ns : List Node) :
    padFrom os d before (n :: m :: ns) = n :: padFrom os d (leadPast before n) (m :: ns) := by
  rw [padFrom_cons_cons, ho]
  rfl

theorem padFrom_of_settled {m : Node} (ho : propertyOccurrence? (leadPast before n) m = some o)
    (hn : padSibling os o d n = [n]) (ns : List Node) :
    padFrom os d before (n :: m :: ns) = n :: padFrom os d (leadPast before n) (m :: ns) := by
  rw [padFrom_cons_cons, ho, emit, hn]
  rfl

theorem padSibling_of_reached (hk : n.kind ≠ .space) (ht : reach os o.id ≤ o.total) :
    padSibling os o d n = [n] := by
  rw [padSibling_eq, is_eq_false.2 hk, if_neg (by decide), gapNodes_of_le ht]
  split <;> rfl

theorem padSibling_of_even {l : Label} {t : List Char} (hl : l.kind = .space)
    (he : (Node.leaf l t).Even) (ho : o.total = reach os o.id)
    (ht : (splitFinalLine t).2.length ≤ o.total) :
    padSibling os o d (.leaf l t) = [.leaf l t] := by
  have hk : (Node.leaf l t).kind = .space := hl
  rw [padSibling_eq, is_eq_true.2 hk, if_pos rfl, resize_eq_self he hl ho ht]

theorem length_final_le_total {l : Label} {t : List Char} {m : Node} (hl : l.kind = .space)
    (ho : propertyOccurrence? (leadPast before (.leaf l t)) m = some o) :
    (splitFinalLine t).2.length ≤ o.total := by
  have hk : (Node.leaf l t).kind ≠ .declarationDelimiter := by
    show l.kind ≠ _
    rw [hl]
    decide
  obtain ⟨mark, htotal, -⟩ := exists_propertyOccurrence? ho
  rw [leadPast_of_kind_ne hk] at htotal
  have hfinal := Indent.length_final_le_width hl t before
  omega

theorem padFrom_cons_of_kind_ne {m : Node} (hm : m.kind ≠ .declaration) :
    padFrom os d before (n :: m :: ns) = n :: padFrom os d (leadPast before n) (m :: ns) :=
  padFrom_of_none (propertyOccurrence?_of_kind_ne hm _) ns

/-- A property at its target needs nothing from the whitespace that was put before it. -/
theorem padFrom_sibling {m : Node} {o' : Occurrence} {fs : List Node} (hn : n.KindFits)
    (ho : propertyOccurrence? (leadPast before n) m = some o) (hle : o.total ≤ reach os o.id)
    (ho' : propertyOccurrence? ((padSibling os o d n).foldl leadPast before) m = some o')
    (ht : o'.total = reach os' o'.id) :
    padFrom os' d before (padSibling os o d n ++ m :: fs) =
      padSibling os o d n ++ padFrom os' d ((padSibling os o d n).foldl leadPast before)
        (m :: fs) := by
  have hreached : reach os' o'.id ≤ o'.total := by omega
  rw [padSibling_eq] at ho' ⊢
  split
  · rename_i hk
    rw [if_pos hk, List.foldl_cons, List.foldl_nil] at ho'
    have hk := is_eq_true.1 hk
    obtain ⟨l, t, rfl⟩ := hn.eq_leaf (by rw [hk]; rfl)
    have heven := even_resize (l := l) hle (length_final_le_total hk ho)
    exact padFrom_of_settled ho' (padSibling_of_even hk heven ht (length_final_le_total hk ho'))
      _
  rename_i hs
  rw [if_neg hs] at ho'
  have hs : n.kind ≠ .space := fun h => hs (is_eq_true.2 h)
  split
  · rename_i hk
    rw [if_pos hk] at ho'
    have hdecl : n.kind ≠ .declaration := by rw [is_eq_true.1 hk]; decide
    by_cases hlt : o.total < reach os o.id
    · rw [gapNodes_of_lt hlt] at ho' ⊢
      have hlast := padFrom_of_settled (d := d) ho' (padSibling_of_reached hs hreached) fs
      simp only [List.cons_append, List.nil_append, List.foldl_cons, List.foldl_nil]
      rw [padFrom_cons_of_kind_ne hdecl]
      exact congrArg _ hlast
    · rw [gapNodes_of_le (by omega)] at ho' ⊢
      exact padFrom_of_settled ho' (padSibling_of_reached hs hreached) fs
  · rename_i hk
    rw [if_neg hk] at ho'
    by_cases hlt : o.total < reach os o.id
    · rw [gapNodes_of_lt hlt] at ho' ⊢
      rw [List.foldl_cons, List.foldl_cons, List.foldl_nil] at ho'
      have hgap : padSibling os' o' d
          (ofSpace d (List.replicate (reach os o.id - o.total) ' ')) =
            [ofSpace d (List.replicate (reach os o.id - o.total) ' ')] := by
        refine padSibling_of_even rfl (fun _ c hc => ?_) ht (length_final_le_total rfl ho')
        rw [splitFinalLine_of_noBreak (any_isBreak_replicate _)] at hc
        exact (List.mem_replicate.1 hc).2
      have hlast := padFrom_of_settled ho' hgap fs
      simp only [List.cons_append, List.nil_append, List.foldl_cons, List.foldl_nil]
      rw [padFrom_cons_of_kind_ne fun h => by cases h]
      exact congrArg _ hlast
    · rw [gapNodes_of_le (by omega)] at ho' ⊢
      exact padFrom_of_settled ho' (padSibling_of_reached hs hreached) fs

/-- **Without comments that hold a property back, a second padding changes nothing.** -/
theorem padFrom_padFrom (hreach : ∀ id, reach os' id = reach os id)
    (hw : Walk os seen before before' n ns) (hstuck : stuckFrom os before (n :: ns) = false) :
    padFrom os' d before' (padFrom os d before (n :: ns)) = padFrom os d before (n :: ns) := by
  induction ns generalizing seen before before' n with
  | nil => rfl
  | cons m ns ih =>
    rw [padFrom_cons_cons]
    cases ho : propertyOccurrence? (leadPast before n) m with
    | none =>
      rw [stuckFrom_of_none ho] at hstuck
      have htail := ih (hw.next (d := d)) hstuck
      obtain ⟨f, fs, hfs, hf⟩ := exists_padFrom_cons os d (leadPast before n) m ns
      have hnone : propertyOccurrence? (leadPast before' n) f = none := by
        rcases hf with rfl | ⟨-, hf⟩
        · exact propertyOccurrence?_eq_none ho _
        · exact propertyOccurrence?_of_kind_ne hf _
      rw [ho, hfs] at htail
      rw [hfs, emit, List.singleton_append, padFrom_of_none hnone]
      exact congrArg _ htail
    | some o =>
      rw [stuckFrom_of_some ho, Bool.or_eq_false_iff] at hstuck
      have htail := ih (hw.next (d := d)) hstuck.2
      obtain ⟨f, fs, hfs, hf⟩ := exists_padFrom_cons os d (leadPast before n) m ns
      have hm := kind_of_propertyOccurrence? ho
      have hfm : f = m := hf.resolve_right fun h => h.1 hm
      obtain ⟨o', ho', hid, ht⟩ := hw.occurrence (d := d) ho
      have hle := hw.le_reach ho
      have hreached : o'.total = reach os' o'.id := by
        rw [hreach, hid, ht]
        split
        · rename_i hh
          rw [hh, Bool.true_and, decide_eq_false_iff_not] at hstuck
          omega
        · rfl
      rw [ho, hfs, hfm] at htail
      rw [hw.leadPast_eq_of_declaration hm] at ho
      rw [hfs, hfm, emit, padFrom_sibling (hw.fits n List.mem_cons_self) ho hle ho' hreached]
      exact congrArg _ htail

/-- A property that is held back stays as far from its target as it is. -/
theorem stuckFrom_padFrom (hreach : ∀ id, reach os' id = reach os id)
    (hw : Walk os seen before before' n ns) (hstuck : stuckFrom os before (n :: ns) = true) :
    stuckFrom os' before' (padFrom os d before (n :: ns)) = true := by
  induction ns generalizing seen before before' n with
  | nil => cases hstuck
  | cons m ns ih =>
    rw [padFrom_cons_cons]
    cases ho : propertyOccurrence? (leadPast before n) m with
    | none =>
      rw [stuckFrom_of_none ho] at hstuck
      have htail := ih (hw.next (d := d)) hstuck
      rw [ho] at htail
      exact stuckFrom_append htail
    | some o =>
      rw [stuckFrom_of_some ho, Bool.or_eq_true] at hstuck
      rcases hstuck with hheld | hstuck
      · rw [Bool.and_eq_true, decide_eq_true_eq] at hheld
        have hk : n.kind = .multilineComment := by
          have hh := hheld.1
          rw [hides, Bool.and_eq_true] at hh
          exact is_eq_true.1 hh.1
        obtain ⟨o', ho', hid, ht⟩ := hw.occurrence (d := d) ho
        have hshort : o'.total < reach os' o'.id := by
          rw [hreach, hid, ht, if_pos hheld.1]
          exact hheld.2
        obtain ⟨f, fs, hfs, hf⟩ := exists_padFrom_cons os d (leadPast before n) m ns
        have hfm : f = m := hf.resolve_right fun h => h.1 (kind_of_propertyOccurrence? ho)
        rw [padSibling_eq, is_eq_false.2 (by rw [hk]; decide), if_neg (by decide),
          is_eq_true.2 hk, if_pos rfl, List.foldl_append] at ho'
        rw [hfs, hfm, emit, padSibling_eq, is_eq_false.2 (by rw [hk]; decide), if_neg (by decide),
          is_eq_true.2 hk, if_pos rfl, List.append_assoc]
        apply stuckFrom_append
        rw [List.singleton_append, stuckFrom_of_some ho', hheld.1, decide_eq_true hshort]
        rfl
      · have htail := ih (hw.next (d := d)) hstuck
        rw [ho] at htail
        exact stuckFrom_append htail

end

end VendorAlign

end TidySheet
