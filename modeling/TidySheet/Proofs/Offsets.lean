import TidySheet.Rule.VendorAlign

/-!
# Offsets of names, before and after padding

What the measurements of vendor alignment say about the whitespace that it writes itself.

* `splitFinalLine_head_append` — a text through its last break, with other characters behind it;
* `Indent.lineBreak_measureBack` — a break is noted wherever it stands;
* `reach` — the offset that the occurrences with an id are moved to, zero if there is none to move
  to; `reach_eq_of_raised` — it stays when no occurrence moves beyond it;
* `getD_padded?`, `gap?_eq` — what padding writes, in terms of `reach`.
-/

set_option autoImplicit false

namespace TidySheet

/-! ## Final lines -/

theorem splitFinalLine_of_noBreak {t : List Char} (h : t.any isBreak = false) :
    splitFinalLine t = ([], t) := by
  induction t with
  | nil => rfl
  | cons c cs ih =>
    rw [List.any_cons, Bool.or_eq_false_iff] at h
    simp only [splitFinalLine, ih h.2, h.1, Bool.false_eq_true, if_false]

theorem isEmpty_splitFinalLine (t : List Char) :
    (splitFinalLine t).1.isEmpty = !t.any isBreak := by
  induction t with
  | nil => rfl
  | cons c cs ih =>
    simp only [splitFinalLine]
    split
    · rename_i tail h
      have hcs : cs.any isBreak = false := by simpa [h] using ih
      split
      · rename_i hc
        simp [hc]
      · rename_i hc
        simp [hc, hcs]
    · rename_i head tail hne h
      have hcs : cs.any isBreak = true := by
        cases head with
        | nil => exact absurd rfl hne
        | cons b head => simpa [h] using ih
      simp [hcs]

/-- Behind the last break of a text anything without a break may stand. -/
theorem splitFinalLine_head_append (t s : List Char) (hs : s.any isBreak = false) :
    splitFinalLine ((splitFinalLine t).1 ++ s) = ((splitFinalLine t).1, s) := by
  induction t with
  | nil => exact splitFinalLine_of_noBreak hs
  | cons c cs ih =>
    simp only [splitFinalLine]
    split
    · split
      · rename_i hc
        simp [splitFinalLine, splitFinalLine_of_noBreak hs, hc]
      · exact splitFinalLine_of_noBreak hs
    · rename_i head tail hne h
      rw [h] at ih
      cases head with
      | nil => exact absurd rfl hne
      | cons b head =>
        rw [List.cons_append, splitFinalLine, ih]

@[simp] theorem any_isBreak_replicate (n : Nat) : (List.replicate n ' ').any isBreak = false := by
  rw [List.any_eq_false]
  intro c hc
  rw [(List.mem_replicate.1 hc).2]
  decide

/-! ## Measurements -/

/-- Whether the node is a leaf with a break in its text. -/
def Node.hasBreak : Node → Bool
  | .leaf _ t => t.any isBreak
  | .branch _ _ => false

namespace Indent

/-- A break is noted wherever it stands. -/
theorem lineBreak_measureBack (ns : List Node) :
    (measureBack ns).lineBreak = ns.any Node.hasBreak := by
  induction ns with
  | nil => rfl
  | cons n ns ih =>
    cases n with
    | branch l cs => simpa [measureBack, Node.hasBreak] using ih
    | leaf l t =>
      have he := isEmpty_splitFinalLine t
      cases hb : t.any isBreak with
      | true =>
        rw [hb] at he
        simp only [measureBack, he]
        split <;> simp [Node.hasBreak, hb]
      | false =>
        rw [hb] at he
        simp only [measureBack, he]
        split <;> simp [Node.hasBreak, hb, widen, ih]

variable {l : Label}

/-- Whitespace, resized behind its last break. -/
theorem width_measureBack_resized (hl : l.kind = .space) (t : List Char) (n : Nat)
    (ns : List Node) :
    (measureBack (.leaf l ((splitFinalLine t).1 ++ List.replicate n ' ') :: ns)).width +
      (splitFinalLine t).2.length = (measureBack (.leaf l t :: ns)).width + n := by
  have hsplit := splitFinalLine_head_append t (List.replicate n ' ') (any_isBreak_replicate n)
  simp only [measureBack, hsplit, hl]
  split
  · simp only [widen, List.length_replicate]
    omega
  · simp only [List.length_replicate]
    omega

theorem width_measureBack_ofSpace (d : Dialect) (n : Nat) (ns : List Node) :
    (measureBack (.ofSpace d (List.replicate n ' ') :: ns)).width = (measureBack ns).width + n := by
  have hsplit := splitFinalLine_of_noBreak (any_isBreak_replicate n)
  simp [Node.ofSpace, Node.ofText, measureBack, hsplit, widen]

/-- The final line of whitespace is part of what is measured. -/
theorem length_final_le_width (hl : l.kind = .space) (t : List Char) (ns : List Node) :
    (splitFinalLine t).2.length ≤ (measureBack (.leaf l t :: ns)).width := by
  simp only [measureBack, hl]
  split
  · simp only [widen]
    omega
  · exact Nat.le_refl _

theorem measure_concat (ns : List Node) (n : Node) :
    measure (ns ++ [n]) = measureBack (n :: ns.reverse) := by
  rw [measure, List.reverse_append, List.reverse_singleton, List.singleton_append]

/-- A comment with a break hides what stands before it. -/
theorem width_measureBack_comment_of_hasBreak (hl : l.kind = .multilineComment) {t : List Char}
    (ht : t.any isBreak = true) (ms ns : List Node) :
    (measureBack (.leaf l t :: ms)).width = (measureBack (.leaf l t :: ns)).width := by
  have he := isEmpty_splitFinalLine t
  rw [ht] at he
  simp [measureBack, hl, he]

/-- A comment without a break does not. -/
theorem width_measureBack_comment (hl : l.kind = .multilineComment) {t : List Char}
    (ht : t.any isBreak = false) (ns : List Node) :
    (measureBack (.leaf l t :: ns)).width = (measureBack ns).width + (t.length + 4) := by
  have he := isEmpty_splitFinalLine t
  rw [ht] at he
  simp [measureBack, hl, he, widen]

end Indent

/-! ## Targets -/

namespace Occurrence

theorem total_ofName (name space : List Char) (extra : Nat) :
    (ofName name space extra).total = (stripVendor name).2 + extra := rfl

theorem isTrivial_iff (o : Occurrence) : o.isTrivial = true ↔ o.total = 0 := by
  unfold isTrivial total
  rw [Bool.and_eq_true, beq_iff_eq, beq_iff_eq]
  omega

end Occurrence

namespace VendorBlock

/-- The offset that the occurrences with an id are moved to; zero if none has a mark or an
indent. -/
def reach (os : List Occurrence) (id : List Char) : Nat := (target? os id).getD 0

variable {os os' : List Occurrence} {o : Occurrence} {id : List Char}

theorem mem_offsets {n : Nat} :
    n ∈ (os.filter fun o => o.id == id && !o.isTrivial).map Occurrence.total ↔
      ∃ o ∈ os, o.id = id ∧ o.total = n ∧ n ≠ 0 := by
  simp only [List.mem_map, List.mem_filter, Bool.and_eq_true, beq_iff_eq, Bool.not_eq_true']
  constructor
  · rintro ⟨o, ⟨ho, hid, ht⟩, rfl⟩
    refine ⟨o, ho, hid, rfl, fun h => ?_⟩
    rw [(o.isTrivial_iff).2 h] at ht
    cases ht
  · rintro ⟨o, ho, hid, rfl, hn⟩
    refine ⟨o, ⟨ho, hid, ?_⟩, rfl⟩
    cases ht : o.isTrivial with
    | false => rfl
    | true => exact absurd ((o.isTrivial_iff).1 ht) hn

theorem target?_eq_some {n : Nat} (h : target? os id = some n) : n = reach os id ∧ n ≠ 0 := by
  refine ⟨by rw [reach, h]; rfl, ?_⟩
  obtain ⟨o, -, -, -, hn⟩ := mem_offsets.1 (List.max?_mem h)
  exact hn

theorem target?_eq_none (h : target? os id = none) : reach os id = 0 := by
  rw [reach, h]
  rfl

theorem total_le_reach (ho : o ∈ os) : o.total ≤ reach os o.id := by
  by_cases hz : o.total = 0
  · omega
  have hm := mem_offsets.2 ⟨o, ho, rfl, rfl, hz⟩
  cases ht : target? os o.id with
  | none =>
    rw [target?, List.max?_eq_none_iff] at ht
    rw [ht] at hm
    cases hm
  | some n =>
    have hle := (List.max?_eq_some_iff.1 ht).2 _ hm
    rw [← (target?_eq_some ht).1]
    exact hle

theorem exists_total_eq_reach (h : reach os id ≠ 0) :
    ∃ o ∈ os, o.id = id ∧ o.total = reach os id := by
  cases ht : target? os id with
  | none => exact absurd (target?_eq_none ht) h
  | some n =>
    obtain ⟨o, ho, hid, hn, -⟩ := mem_offsets.1 (List.max?_mem ht)
    exact ⟨o, ho, hid, by rw [hn, (target?_eq_some ht).1]⟩

/-- An occurrence that moved to the right, not beyond the offset `reach` that its like have. -/
structure Raised (os : List Occurrence) (o o' : Occurrence) : Prop where
  id_eq : o'.id = o.id
  le_total : o.total ≤ o'.total
  total_le : o'.total ≤ reach os o.id

/-- The occurrences `ms`, each of them moved. -/
structure AllRaised (os ms ns : List Occurrence) : Prop where
  forth : ∀ o ∈ ms, ∃ o' ∈ ns, Raised os o o'
  back : ∀ o' ∈ ns, ∃ o ∈ ms, Raised os o o'

namespace AllRaised

variable {ms ns ms' ns' : List Occurrence}

theorem refl (hms : ∀ o ∈ ms, o ∈ os) : AllRaised os ms ms := by
  have hr : ∀ o ∈ ms, Raised os o o := fun o ho => ⟨rfl, Nat.le_refl _, total_le_reach (hms o ho)⟩
  exact ⟨fun o ho => ⟨o, ho, hr o ho⟩, fun o ho => ⟨o, ho, hr o ho⟩⟩

theorem of_mem_iff (h : AllRaised os ms ns) (hm : ∀ o, o ∈ ns' ↔ o ∈ ns) :
    AllRaised os ms ns' := by
  constructor
  · intro o ho
    obtain ⟨o', ho', hr⟩ := h.forth o ho
    exact ⟨o', (hm o').2 ho', hr⟩
  · intro o' ho'
    exact h.back o' ((hm o').1 ho')

theorem append (h : AllRaised os ms ns) (h' : AllRaised os ms' ns') :
    AllRaised os (ms ++ ms') (ns ++ ns') := by
  constructor
  · intro o ho
    rcases List.mem_append.1 ho with ho | ho
    · obtain ⟨o', ho', hr⟩ := h.forth o ho
      exact ⟨o', List.mem_append_left _ ho', hr⟩
    · obtain ⟨o', ho', hr⟩ := h'.forth o ho
      exact ⟨o', List.mem_append_right _ ho', hr⟩
  · intro o' ho'
    rcases List.mem_append.1 ho' with ho' | ho'
    · obtain ⟨o, ho, hr⟩ := h.back o' ho'
      exact ⟨o, List.mem_append_left _ ho, hr⟩
    · obtain ⟨o, ho, hr⟩ := h'.back o' ho'
      exact ⟨o, List.mem_append_right _ ho, hr⟩

theorem cons {o o' : Occurrence} (hr : Raised os o o') (h : AllRaised os ms ns) :
    AllRaised os (o :: ms) (o' :: ns) := by
  have hone : AllRaised os [o] [o'] := by
    constructor
    · intro p hp
      rw [List.mem_singleton.1 hp]
      exact ⟨o', List.mem_singleton_self o', hr⟩
    · intro p hp
      rw [List.mem_singleton.1 hp]
      exact ⟨o, List.mem_singleton_self o, hr⟩
  exact hone.append h

end AllRaised

/-- **Moving occurrences up to their target leaves the targets where they are.** -/
theorem reach_eq_of_raised (h : AllRaised os os os') (id : List Char) :
    reach os' id = reach os id := by
  have hle : reach os id ≤ reach os' id := by
    by_cases hz : reach os id = 0
    · omega
    obtain ⟨o, ho, hid, ht⟩ := exists_total_eq_reach hz
    obtain ⟨o', ho', hr⟩ := h.forth o ho
    have hb := total_le_reach ho'
    rw [hr.id_eq, hid] at hb
    have := hr.le_total
    omega
  have hge : reach os' id ≤ reach os id := by
    by_cases hz : reach os' id = 0
    · omega
    obtain ⟨o', ho', hid, ht⟩ := exists_total_eq_reach hz
    obtain ⟨o, ho, hr⟩ := h.back o' ho'
    have hb := hr.total_le
    rw [← hr.id_eq, hid] at hb
    omega
  omega

end VendorBlock

/-! ## Padding -/

namespace VendorAlign

open VendorBlock

variable {os : List Occurrence} {o : Occurrence}

theorem padded?_eq_some {t t' : List Char} (h : padded? os o t = some t') :
    t' = (splitFinalLine t).1 ++
      List.replicate (reach os o.id + (splitFinalLine t).2.length - o.total) ' ' := by
  obtain ⟨n, hn, rfl⟩ := Option.map_eq_some_iff.1 h
  rw [(target?_eq_some hn).1]

/-- Whitespace is resized by the distance to the target. -/
theorem getD_padded? (hle : o.total ≤ reach os o.id) {t : List Char}
    (ht : (splitFinalLine t).2.length ≤ o.total) :
    (padded? os o t).getD t = (splitFinalLine t).1 ++
      List.replicate (reach os o.id + (splitFinalLine t).2.length - o.total) ' ' := by
  cases hp : padded? os o t with
  | some t' => exact padded?_eq_some hp
  | none =>
    -- Nothing to move to: the occurrence has no offset, so no blank stands before it.
    have hz := target?_eq_none (Option.map_eq_none_iff.1 hp)
    have hnil : (splitFinalLine t).2 = [] := List.length_eq_zero_iff.1 (by omega)
    have hzero : reach os o.id + (splitFinalLine t).2.length - o.total = 0 := by omega
    rw [hzero, List.replicate_zero, List.append_nil]
    have happend := splitFinalLine_append t
    rw [hnil, List.append_nil] at happend
    exact happend.symm

/-- Whitespace is put in exactly where the target is not reached. -/
theorem gap?_eq (os : List Occurrence) (o : Occurrence) :
    gap? os o = if o.total < reach os o.id
      then some (List.replicate (reach os o.id - o.total) ' ') else none := by
  unfold gap? padded?
  cases ht : target? os o.id with
  | none =>
    rw [if_neg (by rw [target?_eq_none ht]; omega)]
    rfl
  | some n =>
    rw [← (target?_eq_some ht).1]
    by_cases hlt : o.total < n
    · rw [if_pos hlt]
      obtain ⟨k, hk⟩ : ∃ k, n - o.total = k + 1 := ⟨n - o.total - 1, by omega⟩
      simp [splitFinalLine, hk, List.replicate_succ]
    · rw [if_neg hlt]
      have hk : n - o.total = 0 := by omega
      simp [splitFinalLine, hk]

end VendorAlign

end TidySheet
