import Mathlib.Data.List.DropRight
import TidySheet.Proofs.Offsets

/-!
# The line that a measurement sees

An indent is measured from the nearest node back, and the measurement ends at the first break that
it meets. Whitespace and comments so measure what a reader sees: the final line of their text, with
the marks of the comments.

* `finalLine_append` — the final line of two texts;
* `splitFinalLine_snd` — the measurement splits a text where its final line starts;
* `Indent.measure_eq_finalLine` — the indent of whitespace and comments.
-/

set_option autoImplicit false

namespace TidySheet

/-! ## Final lines -/

/-- What stands behind the last break of a text; all of it if it has none. -/
def finalLine (text : List Char) : List Char := text.rtakeWhile fun c => !isBreak c

theorem finalLine_of_noBreak {t : List Char} (h : t.any isBreak = false) : finalLine t = t := by
  rw [List.any_eq_false] at h
  exact List.rtakeWhile_eq_self_iff.2 fun c hc => by simp [h c hc]

/-- The final line goes back beyond a text that has no break. -/
theorem finalLine_append (s t : List Char) :
    finalLine (s ++ t) = if t.any isBreak then finalLine t else finalLine s ++ t := by
  induction t using List.reverseRecOn with
  | nil => simp
  | append_singleton t c ih =>
    unfold finalLine at ih ⊢
    rw [← List.append_assoc, List.rtakeWhile_concat, List.rtakeWhile_concat, ih, List.any_append]
    cases hc : isBreak c with
    | true => simp [hc]
    | false =>
      cases ht : t.any isBreak with
      | true => simp [hc]
      | false => simp [hc]

/-- A text is split where its final line starts. -/
theorem splitFinalLine_snd (t : List Char) : (splitFinalLine t).2 = finalLine t := by
  induction t with
  | nil => rfl
  | cons c cs ih =>
    have happend : finalLine (c :: cs) =
        if cs.any isBreak then finalLine cs else finalLine [c] ++ cs := finalLine_append [c] cs
    have hempty := isEmpty_splitFinalLine cs
    rw [happend, splitFinalLine]
    cases hb : cs.any isBreak with
    | true =>
      rw [hb] at hempty
      split
      · rename_i h
        rw [h] at hempty
        cases hempty
      · rename_i h
        rw [if_pos rfl, ← ih, h]
    | false =>
      rw [splitFinalLine_of_noBreak hb, if_neg (by simp)]
      cases hc : isBreak c <;> simp [finalLine, List.rtakeWhile, hc]

namespace Indent

/-! ## Nodes -/

variable {l : Label} {t : List Char}

/-- The marks of a leaf have no break in them. -/
theorem any_isBreak_leaf (l : Label) (t : List Char) :
    (Node.leaf l t).chars.any isBreak = t.any isBreak := by
  have hmarks : (Node.leafMarks l.kind).1.any isBreak = false ∧
      (Node.leafMarks l.kind).2.any isBreak = false := by
    unfold Node.leafMarks
    split <;> decide
  rw [Node.chars, List.any_append, List.any_append, hmarks.1, hmarks.2, Bool.false_or,
    Bool.or_false]

/-- The nearest node decides whether the measurement goes on beyond it. -/
theorem width_measureBack_leaf (hk : l.kind = .space ∨ l.kind = .multilineComment)
    (ns : List Node) :
    (measureBack (.leaf l t :: ns)).width =
      if t.any isBreak then (finalLine (Node.leaf l t).chars).length
      else (measureBack ns).width + (Node.leaf l t).chars.length := by
  have hempty := isEmpty_splitFinalLine t
  have htail := splitFinalLine_snd t
  rcases hk with hk | hk
  · have hchars : (Node.leaf l t).chars = t := by simp [Node.chars, Node.leafMarks, hk]
    rw [hchars]
    simp only [measureBack, hk, hempty, htail]
    cases hb : t.any isBreak with
    | true => rfl
    | false => simp [widen, finalLine_of_noBreak hb]
  · have hchars : (Node.leaf l t).chars = ['/', '*'] ++ t ++ ['*', '/'] := by
      simp [Node.chars, Node.leafMarks, hk]
    have hline : finalLine (Node.leaf l t).chars = finalLine (['/', '*'] ++ t) ++ ['*', '/'] := by
      rw [hchars, finalLine_append, if_neg (by decide)]
    rw [hline, hchars]
    simp only [measureBack, hk, hempty, htail]
    cases hb : t.any isBreak with
    | true =>
      rw [finalLine_append, hb, if_pos rfl, List.length_append]
      rfl
    | false => simp [widen]

theorem width_measure {ns : List Node}
    (h : ∀ n ∈ ns, (n.kind = .space ∨ n.kind = .multilineComment) ∧ n.text?.isSome = true) :
    (measure ns).width = (finalLine (Node.charsOf ns)).length := by
  -- the nearest node is the last one
  induction ns using List.reverseRecOn with
  | nil => rfl
  | append_singleton ns n ih =>
    obtain ⟨hk, ht⟩ := h n (by simp)
    cases n with
    | branch l cs => cases ht
    | leaf l t =>
      have hk : l.kind = .space ∨ l.kind = .multilineComment := hk
      rw [measure_concat, width_measureBack_leaf hk, Node.charsOf_append, Node.charsOf_cons,
        Node.charsOf_nil, List.append_nil, finalLine_append, any_isBreak_leaf]
      split
      · rfl
      · rw [List.length_append, ← ih fun m hm => h m (List.mem_append_left _ hm), measure]

theorem lineBreak_measure {ns : List Node} (h : ∀ n ∈ ns, n.text?.isSome = true) :
    (measure ns).lineBreak = (Node.charsOf ns).any isBreak := by
  rw [measure, lineBreak_measureBack, List.any_reverse]
  induction ns with
  | nil => rfl
  | cons n ns ih =>
    cases n with
    | branch l cs => cases h _ List.mem_cons_self
    | leaf l t =>
      rw [List.any_cons, ih fun m hm => h m (List.mem_cons_of_mem _ hm), Node.charsOf_cons,
        List.any_append, any_isBreak_leaf, Node.hasBreak]

/-- **Whitespace and comments measure the final line of their text**, and note whether a break
stands in it. -/
theorem measure_eq_finalLine (ns : List Node)
    (h : ∀ n ∈ ns, (n.kind = .space ∨ n.kind = .multilineComment) ∧ n.text?.isSome = true) :
    (measure ns).width = (finalLine (Node.charsOf ns)).length ∧
      ((measure ns).lineBreak = true ↔ ∃ c ∈ Node.charsOf ns, c = '\n' ∨ c = '\t') := by
  refine ⟨width_measure h, ?_⟩
  rw [lineBreak_measure fun n hn => (h n hn).2, List.any_eq_true]
  simp only [isBreak, Bool.or_eq_true, beq_iff_eq]

/-- Blanks, a comment over two lines, one on the last of them, and blanks that end it. -/
def raggedGap : List Node :=
  [.ofSpace .css ['\n', ' ', ' '], .ofText .multilineComment .css ['a', '\n', 'b'],
    .ofText .multilineComment .css ['c'], .ofSpace .css [' ']]

theorem measure_eq_finalLine_ragged :
    (∀ n ∈ raggedGap, (n.kind = .space ∨ n.kind = .multilineComment) ∧ n.text?.isSome = true) ∧
      (measure raggedGap).width = "b*//*c*/ ".toList.length ∧
      (measure raggedGap).lineBreak = true := by
  have hgap : ∀ n ∈ raggedGap,
      (n.kind = .space ∨ n.kind = .multilineComment) ∧ n.text?.isSome = true := by decide
  obtain ⟨hwidth, hbreak⟩ := measure_eq_finalLine raggedGap hgap
  exact ⟨hgap, hwidth, hbreak.2 ⟨'\n', by decide, .inl rfl⟩⟩

end Indent

end TidySheet
