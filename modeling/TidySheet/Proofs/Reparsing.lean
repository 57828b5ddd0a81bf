import TidySheet.Proofs.ColonAlignment
import TidySheet.Proofs.Ink

/-!
# Colon alignment of any tree

A rule can be given a tree that no text was parsed into: with any root, of mixed dialects, with texts
that mean something else once they are read. Colon alignment writes the tree out and reads the text
again; the root keeps its kind and gets the content of the sheet that was read. A root that prints
marks has printed them into that text already.

* `SpacedOut` — a text with spaces put in before colons;
* `SpacedOut.marked_iff` — marks around such a text are more than spaces before colons;
* `Token.spacedOut_loose` — what one run puts between tokens;
* `chars_aligned_under` — an aligned sheet under another root;
* `process_text` — when the rule fails, what it prints if not, and when that is the old text with
  spaces before colons.
-/

set_option autoImplicit false

namespace TidySheet

theorem ink_cons (c : Char) (cs : List Char) : ink (c :: cs) = ink [c] ++ ink cs :=
  ink_append [c] cs

/-- **The second text is the first one with nothing but spaces put in, right before colons.** -/
inductive SpacedOut : List Char → List Char → Prop
  | nil : SpacedOut [] []
  | keep (c : Char) {s t : List Char} (h : SpacedOut s t) : SpacedOut (c :: s) (c :: t)
  | put (k : Nat) {s t : List Char} (h : SpacedOut s t) :
      SpacedOut (':' :: s) (List.replicate k ' ' ++ ':' :: t)

namespace SpacedOut

variable {s t s' t' : List Char}

theorem refl (s : List Char) : SpacedOut s s := by
  induction s with
  | nil => exact .nil
  | cons c s ih => exact .keep c ih

theorem append (h : SpacedOut s t) (h' : SpacedOut s' t') : SpacedOut (s ++ s') (t ++ t') := by
  induction h with
  | nil => exact h'
  | keep c h ih => exact .keep c ih
  | put k h ih =>
    rw [List.append_assoc]
    exact .put k ih

theorem ink_eq (h : SpacedOut s t) : ink t = ink s := by
  induction h with
  | nil => rfl
  | @keep c s t h ih => rw [ink_cons, ih, ← ink_cons]
  | @put k s t h ih =>
    have hblank : ink (List.replicate k ' ') = [] :=
      ink_eq_nil fun c hc => isBlank_of_mem_replicate hc
    rw [ink_append, hblank, List.nil_append, ink_cons, ih, ← ink_cons]

end SpacedOut

/-- Tokens with blanks before their colons are spaced out. -/
theorem Token.spacedOut_loose {w : Position → Nat} {ts : List Token} (hs : ∀ t ∈ ts, t.Spelled)
    (hw : ∀ t ∈ ts, w t.span.first ≠ 0 → t.kind = .colon) :
    SpacedOut (textOf ts) (loose w ts) := by
  induction ts with
  | nil => exact .nil
  | cons t ts ih =>
    have hrest : SpacedOut (textOf ts) (loose w ts) := by
      apply ih
      · exact fun u hu => hs u (List.mem_cons_of_mem t hu)
      · exact fun u hu => hw u (List.mem_cons_of_mem t hu)
    have hfirst : SpacedOut t.text (List.replicate (w t.span.first) ' ' ++ t.text) := by
      by_cases h0 : w t.span.first = 0
      · rw [h0]
        exact .refl t.text
      · rw [text_of_colon (hs t List.mem_cons_self) (hw t List.mem_cons_self h0)]
        exact .put _ .nil
    have hcons := hfirst.append hrest
    rw [List.append_assoc] at hcons
    rw [textOf_cons, loose_cons, tight]
    exact hcons

/-- Marks are ink, so they cannot be among the spaces. -/
theorem SpacedOut.marked_iff {s t : List Char} (h : SpacedOut s t) (l : Label) :
    SpacedOut s ((Node.branchMarks l).1 ++ t ++ (Node.branchMarks l).2) ↔
      Node.branchMarks l = ([], []) := by
  constructor
  · intro hmarked
    have hink := congrArg List.length hmarked.ink_eq
    rw [ink_append, ink_append, h.ink_eq, List.length_append, List.length_append] at hink
    have hopen : (ink (Node.branchMarks l).1).length = 0 := by omega
    unfold Node.branchMarks at hopen ⊢
    split at hopen
    · split at hopen
      · cases hopen
      · rename_i hd
        rw [if_neg hd]
    · cases hopen
    · cases hopen
    · rfl
  · intro hmarks
    rw [hmarks, List.nil_append, List.append_nil]
    exact h

namespace Colons

open Node

variable {d : Dialect} {source : List Char}

/-- A run brings the sheet that the text of the tree is read into under the root of the tree. -/
theorem process_of_parseChars_chars {tree fresh : Node}
    (h : parseChars tree.dialect tree.chars = .ok fresh) : rule.process tree =
      .ok ((Node.branch { tree.label with span := fresh.span } fresh.children).mapBlocks
        alignBlock) := by
  rw [Rule.process, if_pos (supports_dialect tree.dialect)]
  show (reparse name tree >>= fun tree => pure (tree.mapBlocks alignBlock)) = _
  -- What is read prints what was read: the mismatch that is looked for never occurs.
  have hchars : fresh.chars = tree.chars := chars_of_parseChars h
  unfold reparse
  rw [h]
  simp only [hchars, if_true]
  rfl

theorem process_eq_error {tree : Node} {cause : ParseError}
    (h : parseChars tree.dialect tree.chars = .error cause) :
    rule.process tree = .error (.reparse name cause) := by
  rw [Rule.process, if_pos (supports_dialect tree.dialect)]
  show (reparse name tree >>= fun tree => pure (tree.mapBlocks alignBlock)) = _
  unfold reparse
  rw [h]
  rfl

/-- **An aligned sheet under another root** prints the text of the sheet, with spaces before its
colons, between the marks of that root. -/
theorem chars_aligned_under {fresh : Node} (h : parseChars d source = .ok fresh) (l : Label) :
    ∃ text, SpacedOut source text ∧
      ((Node.branch l fresh.children).mapBlocks alignBlock).chars =
        (branchMarks l).1 ++ text ++ (branchMarks l).2 := by
  obtain ⟨ts, ns, hp⟩ := parsed_of_parseChars h
  have hchildren : fresh.children = ns := by
    rw [hp.tree_eq]
    rfl
  refine ⟨Token.loose (width fresh) ts, ?_, ?_⟩
  · have hspaced := Token.spacedOut_loose hp.spelled (onColons hp).colon
    rwa [(tokens_eq_ok.1 hp.tokens_eq).textOf_eq] at hspaced
  · rw [← chars_aligned hp, hp.chars_mapBlocks, hchildren, mapBlocks_branch, chars]

/-- **What colon alignment does to the text of a tree**, whatever the tree. It fails exactly if the
text cannot be read, and a run that fails leaves the tree as it was. Otherwise it puts spaces before
colons and the marks of the root around the whole text, which held them already. So the text is the
old one with spaces before colons exactly if the root prints no marks. -/
theorem process_text (tree : Node) :
    (∃ cause, parseChars tree.dialect tree.chars = .error cause ∧
      rule.process tree = .error (.reparse name cause) ∧
      (Tidier.mk [rule]).processTree tree = (tree, .error (.reparse name cause))) ∨
    (∃ next text, rule.process tree = .ok next ∧ SpacedOut tree.chars text ∧
      next.chars = (branchMarks tree.label).1 ++ text ++ (branchMarks tree.label).2 ∧
      (SpacedOut tree.chars next.chars ↔ branchMarks tree.label = ([], []))) := by
  cases h : parseChars tree.dialect tree.chars with
  | error cause =>
    have herror := process_eq_error h
    refine .inl ⟨cause, rfl, herror, ?_⟩
    simp only [Tidier.processTree, Tidier.runRules, supports_dialect, if_true, herror]
  | ok fresh =>
    obtain ⟨text, hspaced, hchars⟩ := chars_aligned_under h { tree.label with span := fresh.span }
    refine .inr ⟨_, text, process_of_parseChars_chars h, hspaced, hchars, ?_⟩
    rw [hchars]
    exact hspaced.marked_iff { tree.label with span := fresh.span }

-- A root block prints its braces into the text, and once more around it.
example : (rule.process (.branch ⟨.block, .css, .unplaced⟩
    [.ofText .raw .css ['a', ':', ' ', 'b']])).toOption.map Node.chars =
      some ['{', '{', 'a', ':', ' ', 'b', '}', '}'] := by
  decide +kernel

end Colons

end TidySheet
