import Mathlib.Control.Monad.Basic
import TidySheet.Proofs.Spans

/-!
# What parse errors point at

An error of the lexer points at the construct that the end of the text cuts off, an error of the
parser at a bracket without its partner. `ParseError.Culprit` says what the text has there, without
a word of how it is read.

* `culprit_of_lexeme` — what the lexer refuses;
* `StrayParen`, `StrayBracket` — the tokens that the parser refuses, passed along by every function
  that reads values, statements, blocks and lines;
* `culprit_of_parse` — every error points at its culprit, sass knows no errors about braces, and
  errors of the lexer come first.
-/

set_option autoImplicit false

namespace TidySheet

/-! ## What the text has at the place of an error -/

/-- The number of backslashes that a text ends with. -/
def backslashes (s : List Char) : Nat := (s.reverse.takeWhile (· == '\\')).length

namespace ParseError

/-- What the text has from the place of an error on. A quote behind an odd number of backslashes is
the second character of a backslash pair. -/
def Culprit (rest : List Char) : ParseError → Prop
  | .unterminatedComment _ => ∃ tail, rest = '/' :: '*' :: tail ∧ ¬ ['*', '/'] <:+: tail
  | .unterminatedString _ => ∃ quote tail, quote ∈ ['"', '\''] ∧ rest = quote :: tail ∧
    ∀ a b, tail = a ++ quote :: b → backslashes a % 2 = 1
  | .unclosed .url _ => ∃ name tail, name.map Char.toLower = ['u', 'r', 'l'] ∧
    rest = name ++ '(' :: tail ∧ ')' ∉ tail
  | .unclosed .block _ => ['{'] <+: rest
  | .unclosed .parentheses _ => ['('] <+: rest
  | .unexpected found _ => found <+: rest ∧ (found = ['}'] ∨ found = [')'])

/-- Whether it is the lexer that refuses the text. -/
def IsLexical : ParseError → Prop
  | .unterminatedComment _ => True
  | .unterminatedString _ => True
  | .unclosed what _ => what = .url
  | .unexpected _ _ => False

/-- The error stands in `text`, which starts at `p`, at its culprit. -/
def PointsInto (e : ParseError) (p : Position) (text : List Char) : Prop :=
  ∃ before rest, text = before ++ rest ∧ e.position = p.after before ∧ e.Culprit rest

end ParseError

/-! ## What the end of the text cuts off -/

theorem not_infix_of_commentLength? {cs : List Char} (h : commentLength? cs = none) :
    ¬ ['*', '/'] <:+: cs := by
  fun_induction commentLength? cs with
  | case1 => cases h
  | case2 c cs hne ih =>
    intro hin
    rcases List.infix_cons_iff.1 hin with hpre | hin
    · obtain ⟨rest, hrest⟩ := hpre
      cases hrest
      exact hne rest rfl rfl
    · exact ih (Option.map_eq_none_iff.1 h) hin
  | case3 => simp

theorem not_mem_of_urlLength? {cs : List Char} (h : urlLength? cs = none) : ')' ∉ cs := by
  fun_induction urlLength? cs with
  | case1 => simp
  | case2 => cases h
  | case3 c cs hc ih =>
    have hcs := ih (Option.map_eq_none_iff.1 h)
    simp [hcs, Ne.symm hc]

theorem backslashes_cons (c : Char) (s : List Char) :
    backslashes (c :: s) =
      if backslashes s = s.length then s.length + (if c = '\\' then 1 else 0)
      else backslashes s := by
  unfold backslashes
  rw [List.reverse_cons, List.takeWhile_append, List.length_reverse]
  split
  · by_cases hc : c = '\\' <;> simp [hc]
  · rfl

theorem backslashes_le (s : List Char) : backslashes s ≤ s.length := by
  have hle := (List.takeWhile_sublist (· == '\\') (l := s.reverse)).length_le
  rw [List.length_reverse] at hle
  exact hle

/-- Every later quote is behind an odd number of backslashes. -/
theorem odd_of_stringLength? {quote : Char} (hq : quote ≠ '\\') {cs : List Char}
    (h : stringLength? quote cs = none) :
    ∀ a b, cs = a ++ quote :: b → backslashes a % 2 = 1 := by
  fun_induction stringLength? quote cs with
  | case1 => simp
  | case2 =>
    intro a b hab
    cases a with
    | nil =>
      rw [List.nil_append, List.cons.injEq] at hab
      exact absurd hab.1.symm hq
    | cons c a => simp at hab
  | case3 x cs ih =>
    intro a b hab
    rcases a with _ | ⟨c, _ | ⟨y, a⟩⟩
    · rw [List.nil_append, List.cons.injEq] at hab
      exact absurd hab.1.symm hq
    · rw [List.singleton_append, List.cons.injEq] at hab
      rw [← hab.1]
      rfl
    · simp only [List.cons_append, List.cons.injEq] at hab
      obtain ⟨rfl, rfl, hcs⟩ := hab
      have hodd := ih (Option.map_eq_none_iff.1 h) a b hcs
      have hle := backslashes_le a
      rw [backslashes_cons, backslashes_cons, List.length_cons, if_pos rfl]
      by_cases hall : backslashes a = a.length
      · rw [if_pos hall]
        split <;> split <;> omega
      · rw [if_neg hall, if_neg (by omega)]
        exact hodd
  | case4 => cases h
  | case5 c cs _ hpair hc ih =>
    intro a b hab
    cases a with
    | nil =>
      rw [List.nil_append, List.cons.injEq] at hab
      exact absurd hab.1 hc
    | cons y a =>
      rw [List.cons_append, List.cons.injEq] at hab
      obtain ⟨rfl, hcs⟩ := hab
      have hodd := ih (Option.map_eq_none_iff.1 h) a b hcs
      have hy : c ≠ '\\' := by
        rintro rfl
        cases cs with
        | nil => simp at hcs
        | cons x cs => exact hpair x cs rfl rfl
      rw [backslashes_cons, if_neg hy]
      split <;> omega

theorem orCutoff_eq_error {cutoff cutoff' : Cutoff} {kind : TokenKind} {before : Nat}
    {n? : Option Nat} (h : orCutoff cutoff kind before n? = .error cutoff') :
    n? = none ∧ cutoff' = cutoff := by
  cases n? with
  | none => cases h; exact ⟨rfl, rfl⟩
  | some n => cases h

theorem startsUnquoted_eq_true {cs : List Char} (h : startsUnquoted cs = true) :
    ∃ tail, cs = '(' :: tail := by
  unfold startsUnquoted at h
  split at h
  · exact ⟨_, rfl⟩
  · cases h

variable {d : Dialect} {c : Char} {cs : List Char} {cutoff : Cutoff}

/-- A name is cut off only as a url. -/
theorem culprit_of_nameExtent (p : Position) (h : nameExtent cs = .error cutoff) :
    (cutoff.at p).Culprit cs := by
  unfold nameExtent at h
  dsimp only at h
  split at h
  · rename_i hurl
    obtain ⟨hnone, rfl⟩ := orCutoff_eq_error h
    rw [Bool.and_eq_true] at hurl
    obtain ⟨tail, htail⟩ := startsUnquoted_eq_true hurl.2
    have hmem := not_mem_of_urlLength? hnone
    rw [htail] at hmem
    refine ⟨cs.take (nameLength 0 cs), tail, by simpa [isUrlName] using hurl.1, ?_,
      fun hm => hmem (List.mem_cons_of_mem _ hm)⟩
    rw [← htail, List.take_append_drop]
  · cases h

/-- **What the end of a text cuts off**: a comment without its end, a string without its quote, a
url without its parenthesis. -/
theorem culprit_of_lexeme (p : Position) (h : lexeme d c cs = .error cutoff) :
    (cutoff.at p).Culprit (c :: cs) := by
  rw [lexeme] at h
  rcases ite_eq_iff.1 h with ⟨-, h⟩ | ⟨-, h⟩
  · cases h
  rcases ite_eq_iff.1 h with ⟨-, h⟩ | ⟨-, h⟩
  · cases h
  rcases ite_eq_iff.1 h with ⟨hc, h⟩ | ⟨-, h⟩
  · obtain ⟨hnone, rfl⟩ := orCutoff_eq_error h
    simp only [Bool.and_eq_true, beq_iff_eq] at hc
    obtain ⟨tail, rfl⟩ := List.head?_eq_some_iff.1 hc.2
    rw [hc.1]
    exact ⟨tail, rfl, not_infix_of_commentLength? hnone⟩
  rcases ite_eq_iff.1 h with ⟨-, h⟩ | ⟨-, h⟩
  · cases h
  rcases ite_eq_iff.1 h with ⟨hc, h⟩ | ⟨-, h⟩
  · obtain ⟨hnone, rfl⟩ := orCutoff_eq_error h
    simp only [Bool.or_eq_true, beq_iff_eq] at hc
    have hq : c ≠ '\\' := by
      rintro rfl
      exact absurd hc (by decide)
    exact ⟨c, cs, by simpa using hc, rfl, odd_of_stringLength? hq hnone⟩
  rcases ite_eq_iff.1 h with ⟨-, h⟩ | ⟨-, h⟩
  · cases h
  rcases ite_eq_iff.1 h with ⟨-, h⟩ | ⟨-, h⟩
  · cases h
  rcases ite_eq_iff.1 h with ⟨-, h⟩ | ⟨-, h⟩
  · exact culprit_of_nameExtent p h
  -- what else can stand here is never cut off
  rcases ite_eq_iff.1 h with ⟨-, h⟩ | ⟨-, h⟩
  · cases h
  rcases ite_eq_iff.1 h with ⟨-, h⟩ | ⟨-, h⟩
  · cases h
  rcases ite_eq_iff.1 h with ⟨-, h⟩ | ⟨-, h⟩
  · cases h
  · cases h

theorem Cutoff.isLexical_at (p : Position) (cutoff : Cutoff) : (cutoff.at p).IsLexical := by
  cases cutoff <;> trivial

theorem Cutoff.position_at (p : Position) (cutoff : Cutoff) : (cutoff.at p).position = p := by
  cases cutoff <;> rfl

/-- The lexer points at what it refuses. -/
theorem pointsInto_of_tokens {p : Position} {e : ParseError} (h : tokens d p cs = .error e) :
    e.PointsInto p cs ∧ e.IsLexical := by
  fun_induction tokens d p cs with
  | case1 => cases h
  | case2 p c cs cutoff he =>
    cases h
    exact ⟨⟨[], c :: cs, rfl, cutoff.position_at p, culprit_of_lexeme p he⟩,
      cutoff.isLexical_at p⟩
  | case3 p c cs extent _ text e' ht ih =>
    cases h
    obtain ⟨⟨before, rest, hcut, hpos, hculprit⟩, hlex⟩ := ih ht
    refine ⟨⟨text ++ before, rest, ?_, ?_, hculprit⟩, hlex⟩
    · rw [List.append_assoc, ← hcut, List.cons_append, List.take_append_drop]
    · rw [Position.after_append, hpos]
  | case4 => cases h

/-! ## Brackets without a partner -/

theorem bind_eq_error {ε α β : Type} {x : Except ε α} {f : α → Except ε β} {e : ε} :
    x >>= f = .error e ↔ x = .error e ∨ ∃ a, x = .ok a ∧ f a = .error e := by
  cases x with
  | error e' =>
    constructor
    · intro h; cases h; exact .inl rfl
    · rintro (h | ⟨a, h, -⟩)
      · cases h; rfl
      · cases h
  | ok a =>
    constructor
    · intro h; exact .inr ⟨a, rfl, h⟩
    · rintro (h | ⟨a', h, h'⟩)
      · cases h
      · cases h; exact h'

/-- The error names a parenthesis among the tokens. -/
inductive StrayParen (ts : List Token) : ParseError → Prop
  | closing {t : Token} (ht : t ∈ ts) (hk : t.kind = .rightParen) : StrayParen ts t.unexpected
  | opening {t : Token} (ht : t ∈ ts) (hk : t.kind = .leftParen) :
      StrayParen ts (t.unclosed .parentheses)

/-- The error names a parenthesis or a brace among the tokens. -/
inductive StrayBracket (ts : List Token) : ParseError → Prop
  | paren {e : ParseError} (h : StrayParen ts e) : StrayBracket ts e
  | closing {t : Token} (ht : t ∈ ts) (hk : t.kind = .rightBrace) : StrayBracket ts t.unexpected
  | opening {t : Token} (ht : t ∈ ts) (hk : t.kind = .leftBrace) :
      StrayBracket ts (t.unclosed .block)

theorem StrayParen.mono {ts us : List Token} {e : ParseError} (h : StrayParen ts e)
    (hs : ts ⊆ us) : StrayParen us e := by
  cases h with
  | closing ht hk => exact .closing (hs ht) hk
  | opening ht hk => exact .opening (hs ht) hk

theorem StrayBracket.mono {ts us : List Token} {e : ParseError} (h : StrayBracket ts e)
    (hs : ts ⊆ us) : StrayBracket us e := by
  cases h with
  | paren h => exact .paren (h.mono hs)
  | closing ht hk => exact .closing (hs ht) hk
  | opening ht hk => exact .opening (hs ht) hk

variable {e : ParseError} {ts : List Token}

/-! ### Values -/

namespace Value

theorem State.strayParen_of_step {s : State} {p : Piece} (hp : p.Of d ts)
    (h : s.step d p = .error e) : StrayParen ts e := by
  cases hp with
  | leaf t => cases h
  | important => cases h
  | opening name hk => cases h
  | closing hk =>
    unfold State.step at h
    dsimp only at h
    split at h
    · cases h
      exact .closing (List.mem_singleton_self _) hk
    · cases h

theorem State.strayParen_of_foldlM {ps : List Piece} (hp : PiecesOf d ps ts) :
    ∀ {s : State}, ps.foldlM (State.step d) s = .error e → StrayParen ts e := by
  induction hp with
  | nil =>
    intro s h
    cases h
  | cons hp _ ih =>
    intro s h
    rw [List.foldlM_cons] at h
    rcases bind_eq_error.1 h with h | ⟨s', -, h⟩
    · exact (State.strayParen_of_step hp h).mono (List.subset_append_left _ _)
    · exact (ih h).mono (List.subset_append_right _ _)

/-- A value is refused for one of its parentheses. -/
theorem strayParen_of_nodes (h : nodes d ts = .error e) : StrayParen ts e := by
  rcases bind_eq_error.1 h with h | ⟨s, hf, h⟩
  · exact State.strayParen_of_foldlM (piecesOf_pieces ts) h
  · have hs : State.start.Has d [] := ⟨[], [], .nil, .nil, rfl⟩
    obtain ⟨outer, inner, ho, -, ht⟩ := hs.foldlM (piecesOf_pieces ts) hf
    obtain ⟨groups, nodes⟩ := s
    cases ho with
    | nil => cases h
    | cons hk _ _ =>
      cases h
      rw [List.nil_append] at ht
      exact .opening (by simp [ht]) hk

end Value

/-! ### Statements -/

namespace Statement

open Token

theorem trimEnd_subset (ts : List Token) : (trimEnd ts).1 ⊆ ts := by
  have hsub := List.subset_append_left (trimEnd ts).1 (trimEnd ts).2
  rwa [trimEnd_append] at hsub

theorem trimStart_subset (ts : List Token) : (trimStart ts).2 ⊆ ts := by
  have hsub := List.subset_append_right (trimStart ts).1 (trimStart ts).2
  rwa [trimStart_append] at hsub

theorem strayParen_of_declaration {before behind : List Token} {colon : Token}
    (h : declaration d before colon behind = .error e) : StrayParen behind e := by
  unfold declaration at h
  rcases bind_eq_error.1 h with h | ⟨value, -, h⟩
  · exact (Value.strayParen_of_nodes h).mono (trimStart_subset behind)
  · cases h

theorem strayParen_of_plain (h : plain d ts = .error e) : StrayParen ts e := by
  have hsub := List.Subset.trans (trimEnd_subset (trimStart ts).2) (trimStart_subset ts)
  unfold plain at h
  generalize hl : trimStart ts = lr at h hsub
  obtain ⟨leading, rest⟩ := lr
  generalize hc : trimEnd rest = ct at h hsub
  obtain ⟨core, trailing⟩ := ct
  simp only [hc] at h hsub
  split at h
  · cases h
  split at h
  · cases h
  · rename_i before colon behind hcut
    rcases bind_eq_error.1 h with h | ⟨n, -, h⟩
    · obtain ⟨hcore, -⟩ := cutColon?_eq 0 hcut
      apply (strayParen_of_declaration h).mono
      intro t ht
      apply hsub
      rw [hcore]
      exact List.mem_append_right _ (List.mem_cons_of_mem _ ht)
    · cases h

theorem strayParen_of_withoutBlock (h : withoutBlock d ts = .error e) : StrayParen ts e := by
  unfold withoutBlock at h
  split at h
  · cases h
  split at h
  · unfold plainAtrule at h
    rcases bind_eq_error.1 h with h | ⟨value, -, h⟩
    · apply (Value.strayParen_of_nodes h).mono
      exact List.Subset.trans (trimEnd_subset _) (List.subset_cons_self _ _)
    · cases h
  · exact strayParen_of_plain h

theorem strayParen_of_withBlock {block : Node} (h : withBlock d ts block = .error e) :
    StrayParen ts e := by
  unfold withBlock at h
  split at h
  · cases h
  split at h
  · unfold blockAtrule at h
    rcases bind_eq_error.1 h with h | ⟨value, -, h⟩
    · apply (Value.strayParen_of_nodes h).mono
      exact List.Subset.trans (trimEnd_subset _) (List.subset_cons_self _ _)
    · cases h
  · cases h

end Statement

/-! ### Blocks between braces -/

namespace Braces

open Statement

namespace Reader

variable {r : Reader} {t : Token}

theorem strayParen_of_endStatement (h : r.endStatement d = .error e) :
    StrayParen r.head.reverse e := by
  unfold endStatement at h
  rcases bind_eq_error.1 h with h | ⟨ns, -, h⟩
  · exact strayParen_of_withoutBlock h
  · cases h

theorem Has.head_subset (h : r.Has d ts) : r.head.reverse ⊆ ts := by
  obtain ⟨outer, inner, -, -, -, rfl⟩ := h
  exact List.Subset.trans (List.subset_append_right _ _) (List.subset_append_right _ _)

/-- An open block keeps tokens that were read. -/
theorem Has.block_mem {b : OpenBlock} {bs : List OpenBlock} (h : r.Has d ts)
    (hb : r.blocks = b :: bs) : b.head ⊆ ts ∧ b.brace ∈ ts ∧ b.brace.kind = .leftBrace := by
  obtain ⟨outer, inner, ho, -, -, rfl⟩ := h
  rw [hb] at ho
  cases ho with
  | cons _ hk _ _ =>
    refine ⟨fun u hu => ?_, ?_, hk⟩
    · simp [hu]
    · simp

/-- **One token**: it is refused as a closing brace, or a statement that it ends is. -/
theorem Has.strayBracket_of_step (h : r.Has d ts) (hs : r.step d t = .error e) :
    StrayBracket (ts ++ [t]) e := by
  have hstatement : ∀ {e}, r.endStatement d = .error e → StrayBracket (ts ++ [t]) e :=
    fun he => .paren ((strayParen_of_endStatement he).mono
      (List.Subset.trans h.head_subset (List.subset_append_left _ _)))
  unfold Reader.step at hs
  split at hs
  · split at hs
    · cases hs
    · rcases bind_eq_error.1 hs with hs | ⟨r', -, hs⟩
      · exact hstatement hs
      · cases hs
    · rename_i hk
      rcases bind_eq_error.1 hs with hs | ⟨r', hr, hs⟩
      · exact hstatement hs
      · obtain ⟨own, -, rfl⟩ := endStatement_eq_ok.1 hr
        unfold Reader.closeBlock at hs
        split at hs
        · cases hs
          exact .closing (by simp) hk
        · rename_i b bs hb
          rcases bind_eq_error.1 hs with hs | ⟨n, -, hs⟩
          · exact .paren ((strayParen_of_withBlock hs).mono
              (List.Subset.trans (h.block_mem hb).1 (List.subset_append_left _ _)))
          · cases hs
    · split at hs <;> cases hs
  · cases hs

theorem Has.strayBracket_of_foldlM : ∀ (us : List Token) {r : Reader} {ts : List Token},
    r.Has d ts → us.foldlM (Reader.step d) r = .error e → StrayBracket (ts ++ us) e
  | [], r, ts, _, hf => by cases hf
  | u :: us, r, ts, h, hf => by
    rw [List.foldlM_cons] at hf
    have hcut : ts ++ u :: us = ts ++ [u] ++ us := by simp
    rw [hcut]
    rcases bind_eq_error.1 hf with hs | ⟨r', hr, hf⟩
    · exact StrayBracket.mono (h.strayBracket_of_step hs) (List.subset_append_left _ _)
    · exact Has.strayBracket_of_foldlM us (h.step hr) hf

theorem Has.strayBracket_of_finish (h : r.Has d ts) (hf : r.finish d = .error e) :
    StrayBracket ts e := by
  rcases bind_eq_error.1 hf with he | ⟨r', he, hf⟩
  · exact .paren ((strayParen_of_endStatement he).mono h.head_subset)
  · obtain ⟨own, -, rfl⟩ := endStatement_eq_ok.1 he
    dsimp only at hf
    split at hf
    · cases hf
    · rename_i b bs hb
      cases hf
      obtain ⟨-, hm, hk⟩ := h.block_mem hb
      exact .opening hm hk

end Reader

/-- A sheet between braces is refused for one of its brackets. -/
theorem strayBracket_of_nodes (h : nodes d ts = .error e) : StrayBracket ts e := by
  have hs : Reader.start.Has d [] := ⟨[], [], .nil, .nil, .nil, rfl⟩
  rcases bind_eq_error.1 h with h | ⟨r, hr, h⟩
  · exact Reader.Has.strayBracket_of_foldlM ts hs h
  · exact (Reader.Has.foldlM ts hs hr).strayBracket_of_finish h

end Braces

/-! ### Lines -/

namespace Lines

open Statement

theorem body_subset {l : Line} {ls : List Line} (hl : l ∈ ls) :
    l.body ⊆ ls.flatMap Line.tokens := by
  intro t ht
  refine List.mem_flatMap.2 ⟨l, hl, ?_⟩
  unfold Line.tokens
  exact List.mem_append_right _ (List.mem_append_right _ ht)

/-- Lines are refused for a parenthesis in one of them. -/
theorem strayParen_of_nodesOf {ls : List Line} (h : nodesOf ls = .error e) :
    StrayParen (ls.flatMap Line.tokens) e := by
  have htail : ∀ {l : Line} {ms ls : List Line}, ms ⊆ ls →
      ms.flatMap Line.tokens ⊆ (l :: ls).flatMap Line.tokens := by
    intro l ms ls hs t ht
    obtain ⟨m, hm, ht⟩ := List.mem_flatMap.1 ht
    exact List.mem_flatMap.2 ⟨m, List.mem_cons_of_mem _ (hs hm), ht⟩
  fun_induction nodesOf ls with
  | case1 => cases h
  | case2 l ls _ ih =>
    rcases bind_eq_error.1 h with h | ⟨rest, -, h⟩
    · exact (ih h).mono (htail (List.Subset.refl ls))
    · cases h
  | case3 l ls _ _ ih =>
    rcases bind_eq_error.1 h with h | ⟨own, -, h⟩
    · exact (strayParen_of_withoutBlock h).mono (body_subset List.mem_cons_self)
    rcases bind_eq_error.1 h with h | ⟨rest, -, h⟩
    · exact (ih h).mono (htail (List.Subset.refl ls))
    · cases h
  | case4 l ls _ _ ihi ih =>
    have hcut := cutBlock_append l ls
    have hinner : (cutBlock l ls).1 ⊆ ls := by
      have hsub := List.subset_append_left (cutBlock l ls).1 (cutBlock l ls).2
      rwa [hcut] at hsub
    have houter : (cutBlock l ls).2 ⊆ ls := by
      have hsub := List.subset_append_right (cutBlock l ls).1 (cutBlock l ls).2
      rwa [hcut] at hsub
    rcases bind_eq_error.1 h with h | ⟨inner, -, h⟩
    · exact (ihi h).mono (htail hinner)
    rcases bind_eq_error.1 h with h | ⟨n, -, h⟩
    · exact (strayParen_of_withBlock h).mono (body_subset List.mem_cons_self)
    rcases bind_eq_error.1 h with h | ⟨rest, -, h⟩
    · exact (ih h).mono (htail houter)
    · cases h

/-- A sheet of lines is refused for one of its parentheses. -/
theorem strayParen_of_nodes (h : nodes ts = .error e) : StrayParen ts e := by
  have hlines := strayParen_of_nodesOf h
  rw [flatMap_tokens_cut] at hlines
  simpa using hlines

end Lines

/-! ## Errors and their culprits -/

theorem strayBracket_of_sheetNodes (h : sheetNodes d ts = .error e) : StrayBracket ts e := by
  unfold sheetNodes at h
  split at h
  · exact Braces.strayBracket_of_nodes h
  · exact .paren (Lines.strayParen_of_nodes h)

/-- A token stands in the text at the start of its span. -/
theorem Lexes.stands {p : Position} {t : Token} (h : Lexes d p cs ts) (ht : t ∈ ts) :
    ∃ before rest, cs = before ++ rest ∧ t.span.first = p.after before ∧ t.text <+: rest := by
  induction h with
  | nil => cases ht
  | @cons p c a r k ts _ _ ih =>
    rcases List.mem_cons.1 ht with rfl | ht
    · exact ⟨[], c :: (a ++ r), rfl, rfl, List.prefix_append (c :: a) r⟩
    · obtain ⟨before, rest, hr, hp, hrest⟩ := ih ht
      refine ⟨c :: a ++ before, rest, ?_, ?_, hrest⟩
      · rw [hr, List.append_assoc]
        rfl
      · rw [hp, Position.after_append]

/-- A bracket without a partner is the culprit of its error. -/
theorem Lexes.pointsInto {p : Position} (h : Lexes d p cs ts) (hs : StrayBracket ts e) :
    e.PointsInto p cs ∧ ¬ e.IsLexical := by
  have hspelled := h.spelled
  cases hs with
  | paren hs =>
    cases hs with
    | @closing t ht hk =>
      have htext : t.text = [')'] := by simpa [Token.Spelled, hk] using hspelled t ht
      obtain ⟨before, rest, hcs, hp, hrest⟩ := h.stands ht
      exact ⟨⟨before, rest, hcs, hp, hrest, .inr htext⟩, id⟩
    | @opening t ht hk =>
      have htext : t.text = ['('] := by simpa [Token.Spelled, hk] using hspelled t ht
      obtain ⟨before, rest, hcs, hp, hrest⟩ := h.stands ht
      rw [htext] at hrest
      exact ⟨⟨before, rest, hcs, hp, hrest⟩, by simp [Token.unclosed, ParseError.IsLexical]⟩
  | @closing t ht hk =>
    have htext : t.text = ['}'] := by simpa [Token.Spelled, hk] using hspelled t ht
    obtain ⟨before, rest, hcs, hp, hrest⟩ := h.stands ht
    exact ⟨⟨before, rest, hcs, hp, hrest, .inl htext⟩, id⟩
  | @opening t ht hk =>
    have htext : t.text = ['{'] := by simpa [Token.Spelled, hk] using hspelled t ht
    obtain ⟨before, rest, hcs, hp, hrest⟩ := h.stands ht
    rw [htext] at hrest
    exact ⟨⟨before, rest, hcs, hp, hrest⟩, by simp [Token.unclosed, ParseError.IsLexical]⟩

/-- The parser refuses what the lexer refuses, and else what has a bracket without a partner. -/
theorem parseChars_eq_error : parseChars d cs = .error e ↔
    tokens d .origin cs = .error e ∨
      ∃ ts, tokens d .origin cs = .ok ts ∧ sheetNodes d ts = .error e := by
  unfold parseChars
  rw [bind_eq_error]
  constructor
  · rintro (h | ⟨ts, ht, h⟩)
    · exact .inl h
    rcases bind_eq_error.1 h with h | ⟨ns, -, h⟩
    · exact .inr ⟨ts, ht, h⟩
    · cases h
  · rintro (h | ⟨ts, ht, h⟩)
    · exact .inl h
    · exact .inr ⟨ts, ht, bind_eq_error.2 (.inl h)⟩

/-- An error about a brace. -/
def ParseError.IsBrace : ParseError → Prop
  | .unclosed what _ => what = .block
  | .unexpected found _ => found = ['}']
  | _ => False

theorem not_isBrace_of_strayParen {p : Position} (h : Lexes d p cs ts) (hs : StrayParen ts e) :
    ¬ e.IsBrace := by
  cases hs with
  | @closing t ht hk =>
    have htext : t.text = [')'] := by simpa [Token.Spelled, hk] using h.spelled t ht
    simp [Token.unexpected, ParseError.IsBrace, htext]
  | opening => simp [Token.unclosed, ParseError.IsBrace]

theorem not_isBrace_of_isLexical (h : e.IsLexical) : ¬ e.IsBrace := by
  cases e with
  | unclosed what p =>
    have hw : what = .url := h
    simp [ParseError.IsBrace, hw]
  | unexpected => exact h.elim
  | unterminatedComment => exact id
  | unterminatedString => exact id

/-- **Parse errors point at a culprit.** Whatever the dialect and the sheet, the place of an error
is one of the sheet, counted by newlines and characters, and the culprit stands there; in sass it
is never a brace. An error of the lexer is reported whenever there is one. -/
theorem culprit_of_parse (d : Dialect) (source : String) :
    (∀ e, parse d source = .error e →
      (∃ before rest, source.toList = before ++ rest ∧ e.position = .behind before ∧
        e.Culprit rest) ∧ (d = .sass → ¬ e.IsBrace)) ∧
    ∀ e, tokens d .origin source.toList = .error e ↔
      parse d source = .error e ∧ e.IsLexical := by
  refine ⟨fun e h => ?_, fun e => ?_⟩
  · have hpoints : e.PointsInto .origin source.toList ∧ (d = .sass → ¬ e.IsBrace) := by
      rcases parseChars_eq_error.1 h with ht | ⟨ts, ht, hn⟩
      · obtain ⟨hp, hlex⟩ := pointsInto_of_tokens ht
        exact ⟨hp, fun _ => not_isBrace_of_isLexical hlex⟩
      · have hl := tokens_eq_ok.1 ht
        refine ⟨(hl.pointsInto (strayBracket_of_sheetNodes hn)).1, ?_⟩
        rintro rfl
        exact not_isBrace_of_strayParen hl (Lines.strayParen_of_nodes hn)
    obtain ⟨⟨before, rest, hcut, hpos, hculprit⟩, hsass⟩ := hpoints
    exact ⟨⟨before, rest, hcut, hpos.trans (Position.behind_append [] before).symm, hculprit⟩,
      hsass⟩
  · constructor
    · intro h
      exact ⟨parseChars_eq_error.2 (.inl h), (pointsInto_of_tokens h).2⟩
    · rintro ⟨h, hlex⟩
      rcases parseChars_eq_error.1 h with ht | ⟨ts, ht, hn⟩
      · exact ht
      · have hstray := (tokens_eq_ok.1 ht).pointsInto (strayBracket_of_sheetNodes hn)
        exact absurd hlex hstray.2

/-- A sheet with an open block, an open group and a string in it that only escaped quotes follow. -/
def brokenSheet : String := "a \x7b\n  b: f(\"c\\\"\n\x7d"

theorem culprit_of_parse_broken :
    parse .css brokenSheet = .error (.unterminatedString ⟨2, 8⟩) ∧
    (∃ before rest, brokenSheet.toList = before ++ rest ∧ ⟨2, 8⟩ = Position.behind before ∧
      (ParseError.unterminatedString ⟨2, 8⟩).Culprit rest) ∧
    tokens .css .origin brokenSheet.toList = .error (.unterminatedString ⟨2, 8⟩) := by
  have hlex : tokens .css .origin brokenSheet.toList = .error (.unterminatedString ⟨2, 8⟩) := by
    decide +kernel
  have hread : parse .css brokenSheet = .error (.unterminatedString ⟨2, 8⟩) :=
    parseChars_eq_error.2 (.inl hlex)
  obtain ⟨hpoints, hlexical⟩ := culprit_of_parse .css brokenSheet
  exact ⟨hread, (hpoints _ hread).1, (hlexical _).2 ⟨hread, trivial⟩⟩

end TidySheet
