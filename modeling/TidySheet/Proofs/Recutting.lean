import TidySheet.Proofs.Places
import TidySheet.Proofs.Regrouping
import TidySheet.Proofs.WellFormed

/-!
# Cutting a text into tokens

* `Cuts` — a text is cut into its tokens, wherever it starts;
* `Token.CutFrom.of_loosened`, `Token.CutFrom.of_isClosed` — a token is cut off in front of other
  texts;
* `Cuts.exists_parse` — the text of cut tokens is read into what the tokens are read into.
-/

set_option autoImplicit false

namespace TidySheet

open Token

variable {d : Dialect}

/-! ## Cutting a text -/

/-- The token is the one that the lexer reads off its text with `rest` behind it. -/
def Token.CutFrom (d : Dialect) (rest : List Char) (t : Token) : Prop :=
  ∃ c a, t.text = c :: a ∧ lexeme d c (a ++ rest) = .ok ⟨t.kind, a.length + 1⟩

/-- The text of the tokens is cut into them, wherever it starts. -/
def Cuts (d : Dialect) : List Token → Prop
  | [] => True
  | t :: ts => t.CutFrom d (textOf ts) ∧ Cuts d ts

theorem Lexes.cuts {p : Position} {cs : List Char} {ts : List Token} (h : Lexes d p cs ts) :
    Cuts d ts := by
  induction h with
  | nil p => trivial
  | @cons p c a r k ts he h ih =>
    refine ⟨⟨c, a, rfl, ?_⟩, ih⟩
    rw [h.textOf_eq]
    exact he

theorem Cuts.exists_lexes {ts : List Token} (h : Cuts d ts) (p : Position) :
    ∃ us, Lexes d p (textOf ts) us ∧ us.map unplace = ts.map unplace := by
  induction ts generalizing p with
  | nil => exact ⟨[], .nil p, rfl⟩
  | cons t ts ih =>
    obtain ⟨⟨c, a, ht, he⟩, hts⟩ := h
    obtain ⟨us, hus, hmap⟩ := ih hts (p.after (c :: a))
    refine ⟨⟨t.kind, c :: a, .ofText p (c :: a)⟩ :: us, ?_, ?_⟩
    · rw [textOf_cons, ht]
      exact .cons he hus
    · rw [List.map_cons, List.map_cons, hmap, unplace, unplace, ht]

/-- A comment that runs to the end of its line starts with two slashes. -/
theorem of_lexeme_lineComment {c : Char} {cs : List Char} {n : Nat}
    (h : lexeme d c cs = .ok ⟨.lineComment, n⟩) :
    (∃ rest, c = '/' ∧ cs = '/' :: rest) ∧ n = 1 + lineLength cs := by
  generalize hext : Extent.mk .lineComment n = e at h
  cases lexed_of_lexeme h with
  | lineComment hc hcs => exact ⟨⟨_, hc, hcs⟩, (Extent.mk.inj hext).2⟩
  | mark =>
    have hmark : TokenKind.lineComment = markKind c := (Extent.mk.inj hext).1
    unfold markKind at hmark
    split at hmark <;> cases hmark
  | _ => cases hext

namespace Token.CutFrom

variable {t : Token} {r r' : List Char}

theorem spelled (h : t.CutFrom d r) : t.Spelled := by
  obtain ⟨c, a, ht, he⟩ := h
  obtain ⟨k, text, s⟩ := t
  obtain rfl : text = c :: a := ht
  have hs := lexeme_spelled s he
  rw [Nat.add_sub_cancel, List.take_left] at hs
  exact hs

theorem kind_ne_lineComment (h : t.CutFrom d r) (hd : d.hasLineComments = false) :
    t.kind ≠ .lineComment := by
  obtain ⟨c, a, -, he⟩ := h
  intro hk
  rw [hk] at he
  obtain ⟨⟨rest, hc, hcs⟩, -⟩ := of_lexeme_lineComment he
  have hcss : d = .css := by simpa [Dialect.hasLineComments] using hd
  have hmark : lexeme .css '/' ('/' :: rest) = .ok ⟨.delim '/', 1⟩ := rfl
  rw [hc, hcs, hcss, hmark] at he
  cases he

/-- A token that is no whitespace is cut off in front of whatever its text does not go on in. -/
theorem of_loosened (h : t.CutFrom d r) (hk : t.kind ≠ .whitespace) (hr : Loosened d r r') :
    t.CutFrom d r' := by
  obtain ⟨c, a, ht, he⟩ := h
  exact ⟨c, a, ht, hr.lexeme_eq hk he⟩

theorem isBlankIn (h : t.CutFrom d r) (hk : t.kind = .whitespace) :
    (t.text ≠ [] ∧ ∀ x ∈ t.text, TidySheet.isBlankIn d x = true) ∧
      ∀ x ∈ r.head?, TidySheet.isBlankIn d x = false := by
  obtain ⟨c, a, ht, he⟩ := h
  rw [hk] at he
  obtain ⟨hblank, hstop⟩ := isBlankIn_of_lexeme he
  rw [ht]
  exact ⟨⟨by simp, hblank⟩, hstop⟩

theorem of_blanks (hk : t.kind = .whitespace) (hne : t.text ≠ [])
    (hb : ∀ x ∈ t.text, TidySheet.isBlankIn d x = true)
    (hr : ∀ x ∈ r.head?, TidySheet.isBlankIn d x = false) : t.CutFrom d r := by
  obtain ⟨c, a, ht⟩ := List.exists_cons_of_ne_nil hne
  rw [ht] at hb
  refine ⟨c, a, ht, ?_⟩
  rw [hk]
  exact lexeme_blank (hb c (by simp)) (fun x hx => hb x (by simp [hx])) hr

/-- No other token starts with a blank. -/
theorem head_not_blank (h : t.CutFrom d r) (hk : t.kind ≠ .whitespace) (s : List Char) :
    ∀ x ∈ (t.text ++ s).head?, TidySheet.isBlankIn d x = false := by
  obtain ⟨c, a, ht, he⟩ := h
  rw [ht]
  intro x hx
  cases hx
  refine Bool.eq_false_iff.2 fun hb => hk ?_
  rw [TidySheet.isBlankIn, Bool.and_eq_true, Bool.not_eq_true'] at hb
  rw [lexeme, if_neg (by simp [hb.2]), if_pos hb.1] at he
  exact (of_ok_eq_ok he).1.symm

end Token.CutFrom

namespace Cuts

variable {ts : List Token} {t : Token}

theorem spelled (h : Cuts d ts) : ∀ t ∈ ts, t.Spelled := by
  induction ts with
  | nil => simp
  | cons t ts ih => exact List.forall_mem_cons.2 ⟨h.1.spelled, ih h.2⟩

theorem head_not_blank (h : Cuts d ts) (hk : ∀ t ∈ ts.head?, t.kind ≠ .whitespace) :
    ∀ x ∈ (textOf ts).head?, TidySheet.isBlankIn d x = false := by
  cases ts with
  | nil => simp
  | cons t ts => exact h.1.head_not_blank (hk t rfl) (textOf ts)

/-- Behind whitespace stands something else. -/
theorem kind_ne (h : Cuts d (t :: ts)) (hk : t.kind = .whitespace) :
    ∀ u ∈ ts.head?, u.kind ≠ .whitespace := by
  intro u hu hku
  obtain ⟨us, rfl⟩ := List.head?_eq_some_iff.1 hu
  obtain ⟨c, a, hc⟩ := List.exists_cons_of_ne_nil (h.2.1.isBlankIn hku).1.1
  have hblank := (h.2.1.isBlankIn hku).1.2 c (by simp [hc])
  have hstop := (h.1.isBlankIn hk).2 c (by simp [hc])
  rw [hblank] at hstop
  cases hstop

theorem exists_cutFrom (h : Cuts d ts) : ∀ t ∈ ts, ∃ r, t.CutFrom d r := by
  induction ts with
  | nil => simp
  | cons t ts ih => exact List.forall_mem_cons.2 ⟨⟨_, h.1⟩, ih h.2⟩

/-- **The text of cut tokens is read** into the nodes that the tokens are read into, at the places
of the text. -/
theorem exists_parse {ns : List Node} (h : Cuts d ts) (hn : sheetNodes d ts = .ok ns) :
    ∃ again, parseChars d (Node.charsOf ns) = .ok again ∧
      again.unplace = (Node.ofChildren .stylesheet d ns).unplace := by
  obtain ⟨us, hus, hplaces⟩ := h.exists_lexes .origin
  obtain ⟨ms, hms, hnodes⟩ := exists_sheetNodes hplaces.symm hn
  rw [(reading_sheetNodes hn).charsOf_eq h.spelled]
  refine ⟨_, bind_eq_ok.2 ⟨us, tokens_eq_ok.2 hus, bind_eq_ok.2 ⟨ms, hms, rfl⟩⟩, ?_⟩
  rw [Node.unplace_ofChildren, Node.unplace_ofChildren, hnodes]

end Cuts

/-! ## Closed tokens -/

/-- Tokens that are the same whatever stands behind them. -/
def Token.isClosed (t : Token) : Bool :=
  match t.kind with
  | .colon | .semicolon | .leftBrace | .rightBrace | .comment => true
  | _ => false

theorem Token.CutFrom.of_isClosed {t : Token} {r : List Char} (h : t.CutFrom d r)
    (hc : t.isClosed = true) (r' : List Char) : t.CutFrom d r' := by
  have hs := h.spelled
  obtain ⟨c, a, ht, he⟩ := h
  have hmark : ∀ x k, t.text = [x] → t.kind = k → lexeme d x r' = .ok ⟨k, 1⟩ → t.CutFrom d r' := by
    intro x k hx hk hx'
    exact ⟨x, [], hx, by rw [hk]; exact hx'⟩
  unfold isClosed at hc
  rw [Spelled] at hs
  split at hc
  · rename_i hk
    rw [hk] at hs
    exact hmark ':' _ hs hk (by cases d <;> rfl)
  · rename_i hk
    rw [hk] at hs
    exact hmark ';' _ hs hk (by cases d <;> rfl)
  · rename_i hk
    rw [hk] at hs
    exact hmark '{' _ hs hk (by cases d <;> rfl)
  · rename_i hk
    rw [hk] at hs
    exact hmark '}' _ hs hk (by cases d <;> rfl)
  · rename_i hk
    rw [hk] at hs he
    obtain ⟨inner, hinner⟩ := hs
    rw [ht] at hinner
    obtain ⟨b, rfl, rfl⟩ : ∃ b, c = '/' ∧ a = '*' :: b := ⟨_, List.cons.inj hinner⟩
    refine ⟨_, _, ht, ?_⟩
    have hfirst : ¬(('/' : Char) == '\n' && d == .sass) = true := by simp
    rw [hk, lexeme, if_neg hfirst, if_neg (by decide), if_pos (by simp)]
    rw [lexeme, if_neg hfirst, if_neg (by decide), if_pos (by simp)] at he
    obtain ⟨n, hn, hlen⟩ := orCutoff_eq_ok he
    have hlen : ('*' :: b).length + 1 = 2 + n := (Extent.mk.inj hlen).2
    rw [List.length_cons] at hlen
    have hcomment : commentLength? (b ++ r) = some b.length := by
      rw [show b.length = n by omega]
      exact hn
    rw [List.cons_append, List.tail_cons, commentLength?_append r' hcomment, orCutoff,
      List.length_cons, show 2 + b.length = b.length + 1 + 1 by omega]
  · cases hc

/-- Where no comment runs to the end of its line, what stands behind a closed token is of no matter
to what stands before it. -/
theorem loosened_of_isClosed (hd : d.hasLineComments = false) {t : Token} (h : t.isClosed = true)
    (hs : t.Spelled) (r r' : List Char) : Loosened d (t.text ++ r) (t.text ++ r') := by
  have hstop : ∀ c s, t.text = c :: s → isStop d c = true →
      Loosened d (t.text ++ r) (t.text ++ r') := by
    intro c s ht hc
    rw [ht]
    exact .stop (.of_stop hc _) (.of_stop hc _)
  rw [Spelled] at hs
  unfold isClosed at h
  split at h
  · rename_i hk
    rw [hk] at hs
    exact hstop _ _ hs rfl
  · rename_i hk
    rw [hk] at hs
    exact hstop _ _ hs (by simp [isStop, hd])
  · rename_i hk
    rw [hk] at hs
    rw [show t.text = ['{'] from hs]
    exact .brace r r'
  · rename_i hk
    rw [hk] at hs
    exact hstop _ _ hs (by simp [isStop, hd])
  · rename_i hk
    rw [hk] at hs
    obtain ⟨inner, hinner⟩ := hs
    exact hstop '/' _ hinner (by simp [isStop, hd])
  · cases h

/-- Where no comment runs to the end of its line, blanks of any kind may stand before a stop. -/
theorem Stops.blanks {b s : List Char} (h : Stops d s) (hd : d.hasLineComments = false)
    (hb : ∀ x ∈ b, isBlank x = true) : Stops d (b ++ s) := by
  induction b with
  | nil => exact h
  | cons x b ih =>
    refine (ih fun y hy => hb y (by simp [hy])).blank (hb x (by simp)) fun hc => ?_
    rw [hd] at hc
    cases hc

end TidySheet
