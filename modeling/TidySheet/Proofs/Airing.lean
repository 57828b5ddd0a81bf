import TidySheet.Proofs.Recutting

/-!
# Where whitespace may change

Behind a mark or a comment, whatever comes next is read on its own; before a mark or a comment,
whatever stands there has ended. In these gaps whitespace may come, go and change its width. A
comment that runs to the end of its line keeps its break, and where there are such comments a slash
must not meet the slash of a comment.

* `Slack` — what a token leaves to the gap behind it;
* `Aired` — tokens with other whitespace in their gaps;
* `Token.CutFrom.css`, `Token.CutFrom.of_css` — dialects differ in blanks and line comments alone;
* `Aired.cuts` — tokens with other whitespace are cut from their text.
-/

set_option autoImplicit false

namespace TidySheet

open Token

variable {d : Dialect}

/-! ## Gaps between tokens -/

/-- What may happen to whitespace at some point of a text. -/
inductive Slack where
  /-- Nothing, as behind whitespace. -/
  | stuck
  /-- It may be resized, as behind a comment that runs to the end of its line. -/
  | lined
  /-- It may change before a mark or a comment. -/
  | stiff
  /-- As `stiff`, but behind a slash. -/
  | slash
  /-- It may change, whatever comes next. -/
  | free
  deriving DecidableEq, Repr

namespace Token

/-- Marks and comments: no token before them goes on in their first character. -/
def isBarrier (t : Token) : Bool :=
  match t.kind with
  | .colon | .semicolon | .rightBrace | .comment | .lineComment => true
  | _ => false

def isComment (t : Token) : Bool := t.kind == .comment || t.kind == .lineComment

/-- A run of blanks. -/
structure IsGap (d : Dialect) (t : Token) : Prop where
  kind_eq : t.kind = .whitespace
  ne_nil : t.text ≠ []
  blank : ∀ x ∈ t.text, isBlankIn d x = true

end Token

namespace Slack

/-- What a token leaves to the gap behind it. -/
def past (t : Token) : Slack :=
  if t.kind = .whitespace then .stuck
  else if t.kind = .lineComment then .lined
  else if t.isClosed then .free
  else if t.kind = .delim '/' then .slash
  else .stiff

/-- Whether whitespace may change before the tokens `ts`. -/
def Gives (s : Slack) (ts : List Token) : Prop :=
  s = .free ∨ (s = .stiff ∨ s = .slash) ∧ ∃ t ∈ ts.head?, t.isBarrier = true

theorem past_of_whitespace {t : Token} (h : t.kind = .whitespace) : past t = .stuck := if_pos h

theorem past_of_isClosed {t : Token} (h : t.isClosed = true) : past t = .free := by
  have hk : t.kind ≠ .whitespace ∧ t.kind ≠ .lineComment := by
    unfold isClosed at h
    split at h <;> simp_all
  rw [past, if_neg hk.1, if_neg hk.2, if_pos h]

theorem past_of_lineComment {t : Token} (h : t.kind = .lineComment) : past t = .lined := by
  rw [past, if_neg (by simp [h]), if_pos h]

theorem past_of_slash {t : Token} (h : t.kind = .delim '/') : past t = .slash := by
  rw [past, if_neg (by simp [h]), if_neg (by simp [h]), if_neg (by simp [isClosed, h]), if_pos h]

theorem isClosed_of_past {t : Token} (h : past t = .free) : t.isClosed = true := by
  unfold past at h
  split at h
  · cases h
  split at h
  · cases h
  split at h
  · assumption
  · split at h <;> cases h

theorem kind_of_past {t : Token} (h : past t = .lined) : t.kind = .lineComment := by
  unfold past at h
  split at h
  · cases h
  split at h
  · assumption
  split at h
  · cases h
  · split at h <;> cases h

end Slack

/-- **Tokens with other whitespace in their gaps**; the slack is that of the point where they
start. -/
inductive Aired (d : Dialect) : Slack → List Token → List Token → Prop
  | nil (s : Slack) : Aired d s [] []
  | keep {s : Slack} (t : Token) {ts us : List Token} (h : Aired d (.past t) ts us) :
      Aired d s (t :: ts) (t :: us)
  | resize {s : Slack} {t u : Token} {ts us : List Token} (ht : t.kind = .whitespace)
      (hu : u.IsGap d)
      (hs : s.Gives ts ∨ s = .lined ∧ (t.text.head? = some '\n' → u.text.head? = some '\n'))
      (h : Aired d .stuck ts us) : Aired d s (t :: ts) (u :: us)
  | drop {s : Slack} {t : Token} {ts us : List Token} (ht : t.kind = .whitespace)
      (hs : s.Gives ts)
      (hslash : s = .slash → d.hasLineComments = true → ∀ u ∈ ts.head?, u.isComment = false)
      (h : Aired d .stuck ts us) : Aired d s (t :: ts) us
  | put {s : Slack} {u : Token} {ts us : List Token} (hu : u.IsGap d) (hs : s.Gives ts)
      (hts : ∀ t ∈ ts.head?, t.kind ≠ .whitespace) (h : Aired d .stuck ts us) :
      Aired d s ts (u :: us)

namespace Aired

variable {s : Slack} {ts us : List Token}

/-- Where nothing may change, both start with the same token. -/
theorem of_stuck (h : Aired d .stuck ts us) : ts = [] ∧ us = [] ∨
    ∃ t ts' us', ts = t :: ts' ∧ us = t :: us' ∧ Aired d (.past t) ts' us' := by
  have hgives : ∀ ts, ¬ Slack.stuck.Gives ts := by
    rintro ts (h | ⟨h | h, -⟩) <;> cases h
  cases h with
  | nil => exact .inl ⟨rfl, rfl⟩
  | keep t h => exact .inr ⟨t, _, _, rfl, rfl, h⟩
  | resize _ _ hs _ =>
    rcases hs with hs | ⟨hs, -⟩
    · exact absurd hs (hgives _)
    · cases hs
  | drop _ hs => exact absurd hs (hgives _)
  | put _ hs => exact absurd hs (hgives _)

/-- What can be done where nothing may change can be done anywhere. -/
theorem of_stuck_to (h : Aired d .stuck ts us) : Aired d s ts us := by
  rcases h.of_stuck with ⟨rfl, rfl⟩ | ⟨t, ts', us', rfl, rfl, h'⟩
  · exact .nil s
  · exact .keep t h'

theorem head?_eq (h : Aired d .stuck ts us) : us.head? = ts.head? := by
  rcases h.of_stuck with ⟨rfl, rfl⟩ | ⟨t, ts', us', rfl, rfl, -⟩ <;> rfl

end Aired

/-! ## Texts in different dialects -/

/-- Dialects differ in blanks and in comments that run to the end of a line. -/
theorem lexeme_eq_css {c : Char} {cs : List Char} (hc : isBlank c = false)
    (hline : c = '/' → cs.head? = some '/' → d.hasLineComments = false) :
    lexeme d c cs = lexeme .css c cs := by
  have hbreak : (c == '\n') = false := by
    refine beq_eq_false_iff_ne.2 fun h => ?_
    rw [h] at hc
    cases hc
  have hslash : ∀ e : Dialect, (c = '/' → cs.head? = some '/' → e.hasLineComments = false) →
      (c == '/' && cs.head? == some '/' && e.hasLineComments) = false := by
    intro e he
    by_cases hstart : c = '/'
    · by_cases hnext : cs.head? = some '/'
      · rw [he hstart hnext, Bool.and_false]
      · rw [beq_eq_false_iff_ne.2 hnext, Bool.and_false, Bool.false_and]
    · rw [beq_eq_false_iff_ne.2 hstart, Bool.false_and, Bool.false_and]
  unfold lexeme
  rw [hbreak, hc, hslash d hline, hslash .css fun _ _ => rfl]
  rfl

theorem kind_of_isBlank {c : Char} {cs : List Char} {k : TokenKind} {n : Nat}
    (h : lexeme d c cs = .ok ⟨k, n⟩) (hc : isBlank c = true) : k = .whitespace ∨ k = .newline := by
  rw [lexeme, if_pos hc] at h
  split at h
  · exact .inr (of_ok_eq_ok h).1.symm
  · exact .inl (of_ok_eq_ok h).1.symm

theorem lexeme_slash_slash (hd : d.hasLineComments = true) (cs : List Char) :
    lexeme d '/' ('/' :: cs) = .ok ⟨.lineComment, 1 + lineLength ('/' :: cs)⟩ := by
  rw [lexeme, if_neg (by simp), if_neg (by decide), if_neg (by simp), if_pos (by simp [hd])]

namespace Token.CutFrom

variable {t : Token} {r r' : List Char}

/-- Where `//` starts a comment, a slash has no slash behind it. -/
theorem head?_ne_slash (h : t.CutFrom d r) (hk : t.kind = .delim '/')
    (hd : d.hasLineComments = true) : r.head? ≠ some '/' := by
  obtain ⟨c, a, -, he⟩ := h
  intro hr
  obtain ⟨r, rfl⟩ := List.head?_eq_some_iff.1 hr
  rw [hk] at he
  generalize hext : Extent.mk (.delim '/') (a.length + 1) = e at he
  cases lexed_of_lexeme he with
  | mark =>
    obtain ⟨hmark, hlength⟩ := Extent.mk.inj hext
    obtain rfl : a = [] := List.eq_nil_of_length_eq_zero (by omega)
    have hc : c = '/' := by
      unfold markKind at hmark
      split at hmark
      all_goals first
        | cases hmark; done
        | exact (TokenKind.delim.inj hmark).symm
    rw [hc, List.nil_append, lexeme_slash_slash hd] at he
    cases he
  | _ => cases hext

/-- A token that is no whitespace starts with a character that is no blank. -/
theorem exists_start (h : t.CutFrom d r) (hw : t.kind ≠ .whitespace) (hn : t.kind ≠ .newline) :
    ∃ c a, t.text = c :: a ∧ isBlank c = false ∧
      lexeme d c (a ++ r) = .ok ⟨t.kind, a.length + 1⟩ := by
  obtain ⟨c, a, ht, he⟩ := h
  refine ⟨c, a, ht, Bool.eq_false_iff.2 fun hc => ?_, he⟩
  rcases kind_of_isBlank he hc with hk | hk
  · exact hw hk
  · exact hn hk

/-- A token that is neither whitespace nor a comment to the end of its line is cut off in `css`. -/
theorem css (h : t.CutFrom d r) (hw : t.kind ≠ .whitespace) (hn : t.kind ≠ .newline)
    (hl : t.kind ≠ .lineComment) : t.CutFrom .css r := by
  obtain ⟨c, a, ht, hc, he⟩ := h.exists_start hw hn
  refine ⟨c, a, ht, ?_⟩
  rw [← lexeme_eq_css hc fun hslash hhead => ?_]
  · exact he
  · refine Bool.eq_false_iff.2 fun hd => hl ?_
    obtain ⟨b, hb⟩ := List.head?_eq_some_iff.1 hhead
    rw [hslash, hb, lexeme_slash_slash hd] at he
    exact (of_ok_eq_ok he).1.symm

/-- A token that is no whitespace is cut off as in `css`, unless it is a slash before a slash. -/
theorem of_css (h : t.CutFrom .css r) (hw : t.kind ≠ .whitespace) (hn : t.kind ≠ .newline)
    (hslash : t.kind = .delim '/' → d.hasLineComments = true → r.head? ≠ some '/') :
    t.CutFrom d r := by
  obtain ⟨c, a, ht, hc, he⟩ := h.exists_start hw hn
  refine ⟨c, a, ht, ?_⟩
  rw [lexeme_eq_css hc fun hc hhead => ?_]
  · exact he
  · refine Bool.eq_false_iff.2 fun hd => ?_
    obtain ⟨b, hb⟩ := List.head?_eq_some_iff.1 hhead
    have hmark : lexeme .css '/' ('/' :: b) = .ok ⟨.delim '/', 1⟩ := rfl
    rw [hc, hb, hmark] at he
    obtain ⟨hk, hlength⟩ := of_ok_eq_ok he
    obtain rfl : a = [] := List.eq_nil_of_length_eq_zero (by omega)
    exact hslash hk.symm hd hhead

/-- A comment that runs to the end of its line has a break behind it, or nothing. -/
theorem head_of_lineComment (h : t.CutFrom d r) (hk : t.kind = .lineComment) :
    ∀ x ∈ r.head?, x = '\n' := by
  obtain ⟨c, a, -, he⟩ := h
  rw [hk] at he
  obtain ⟨-, hlength⟩ := of_lexeme_lineComment he
  rw [Nat.add_comm, Nat.add_left_cancel_iff] at hlength
  intro x hx
  simpa using (of_length_takeWhile_append hlength.symm).2 x hx

theorem of_lineComment (h : t.CutFrom d r) (hk : t.kind = .lineComment)
    (hr : ∀ x ∈ r'.head?, x = '\n') : t.CutFrom d r' := by
  have hd : d.hasLineComments = true := by
    refine Bool.of_not_eq_false fun hd => ?_
    exact h.kind_ne_lineComment hd hk
  obtain ⟨c, a, ht, he⟩ := h
  rw [hk] at he
  obtain ⟨⟨rest, hc, hcs⟩, hlength⟩ := of_lexeme_lineComment he
  rw [Nat.add_comm, Nat.add_left_cancel_iff] at hlength
  have ha := (of_length_takeWhile_append hlength.symm).1
  obtain ⟨b, rfl⟩ : ∃ b, a = '/' :: b := by
    cases a with
    | nil =>
      rw [hcs] at hlength
      simp [lineLength] at hlength
    | cons x b => exact ⟨b, by rw [(List.cons.inj hcs).1]⟩
  have hline : lineLength ('/' :: b ++ r') = ('/' :: b).length :=
    length_takeWhile_append ha fun x hx => by simp [hr x hx]
  refine ⟨c, '/' :: b, ht, ?_⟩
  rw [hc, hk, List.cons_append, lexeme_slash_slash hd, ← List.cons_append, hline, Nat.add_comm]

/-- A newline is cut off before anything. -/
theorem of_newline (h : t.CutFrom d r) (hk : t.kind = .newline) (r' : List Char) :
    t.CutFrom d r' := by
  have hs := h.spelled
  rw [Spelled, hk] at hs
  have hs : t.text = ['\n'] := hs
  obtain ⟨c, a, ht, he⟩ := h
  obtain ⟨rfl, rfl⟩ := List.cons.inj (hs.symm.trans ht)
  refine ⟨'\n', [], hs, ?_⟩
  rw [hk] at he ⊢
  cases d with
  | sass => rfl
  | _ => cases he

/-- A token that is no whitespace is cut off before any text that it does not go on in. -/
theorem of_next (h : t.CutFrom d r) (hw : t.kind ≠ .whitespace)
    (hline : t.kind = .lineComment → ∀ x ∈ r'.head?, x = '\n')
    (hloose : t.isClosed = false → t.kind ≠ .lineComment → Loosened .css r r')
    (hslash : t.kind = .delim '/' → d.hasLineComments = true → r'.head? ≠ some '/') :
    t.CutFrom d r' := by
  by_cases hl : t.kind = .lineComment
  · exact h.of_lineComment hl (hline hl)
  by_cases hn : t.kind = .newline
  · exact h.of_newline hn r'
  cases hclosed : t.isClosed with
  | true => exact h.of_isClosed hclosed r'
  | false => exact ((h.css hw hn hl).of_loosened hw (hloose hclosed hl)).of_css hw hn hslash

end Token.CutFrom

/-! ## Tokens with other whitespace are cut from their text -/

theorem Token.IsGap.isBlank {u : Token} (h : u.IsGap d) : ∀ x ∈ u.text, isBlank x = true := by
  intro x hx
  have hb := h.blank x hx
  rw [isBlankIn, Bool.and_eq_true] at hb
  exact hb.1

/-- What stands before a mark or a comment ends there. -/
theorem Token.stops_of_isBarrier {t : Token} (h : t.isBarrier = true) (hs : t.Spelled)
    (r : List Char) : Stops .css (t.text ++ r) := by
  have hstop : ∀ c s, t.text = c :: s → isStop .css c = true → Stops .css (t.text ++ r) := by
    intro c s ht hc
    rw [ht]
    exact .of_stop hc _
  unfold isBarrier at h
  rw [Spelled] at hs
  split at h
  · rename_i hk
    rw [hk] at hs
    exact hstop _ _ hs rfl
  · rename_i hk
    rw [hk] at hs
    exact hstop _ _ hs rfl
  · rename_i hk
    rw [hk] at hs
    exact hstop _ _ hs rfl
  · rename_i hk
    rw [hk] at hs
    obtain ⟨inner, hinner⟩ := hs
    exact hstop '/' _ hinner rfl
  · rename_i hk
    rw [hk] at hs
    obtain ⟨inner, hinner⟩ := hs
    exact hstop '/' _ hinner rfl
  · cases h

namespace Aired

variable {s : Slack} {ts us : List Token}

/-- Before a mark or a comment any blanks may stand. -/
theorem stops_of_gives (hs : s.Gives ts) (hf : s ≠ .free) (hspelled : ∀ t ∈ ts, t.Spelled)
    (h : Aired d .stuck ts us) : Stops .css (textOf ts) ∧ Stops .css (textOf us) := by
  obtain ⟨-, t, ht, hbar⟩ := hs.resolve_left hf
  rcases h.of_stuck with ⟨rfl, rfl⟩ | ⟨t', ts', us', rfl, rfl, -⟩
  · cases ht
  · cases ht
    have hstops := stops_of_isBarrier hbar (hspelled t (by simp))
    exact ⟨hstops _, hstops _⟩

/-- What stands before the tokens does not go on in them. -/
theorem loosened (h : Aired d s ts us) (hf : s ≠ .free) (hl : s ≠ .lined)
    (hspelled : ∀ t ∈ ts, t.Spelled) : Loosened .css (textOf ts) (textOf us) := by
  induction h with
  | nil => exact .nil
  | @keep s t ts us h ih =>
    have hrest : ∀ u ∈ ts, u.Spelled := fun u hu => hspelled u (by simp [hu])
    by_cases hfree : Slack.past t = .free
    · have hclosed := Slack.isClosed_of_past hfree
      exact loosened_of_isClosed (d := .css) rfl hclosed (hspelled t (by simp)) _ _
    by_cases hlined : Slack.past t = .lined
    · have hbar : t.isBarrier = true := by rw [isBarrier, Slack.kind_of_past hlined]
      have hstops := stops_of_isBarrier hbar (hspelled t (by simp))
      exact .stop (hstops _) (hstops _)
    · exact (ih hfree hlined hrest).behind t.text
  | @resize s t u ts us ht hu hs h _ =>
    have hblank := hspelled t (by simp)
    rw [Spelled, ht] at hblank
    obtain ⟨hts, hus⟩ := h.stops_of_gives (hs.resolve_right fun hs => hl hs.1) hf
      fun v hv => hspelled v (by simp [hv])
    exact .stop (hts.blanks rfl hblank) (hus.blanks rfl hu.isBlank)
  | @drop s t ts us ht hs _ h _ =>
    have hblank := hspelled t (by simp)
    rw [Spelled, ht] at hblank
    obtain ⟨hts, hus⟩ := h.stops_of_gives hs hf fun v hv => hspelled v (by simp [hv])
    exact .stop (hts.blanks rfl hblank) hus
  | @put s u ts us hu hs _ h _ =>
    obtain ⟨hts, hus⟩ := h.stops_of_gives hs hf hspelled
    exact .stop hts (hus.blanks rfl hu.isBlank)

/-- Behind a comment that runs to the end of its line stays its break. -/
theorem head_of_lined (h : Aired d .lined ts us) (hc : Cuts d ts)
    (ht : ∀ x ∈ (textOf ts).head?, x = '\n') : ∀ x ∈ (textOf us).head?, x = '\n' := by
  have hgives : ∀ ts, ¬ Slack.lined.Gives ts := by
    rintro ts (h | ⟨h | h, -⟩) <;> cases h
  cases h with
  | nil => simp
  | keep t h =>
    obtain ⟨c, a, htext, -⟩ := hc.1
    rw [textOf_cons, htext] at ht ⊢
    exact ht
  | @resize _ t u ts us hk hu hs h =>
    obtain ⟨c, a, htext, -⟩ := hc.1
    obtain ⟨c', a', htext'⟩ := List.exists_cons_of_ne_nil hu.ne_nil
    rw [textOf_cons, htext] at ht
    have hbreak := (hs.resolve_left (hgives _)).2 (by rw [htext, ← ht c rfl]; rfl)
    rw [htext'] at hbreak
    rw [textOf_cons, htext']
    intro x hx
    cases hx
    exact Option.some.inj hbreak
  | drop _ hs => exact absurd hs (hgives _)
  | put _ hs => exact absurd hs (hgives _)

/-- A slash does not meet another slash. -/
theorem head?_ne_slash (h : Aired d .slash ts us) (hc : Cuts d ts)
    (hd : d.hasLineComments = true) (ht : (textOf ts).head? ≠ some '/') :
    (textOf us).head? ≠ some '/' := by
  have hgap : ∀ {u : Token} {us : List Token}, u.IsGap d → (textOf (u :: us)).head? ≠ some '/' := by
    intro u us hu
    obtain ⟨c, a, htext⟩ := List.exists_cons_of_ne_nil hu.ne_nil
    have hblank := hu.isBlank c (by simp [htext])
    rw [textOf_cons, htext]
    intro hc
    obtain rfl : c = '/' := Option.some.inj hc
    cases hblank
  cases h with
  | nil => simp
  | keep t h =>
    obtain ⟨c, a, htext, -⟩ := hc.1
    rw [textOf_cons, htext] at ht ⊢
    exact ht
  | resize _ hu => exact hgap hu
  | put hu => exact hgap hu
  | @drop _ t ts us hk hs hslash h =>
    obtain ⟨-, u, hu, hbar⟩ := hs.resolve_left (by decide)
    have hcomment := hslash rfl hd u hu
    rcases h.of_stuck with ⟨rfl, rfl⟩ | ⟨u', ts', us', rfl, rfl, -⟩
    · cases hu
    · cases hu
      have hspelled := hc.2.1.spelled
      unfold isBarrier at hbar
      rw [isComment] at hcomment
      rw [Spelled] at hspelled
      split at hbar <;> simp_all

/-- **Tokens with other whitespace are cut from their text.** -/
theorem cuts (h : Aired d s ts us) (hc : Cuts d ts) : Cuts d us := by
  induction h with
  | nil => trivial
  | @keep s t ts us h ih =>
    refine ⟨?_, ih hc.2⟩
    by_cases hw : t.kind = .whitespace
    · obtain ⟨⟨hne, hblank⟩, -⟩ := hc.1.isBlankIn hw
      rw [Slack.past_of_whitespace hw] at h
      refine .of_blanks hw hne hblank ((ih hc.2).head_not_blank ?_)
      rw [h.head?_eq]
      exact hc.kind_ne hw
    refine hc.1.of_next hw (fun hl => ?_) (fun hclosed hl => ?_) fun hk hd => ?_
    · rw [Slack.past_of_lineComment hl] at h
      exact h.head_of_lined hc.2 (hc.1.head_of_lineComment hl)
    · refine h.loosened (fun hfree => ?_) (fun hlined => hl (Slack.kind_of_past hlined))
        hc.2.spelled
      rw [Slack.isClosed_of_past hfree] at hclosed
      cases hclosed
    · rw [Slack.past_of_slash hk] at h
      exact h.head?_ne_slash hc.2 hd (hc.1.head?_ne_slash hk hd)
  | @resize s t u ts us ht hu _ h ih =>
    refine ⟨.of_blanks hu.kind_eq hu.ne_nil hu.blank ((ih hc.2).head_not_blank ?_), ih hc.2⟩
    rw [h.head?_eq]
    exact hc.kind_ne ht
  | drop _ _ _ _ ih => exact ih hc.2
  | @put s u ts us hu _ hts h ih =>
    refine ⟨.of_blanks hu.kind_eq hu.ne_nil hu.blank ((ih hc).head_not_blank ?_), ih hc⟩
    rw [h.head?_eq]
    exact hts

end Aired

end TidySheet
