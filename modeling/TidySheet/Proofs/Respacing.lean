import Mathlib.Algebra.GroupWithZero.Nat
import TidySheet.Proofs.Relexing

/-!
# Tokens moved apart

A number of blanks goes before each place of a text, as a width function tells. When only colons
get blanks, the tokens of the new text are the old ones, each moved by the blanks before it on its
line, with whitespace that is new or wider before the colons.

* `Position.after_moved` — where a token ends once it is moved;
* `Lexes` — a text and its tokens, one token at a time;
* `Spaced` — tokens with blanks before colons;
* `Lexes.spaced` — the tokens of a text with blanks before its colons.
-/

set_option autoImplicit false

namespace TidySheet

/-! ## Places in reading order -/

namespace Position

/-- Reading order. -/
def Before (p q : Position) : Prop := p.line < q.line ∨ p.line = q.line ∧ p.column < q.column

variable {p q r : Position}

theorem Before.trans (h : p.Before q) (h' : q.Before r) : p.Before r := by
  unfold Before at *
  omega

theorem Before.irrefl (p : Position) : ¬ p.Before p := by
  unfold Before
  omega

theorem before_next (p : Position) (c : Char) : p.Before (p.next c) := by
  unfold Before next
  split
  · exact .inl (Nat.lt_succ_self _)
  · exact .inr ⟨rfl, Nat.lt_succ_self _⟩

theorem before_after (p : Position) {s : List Char} (hs : s ≠ []) : p.Before (p.after s) := by
  induction s generalizing p with
  | nil => exact absurd rfl hs
  | cons c s ih =>
    have hc := p.before_next c
    by_cases h : s = []
    · rw [h]
      exact hc
    · exact hc.trans (ih (p.next c) h)

theorem column_after (hp : 0 < p.column) (s : List Char) : 0 < (p.after s).column := by
  induction s generalizing p with
  | nil => exact hp
  | cons c s ih =>
    apply ih
    unfold next
    split
    · exact Nat.one_pos
    · exact Nat.succ_pos _

/-! ## Places once blanks are put in -/

variable (w : Position → Nat)

/-- The blanks put to the left of a place, on its line. -/
def shift (p : Position) : Nat := ((List.range p.column).map fun c => w ⟨p.line, c⟩).sum

/-- Where the blanks before a place start. -/
def slot (p : Position) : Position := ⟨p.line, p.column + p.shift w⟩

/-- Where the blanks before a place end. -/
def moved (p : Position) : Position := ⟨p.line, p.column + p.shift w + w p⟩

variable {w}

theorem moved_of_eq_zero (h : w p = 0) : p.moved w = p.slot w := by
  rw [moved, slot, h, Nat.add_zero]

theorem after_slot (p : Position) : (p.slot w).after (List.replicate (w p) ' ') = p.moved w := by
  have hafter : ∀ (n : Nat) (q : Position),
      q.after (List.replicate n ' ') = ⟨q.line, q.column + n⟩ := by
    intro n
    induction n with
    | zero => intro q; rfl
    | succ n ih =>
      intro q
      have hnext : q.next ' ' = ⟨q.line, q.column + 1⟩ := if_neg (by decide)
      rw [List.replicate_succ, after_cons, ih, hnext]
      simp only [mk.injEq, true_and]
      omega
  rw [hafter]
  rfl

/-- A moved character ends where the blanks before the next one start. -/
theorem next_moved (hz : ∀ line, w ⟨line, 0⟩ = 0) (p : Position) (c : Char) :
    (p.moved w).next c = (p.next c).slot w := by
  unfold next
  split
  · simp [slot, moved, shift, hz]
  · have hsum : shift w ⟨p.line, p.column + 1⟩ = p.shift w + w p := by
      simp [shift, List.range_succ]
    simp only [slot, moved, hsum, mk.injEq, true_and]
    omega

/-- **A moved text ends where the blanks behind it start**, if no blanks go into it. -/
theorem after_moved (hz : ∀ line, w ⟨line, 0⟩ = 0) (p : Position) (c : Char) (s : List Char)
    (hin : ∀ a b, s = a ++ b → b ≠ [] → w ((p.next c).after a) = 0) :
    (p.moved w).after (c :: s) = (p.after (c :: s)).slot w := by
  induction s generalizing p c with
  | nil => exact next_moved hz p c
  | cons x s ih =>
    have hx : w (p.next c) = 0 := hin [] (x :: s) rfl (by simp)
    rw [after_cons, next_moved hz, ← moved_of_eq_zero hx, after_cons p]
    refine ih (p.next c) x fun a b hs hb => ?_
    exact hin (x :: a) b (by rw [hs]; rfl) hb

end Position

/-! ## A text and its tokens -/

variable {d : Dialect} {p : Position} {cs : List Char} {ts : List Token}

/-- The tokens of a text that starts at a place, one token at a time. -/
inductive Lexes (d : Dialect) : Position → List Char → List Token → Prop
  | nil (p : Position) : Lexes d p [] []
  | cons {p : Position} {c : Char} {a r : List Char} {k : TokenKind} {ts : List Token}
      (he : lexeme d c (a ++ r) = .ok ⟨k, a.length + 1⟩) (h : Lexes d (p.after (c :: a)) r ts) :
      Lexes d p (c :: (a ++ r)) (⟨k, c :: a, .ofText p (c :: a)⟩ :: ts)

theorem lexes_of_tokens (ts : List Token) (h : tokens d p cs = .ok ts) : Lexes d p cs ts := by
  fun_induction tokens d p cs generalizing ts with
  | case1 p =>
    cases h
    exact .nil p
  | case2 => cases h
  | case3 => cases h
  | case4 p c cs extent he text us ht ih =>
    cases h
    have hlen := length_of_lexeme he
    have hcut : cs.take (extent.length - 1) ++ cs.drop (extent.length - 1) = cs :=
      List.take_append_drop _ _
    have hext : extent = ⟨extent.kind, (cs.take (extent.length - 1)).length + 1⟩ := by
      obtain ⟨kind, length⟩ := extent
      rw [List.length_take]
      simp only [Extent.mk.injEq, true_and]
      dsimp only at hlen
      omega
    have hcons := Lexes.cons (d := d) (p := p) (c := c) (a := cs.take (extent.length - 1))
      (r := cs.drop (extent.length - 1)) (k := extent.kind) (by rw [hcut, he, ← hext]) (ih us ht)
    rwa [hcut] at hcons

/-- **A text has exactly the tokens that the lexer cuts it into.** -/
theorem tokens_eq_ok : tokens d p cs = .ok ts ↔ Lexes d p cs ts := by
  refine ⟨lexes_of_tokens ts, fun h => ?_⟩
  induction h with
  | nil p => rw [tokens]
  | @cons p c a r k ts he _ ih =>
    rw [tokens, he]
    simp only [Nat.add_sub_cancel, List.take_left, List.drop_left, ih]

namespace Lexes

theorem textOf_eq (h : Lexes d p cs ts) : Token.textOf ts = cs :=
  textOf_tokens d p cs ts (tokens_eq_ok.2 h)

theorem first_eq {t : Token} (h : Lexes d p cs (t :: ts)) : t.span.first = p := by
  cases h
  rfl

/-- No token of a text starts before the text. -/
theorem not_before (h : Lexes d p cs ts) : ∀ t ∈ ts, ¬ t.span.first.Before p := by
  induction h with
  | nil p => simp
  | @cons p c a r k ts _ _ ih =>
    have hp := p.before_after (s := c :: a) (by simp)
    refine List.forall_mem_cons.2 ⟨Position.Before.irrefl p, fun t ht hb => ?_⟩
    exact ih t ht (hb.trans hp)

/-- No two tokens of a text start at the same place. -/
theorem nodup_firsts (h : Lexes d p cs ts) : (ts.map fun t => t.span.first).Nodup := by
  induction h with
  | nil p => simp
  | @cons p c a r k ts _ h ih =>
    have hp := p.before_after (s := c :: a) (by simp)
    refine List.nodup_cons.2 ⟨fun hm => ?_, ih⟩
    obtain ⟨t, ht, hpt⟩ := List.mem_map.1 hm
    apply h.not_before t ht
    rw [hpt]
    exact hp

theorem column_pos (h : Lexes d p cs ts) (hp : 0 < p.column) :
    ∀ t ∈ ts, 0 < t.span.first.column := by
  induction h with
  | nil p => simp
  | @cons p c a r k ts _ _ ih =>
    exact List.forall_mem_cons.2 ⟨hp, ih (Position.column_after hp (c :: a))⟩

end Lexes

/-! ## Blanks before tokens -/

namespace Token

theorem text_of_colon {t : Token} (h : t.Spelled) (hk : t.kind = .colon) : t.text = [':'] := by
  rwa [Spelled, hk] at h

variable (w : Position → Nat)

/-- The text of tokens with blanks before each. -/
def loose (ts : List Token) : List Char :=
  ts.flatMap fun t => List.replicate (w t.span.first) ' ' ++ t.text

/-- The text of tokens with blanks before each but the first. -/
def tight : List Token → List Char
  | [] => []
  | t :: ts => t.text ++ loose w ts

/-- The token once it is moved. -/
def move (t : Token) : Token := ⟨t.kind, t.text, .ofText (t.span.first.moved w) t.text⟩

@[simp] theorem loose_nil : loose w [] = [] := rfl

@[simp] theorem loose_cons (t : Token) (ts : List Token) :
    loose w (t :: ts) = List.replicate (w t.span.first) ' ' ++ tight w (t :: ts) := by
  simp [loose, tight]

@[simp] theorem loose_append (ts us : List Token) : loose w (ts ++ us) = loose w ts ++ loose w us :=
  List.flatMap_append

end Token

/-- **The tokens `us` are `ts` moved apart**: whitespace before a colon is new or wider. -/
inductive Spaced (w : Position → Nat) : List Token → List Token → Prop
  | nil : Spaced w [] []
  | keep (t : Token) {ts us : List Token} (h : Spaced w ts us) : Spaced w (t :: ts) (t.move w :: us)
  | put {c b : Token} {ts us : List Token} (hc : c.kind = .colon) (hw : w c.span.first ≠ 0)
      (hb : b.kind = .whitespace) (h : Spaced w ts us) : Spaced w (c :: ts) (b :: c.move w :: us)
  | widen {a b c : Token} {ts us : List Token} (ha : a.kind = .whitespace) (hc : c.kind = .colon)
      (hw : w c.span.first ≠ 0) (hb : b.kind = .whitespace) (hl : a.text.length ≤ b.text.length)
      (h : Spaced w ts us) : Spaced w (a :: c :: ts) (b :: c.move w :: us)

/-- Blanks go only to places where a colon starts, from `p` on. -/
structure OnColons (w : Position → Nat) (p : Position) (ts : List Token) : Prop where
  starts : ∀ q, w q ≠ 0 → q.Before p ∨ q ∈ ts.map fun t => t.span.first
  colon : ∀ t ∈ ts, w t.span.first ≠ 0 → t.kind = .colon

namespace OnColons

variable {w : Position → Nat}

theorem tail {c : Char} {a : List Char} {k : TokenKind}
    (h : OnColons w p (⟨k, c :: a, .ofText p (c :: a)⟩ :: ts)) :
    OnColons w (p.after (c :: a)) ts := by
  have hp := p.before_after (s := c :: a) (by simp)
  refine ⟨fun q hq => ?_, fun t ht => h.colon t (by simp [ht])⟩
  rcases h.starts q hq with hb | hm
  · exact .inl (hb.trans hp)
  · rcases List.mem_cons.1 hm with rfl | hm
    · exact .inl hp
    · exact .inr hm

/-- No blanks go into a token. -/
theorem inside {c : Char} {a r x y : List Char} {k : TokenKind}
    (h : OnColons w p (⟨k, c :: a, .ofText p (c :: a)⟩ :: ts))
    (hr : Lexes d (p.after (c :: a)) r ts) (hxy : a = x ++ y) (hy : y ≠ []) :
    w ((p.next c).after x) = 0 := by
  have hb : p.Before ((p.next c).after x) := p.before_after (s := c :: x) (by simp)
  have ha : ((p.next c).after x).Before (p.after (c :: a)) := by
    rw [hxy, ← List.cons_append, Position.after_append]
    exact Position.before_after _ hy
  refine Decidable.byContradiction fun hw => ?_
  rcases h.starts _ hw with hbefore | hm
  · exact Position.Before.irrefl p (hb.trans hbefore)
  · rcases List.mem_cons.1 hm with he | hm
    · change _ = p at he
      rw [he] at hb
      exact Position.Before.irrefl p hb
    · obtain ⟨t, ht, he⟩ := List.mem_map.1 hm
      apply hr.not_before t ht
      rw [he]
      exact ha

end OnColons

namespace Lexes

variable {w : Position → Nat}

theorem spelled (h : Lexes d p cs ts) : ∀ t ∈ ts, t.Spelled :=
  tokens_spelled ts (tokens_eq_ok.2 h)

theorem loosened_replicate (n : Nat) {r r' : List Char} :
    Loosened d (':' :: r) (List.replicate n ' ' ++ ':' :: r') := by
  have hstop : isStop d ':' = true := rfl
  refine .stop (.of_stop hstop r) ⟨List.replicate n ' ', ':', r', rfl, hstop, fun x hx => ?_⟩
  rw [List.eq_of_mem_replicate hx]
  exact ⟨rfl, fun _ => by decide⟩

/-- Blanks before colons only loosen the text. -/
theorem loosened_loose (hs : ∀ t ∈ ts, t.Spelled)
    (hc : ∀ t ∈ ts, w t.span.first ≠ 0 → t.kind = .colon) :
    Loosened d (Token.textOf ts) (Token.loose w ts) := by
  induction ts with
  | nil => exact .nil
  | cons t ts ih =>
    have hrest := ih (fun u hu => hs u (by simp [hu])) fun u hu => hc u (by simp [hu])
    rw [Token.textOf_cons, Token.loose_cons, Token.tight]
    by_cases hw : w t.span.first = 0
    · rw [hw]
      exact hrest.behind t.text
    · rw [Token.text_of_colon (hs t (by simp)) (hc t (by simp) hw)]
      exact loosened_replicate _

theorem head?_tight (h : Lexes d p cs ts) : (Token.tight w ts).head? = cs.head? := by
  cases h with
  | nil p => rfl
  | cons he h => rfl

/-- Blanks before a text that starts with no blank are a token of their own. -/
theorem blanks {q : Position} {n : Nat} {r : List Char} {us : List Token}
    (hr : ∀ x ∈ r.head?, isBlankIn d x = false)
    (h : Lexes d (q.after (List.replicate (n + 1) ' ')) r us) :
    Lexes d q (List.replicate (n + 1) ' ' ++ r)
      (⟨.whitespace, List.replicate (n + 1) ' ',
        .ofText q (List.replicate (n + 1) ' ')⟩ :: us) := by
  rw [List.replicate_succ] at h ⊢
  exact .cons (lexeme_blank (isBlankIn_replicate 1 ' ' (by simp)) (isBlankIn_replicate n) hr) h

theorem not_blank_of_colon {t : Token} (h : Lexes d p cs (t :: ts)) (hk : t.kind = .colon) :
    ∀ x ∈ (Token.tight w (t :: ts)).head?, isBlankIn d x = false := by
  rw [Token.tight, Token.text_of_colon (h.spelled t (by simp)) hk]
  intro x hx
  cases hx
  cases d <;> rfl

end Lexes

theorem Spaced.of_colon {w : Position → Nat} {t : Token} {us : List Token}
    (h : Spaced w (t :: ts) us) (hk : t.kind = .colon)
    (hu : us.head?.map Token.kind = some t.kind) :
    ∃ vs, us = t.move w :: vs ∧ Spaced w ts vs := by
  cases h with
  | keep t h => exact ⟨_, rfl, h⟩
  | put hc hw hb h =>
    rw [hk] at hu
    simp [hb] at hu
  | widen ha => simp [hk] at ha

/-- The tokens of a text whose first token has its blanks before it already. -/
structure SpacedFrom (d : Dialect) (w : Position → Nat) (p : Position) (ts us : List Token) :
    Prop where
  lexes : Lexes d (p.moved w) (Token.tight w ts) us
  spaced : Spaced w ts us
  kind_eq : us.head?.map Token.kind = ts.head?.map Token.kind

namespace SpacedFrom

variable {w : Position → Nat} {us : List Token}

/-- The blanks before the first token are put in as whitespace of their own. -/
theorem loose (h : Lexes d p cs ts) (hw : OnColons w p ts) (hs : SpacedFrom d w p ts us) :
    ∃ vs, Lexes d (p.slot w) (Token.loose w ts) vs ∧ Spaced w ts vs := by
  cases ts with
  | nil => exact ⟨[], .nil _, .nil⟩
  | cons t ts =>
    have hp := h.first_eq
    rw [Token.loose_cons, hp]
    by_cases h0 : w p = 0
    · refine ⟨us, ?_, hs.spaced⟩
      rw [h0, List.replicate_zero, List.nil_append, ← Position.moved_of_eq_zero h0]
      exact hs.lexes
    · have hk : t.kind = .colon := hw.colon t (by simp) (by rwa [hp])
      obtain ⟨vs, rfl, hvs⟩ := hs.spaced.of_colon hk hs.kind_eq
      obtain ⟨n, hn⟩ := Nat.exists_eq_succ_of_ne_zero h0
      have hslot := p.after_slot (w := w)
      have hlexes := hs.lexes
      rw [← hslot, hn] at hlexes
      rw [hn]
      exact ⟨_, .blanks (h.not_blank_of_colon hk) hlexes, .put hk (by rwa [hp]) rfl hvs⟩

/-- A token that is no whitespace stays as it is; what is new stands behind it. -/
theorem cons_of_ne {c : Char} {a r : List Char} {k : TokenKind} (hz : ∀ line, w ⟨line, 0⟩ = 0)
    (hk : k ≠ .whitespace) (he : lexeme d c (a ++ r) = .ok ⟨k, a.length + 1⟩)
    (h : Lexes d (p.after (c :: a)) r ts)
    (hw : OnColons w p (⟨k, c :: a, .ofText p (c :: a)⟩ :: ts))
    (hs : SpacedFrom d w (p.after (c :: a)) ts us) :
    ∃ vs, SpacedFrom d w p (⟨k, c :: a, .ofText p (c :: a)⟩ :: ts) vs := by
  obtain ⟨vs, hlexes, hspaced⟩ := hs.loose h hw.tail
  have hend := Position.after_moved hz p c a fun x y hxy hy => hw.inside h hxy hy
  have hloosened := Lexes.loosened_loose (d := d) h.spelled hw.tail.colon
  rw [h.textOf_eq] at hloosened
  rw [← hend] at hlexes
  exact ⟨_, .cons (hloosened.lexeme_eq hk he) hlexes, .keep _ hspaced, rfl⟩

/-- Whitespace takes the blanks behind it in. -/
theorem cons_of_whitespace {c : Char} {a r : List Char} (hz : ∀ line, w ⟨line, 0⟩ = 0)
    (he : lexeme d c (a ++ r) = .ok ⟨.whitespace, a.length + 1⟩)
    (h : Lexes d (p.after (c :: a)) r ts)
    (hw : OnColons w p (⟨.whitespace, c :: a, .ofText p (c :: a)⟩ :: ts))
    (hs : SpacedFrom d w (p.after (c :: a)) ts us) :
    ∃ vs, SpacedFrom d w p (⟨.whitespace, c :: a, .ofText p (c :: a)⟩ :: ts) vs := by
  obtain ⟨hblank, hstop⟩ := isBlankIn_of_lexeme he
  have hend := Position.after_moved hz p c a fun x y hxy hy => hw.inside h hxy hy
  rw [← h.head?_tight (w := w)] at hstop
  have hwide : ∀ n, Lexes d ((p.moved w).after (c :: (a ++ List.replicate n ' ')))
      (Token.tight w ts) us →
      Lexes d (p.moved w) (c :: ((a ++ List.replicate n ' ') ++ Token.tight w ts))
        (⟨.whitespace, c :: (a ++ List.replicate n ' '),
          .ofText (p.moved w) (c :: (a ++ List.replicate n ' '))⟩ :: us) := by
    intro n hrest
    refine .cons (lexeme_blank (hblank c (by simp)) (fun x hx => ?_) hstop) hrest
    rcases List.mem_append.1 hx with hx | hx
    · exact hblank x (by simp [hx])
    · exact isBlankIn_replicate n x hx
  cases ts with
  | nil =>
    cases hs.spaced
    have hlexes := hwide 0 (.nil _)
    rw [List.replicate_zero, List.append_nil] at hlexes
    exact ⟨_, hlexes, .keep _ .nil, rfl⟩
  | cons u ts =>
    have hu := h.first_eq
    have hslot := (p.after (c :: a)).after_slot (w := w)
    have hlexes := hwide (w (p.after (c :: a))) (by
      rw [← List.cons_append, Position.after_append, hend, hslot]
      exact hs.lexes)
    have htight : Token.tight w (⟨.whitespace, c :: a, .ofText p (c :: a)⟩ :: u :: ts) =
        c :: ((a ++ List.replicate (w (p.after (c :: a))) ' ') ++ Token.tight w (u :: ts)) := by
      rw [Token.tight, Token.loose_cons, hu, List.cons_append, List.append_assoc]
    by_cases h0 : w (p.after (c :: a)) = 0
    · rw [h0, List.replicate_zero, List.append_nil] at hlexes htight
      rw [← htight] at hlexes
      exact ⟨_, hlexes, .keep _ hs.spaced, rfl⟩
    · have hk : u.kind = .colon := hw.tail.colon u (by simp) (by rwa [hu])
      obtain ⟨vs, rfl, hvs⟩ := hs.spaced.of_colon hk hs.kind_eq
      rw [← htight] at hlexes
      refine ⟨_, hlexes, .widen rfl hk (by rwa [hu]) rfl ?_ hvs, rfl⟩
      simp

end SpacedFrom

namespace Lexes

variable {w : Position → Nat}

theorem spacedFrom (hz : ∀ line, w ⟨line, 0⟩ = 0) (h : Lexes d p cs ts) (hw : OnColons w p ts) :
    ∃ us, SpacedFrom d w p ts us := by
  induction h with
  | nil p => exact ⟨[], .nil _, .nil, rfl⟩
  | @cons p c a r k ts he h ih =>
    obtain ⟨us, hs⟩ := ih hw.tail
    by_cases hk : k = .whitespace
    · subst hk
      exact hs.cons_of_whitespace hz he h hw
    · exact hs.cons_of_ne hz hk he h hw

/-- **Blanks before colons only move the tokens apart.** -/
theorem spaced (hz : ∀ line, w ⟨line, 0⟩ = 0) (h : Lexes d .origin cs ts)
    (hw : OnColons w .origin ts) :
    ∃ us, Lexes d .origin (Token.loose w ts) us ∧ Spaced w ts us := by
  obtain ⟨us, hs⟩ := h.spacedFrom hz hw
  have hslot : Position.origin.slot w = .origin := by
    simp [Position.slot, Position.origin, Position.shift, hz]
  obtain ⟨vs, hv⟩ := hs.loose h hw
  rw [hslot] at hv
  exact ⟨vs, hv⟩

end Lexes

end TidySheet
