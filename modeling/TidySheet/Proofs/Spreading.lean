import TidySheet.Proofs.ColonAlignment
import TidySheet.Proofs.Recutting

/-!
# Tokens with blanks before their colons

The tokens of an aligned text, each at its old place: blanks before a colon are whitespace of their
own, or go into the whitespace that stands before the colon.

* `Token.spread` — the tokens with blanks between them, `spread_append` — and of their parts;
* `Token.textOf_spread` — their text, `Token.matched_spread` — they differ in whitespace alone;
* `Cuts.spread` — the text is cut into them if blanks stand only before colons.
-/

set_option autoImplicit false

namespace TidySheet

namespace Token

variable {w : Position → Nat} {k : Nat}

/-- Whitespace of `k` blanks, if there are any. -/
def blanks (k : Nat) : List Token :=
  if k = 0 then [] else [⟨.whitespace, List.replicate k ' ', .unplaced⟩]

/-- A token with `k` blanks behind it, which whitespace takes up. -/
def withBlanks (k : Nat) (t : Token) : List Token :=
  if t.kind = .whitespace then [⟨t.kind, t.text ++ List.replicate k ' ', t.span⟩]
  else t :: blanks k

/-- The blanks before the first of the tokens; `k` stand behind them all. -/
def gapBefore (w : Position → Nat) (k : Nat) : List Token → Nat
  | [] => k
  | t :: _ => w t.span.first

/-- The tokens with blanks before each but the first, and `k` blanks behind them all. -/
def spread (w : Position → Nat) (k : Nat) : List Token → List Token
  | [] => []
  | t :: ts => t.withBlanks (gapBefore w k ts) ++ spread w k ts

@[simp] theorem spread_nil : spread w k [] = [] := rfl

@[simp] theorem spread_cons (t : Token) (ts : List Token) :
    spread w k (t :: ts) = t.withBlanks (gapBefore w k ts) ++ spread w k ts := rfl

@[simp] theorem gapBefore_nil : gapBefore w k [] = k := rfl

@[simp] theorem gapBefore_cons (t : Token) (ts : List Token) :
    gapBefore w k (t :: ts) = w t.span.first := rfl

theorem gapBefore_append (xs ts : List Token) :
    gapBefore w k (xs ++ ts) = gapBefore w (gapBefore w k ts) xs := by
  cases xs <;> rfl

/-- **Parts of the tokens**: the blanks before what stands behind go to the front part. -/
theorem spread_append (xs ts : List Token) :
    spread w k (xs ++ ts) = spread w (gapBefore w k ts) xs ++ spread w k ts := by
  induction xs with
  | nil => rfl
  | cons x xs ih => simp [ih, gapBefore_append]

theorem textOf_blanks (k : Nat) : textOf (blanks k) = List.replicate k ' ' := by
  unfold blanks
  split
  · rename_i hk
    rw [hk]
    rfl
  · simp

theorem textOf_withBlanks (k : Nat) (t : Token) :
    textOf (t.withBlanks k) = t.text ++ List.replicate k ' ' := by
  unfold withBlanks
  split
  · simp
  · rw [textOf_cons, textOf_blanks]

theorem withBlanks_zero (t : Token) : t.withBlanks 0 = [t] := by
  unfold withBlanks
  split
  · rw [List.replicate_zero, List.append_nil]
  · rfl

theorem withBlanks_of_ne {t : Token} (h : t.kind ≠ .whitespace) (k : Nat) :
    t.withBlanks k = t :: blanks k := if_neg h

/-- **The text of the tokens with the blanks.** -/
theorem textOf_spread (ts : List Token) :
    List.replicate (gapBefore w k ts) ' ' ++ textOf (spread w k ts) =
      loose w ts ++ List.replicate k ' ' := by
  induction ts with
  | nil => simp
  | cons t ts ih =>
    rw [spread_cons, textOf_append, textOf_withBlanks, gapBefore_cons, loose_cons, tight,
      List.append_assoc, ih]
    simp

theorem gapBefore_eq_zero {ts : List Token} (h : ∀ t ∈ ts, w t.span.first = 0) :
    gapBefore w 0 ts = 0 := by
  cases ts with
  | nil => rfl
  | cons t ts => exact h t (by simp)

/-- Without blanks the tokens stay as they are. -/
theorem spread_eq_self {ts : List Token} (h : ∀ t ∈ ts, w t.span.first = 0) :
    spread w 0 ts = ts := by
  induction ts with
  | nil => rfl
  | cons t ts ih =>
    have hrest : ∀ u ∈ ts, w u.span.first = 0 := fun u hu => h u (by simp [hu])
    rw [spread_cons, gapBefore_eq_zero hrest, withBlanks_zero, ih hrest]
    rfl

theorem kind_of_mem_blanks : ∀ t ∈ blanks k, t.kind = .whitespace := by
  intro t ht
  unfold blanks at ht
  split at ht
  · cases ht
  · rw [List.mem_singleton.1 ht]

/-- Besides the token there is whitespace alone. -/
theorem kind_of_mem_withBlanks {t : Token} :
    ∀ u ∈ t.withBlanks k, u.kind = t.kind ∨ u.kind = .whitespace := by
  intro u hu
  unfold withBlanks at hu
  split at hu
  · rw [List.mem_singleton.1 hu]
    exact .inl rfl
  · rcases List.mem_cons.1 hu with rfl | hu
    · exact .inl rfl
    · exact .inr (kind_of_mem_blanks u hu)

theorem isTrivia_blanks : ∀ t ∈ blanks k, t.isTrivia = true :=
  fun t ht => isTrivia_of_whitespace (kind_of_mem_blanks t ht)

theorem isTrivia_withBlanks {t : Token} (h : t.isTrivia = true) :
    ∀ u ∈ t.withBlanks k, u.isTrivia = true := by
  intro u hu
  rcases kind_of_mem_withBlanks u hu with hk | hk
  · rw [isTrivia_eq hk, h]
  · exact isTrivia_of_whitespace hk

theorem spelled_blanks : ∀ t ∈ blanks k, t.Spelled := by
  intro t ht
  unfold blanks at ht
  split at ht
  · cases ht
  · rw [List.mem_singleton.1 ht]
    intro x hx
    rw [(List.mem_replicate.1 hx).2]
    rfl

theorem spelled_withBlanks {t : Token} (h : t.Spelled) : ∀ u ∈ t.withBlanks k, u.Spelled := by
  intro u hu
  unfold withBlanks at hu
  split at hu
  · rename_i hk
    rw [List.mem_singleton.1 hu]
    rw [Spelled, hk] at h
    rw [Spelled, hk]
    intro x hx
    rcases List.mem_append.1 hx with hx | hx
    · exact h x hx
    · rw [(List.mem_replicate.1 hx).2]
      rfl
  · rcases List.mem_cons.1 hu with rfl | hu
    · exact h
    · exact spelled_blanks u hu

/-- What holds of a token with blanks behind it for each of the tokens holds of them all. -/
theorem forall_mem_spread {P : Token → Prop} {ts : List Token}
    (h : ∀ t ∈ ts, ∀ j, ∀ u ∈ t.withBlanks j, P u) : ∀ u ∈ spread w k ts, P u := by
  induction ts with
  | nil => simp
  | cons t ts ih =>
    intro u hu
    rcases List.mem_append.1 hu with hu | hu
    · exact h t (by simp) _ u hu
    · exact ih (fun v hv => h v (by simp [hv])) u hu

theorem spelled_spread {ts : List Token} (h : ∀ t ∈ ts, t.Spelled) :
    ∀ u ∈ spread w k ts, u.Spelled :=
  forall_mem_spread fun t ht _ => spelled_withBlanks (h t ht)

theorem head?_spread {t : Token} {ts : List Token} (ht : t.kind ≠ .whitespace) :
    (spread w k (t :: ts)).head? = some t := by
  rw [spread_cons, withBlanks_of_ne ht]
  rfl

/-- **The tokens differ in whitespace alone.** -/
theorem matched_spread (ts : List Token) : Matched id ts (spread w k ts) := by
  induction ts with
  | nil => exact .nil
  | cons t ts ih =>
    rw [spread_cons]
    unfold withBlanks
    split
    · exact .keep rfl rfl ih
    · refine .keep rfl rfl ?_
      unfold blanks
      split
      · exact ih
      · exact .put rfl ih

end Token

open Token

/-- **The text is cut into the tokens** if blanks stand only before colons. -/
theorem Cuts.spread {d : Dialect} {w : Position → Nat} {ts : List Token} (h : Cuts d ts)
    (hw : ∀ t ∈ ts, w t.span.first ≠ 0 → t.kind = .colon) : Cuts d (spread w 0 ts) := by
  induction ts with
  | nil => trivial
  | cons t ts ih =>
    have hcut := ih h.2 fun u hu => hw u (by simp [hu])
    have hgap : gapBefore w 0 ts ≠ 0 → ∀ u ∈ ts.head?, u.kind = .colon := by
      intro hne u hu
      obtain ⟨us, rfl⟩ := List.head?_eq_some_iff.1 hu
      exact hw u (by simp) hne
    have hhead : (∀ u ∈ ts.head?, u.kind ≠ .whitespace) →
        ∀ x ∈ (textOf (Token.spread w 0 ts)).head?, isBlankIn d x = false := by
      intro hk
      refine hcut.head_not_blank fun u hu => ?_
      cases ts with
      | nil => cases hu
      | cons v vs =>
        have hv := hk v rfl
        rw [head?_spread hv] at hu
        cases hu
        exact hv
    rw [spread_cons]
    by_cases hk : t.kind = .whitespace
    · -- whitespace takes the blanks up, and behind it stands something else
      obtain ⟨⟨hne, hblanks⟩, -⟩ := h.1.isBlankIn hk
      rw [withBlanks, if_pos hk]
      exact ⟨.of_blanks hk (by simp [hne])
        (List.forall_mem_append.2 ⟨hblanks, isBlankIn_replicate _⟩) (hhead (h.kind_ne hk)), hcut⟩
    · have htext := textOf_spread (w := w) (k := 0) ts
      rw [List.replicate_zero, List.append_nil] at htext
      have hloose : Loosened d (textOf ts) (loose w ts) :=
        Lexes.loosened_loose h.2.spelled fun u hu => hw u (by simp [hu])
      have hfirst := h.1.of_loosened hk hloose
      rw [← htext] at hfirst
      rw [withBlanks_of_ne hk, List.cons_append]
      unfold blanks
      split
      · rename_i hzero
        rw [hzero] at hfirst
        exact ⟨hfirst, hcut⟩
      · rename_i hne
        refine ⟨by simpa using hfirst, .of_blanks rfl (by simp [hne]) (isBlankIn_replicate _) ?_,
          hcut⟩
        refine hhead fun u hu => ?_
        rw [hgap hne u hu]
        exact TokenKind.noConfusion

end TidySheet
