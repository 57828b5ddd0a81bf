import Mathlib.Data.List.Chain
import TidySheet.Proofs.Airing

/-!
# Whitespace of any content

What a whitespace token holds is of no matter to the tokens around it: in its place any blanks may
stand, as long as there are some. Only a comment that runs to the end of its line needs the break
behind it.

* `Token.Reblanks`, `Reblanked` — tokens with other blanks in their whitespace;
* `Reblanked.cuts` — they are cut from their text;
* `tokens_reblanked` — they are the tokens of their text.
-/

set_option autoImplicit false

namespace TidySheet

open Token

variable {d : Dialect} {t u : Token} {ts us : List Token}

/-- The token, with other blanks if it is whitespace. -/
structure Token.Reblanks (d : Dialect) (t u : Token) : Prop where
  kind_eq : u.kind = t.kind
  gap : t.kind = .whitespace → u.IsGap d
  text_eq : t.kind ≠ .whitespace → u.text = t.text

/-- The tokens, with other blanks in their whitespace. Behind a comment that runs to the end of its
line, whitespace starts with the break. -/
structure Reblanked (d : Dialect) (ts us : List Token) : Prop where
  reblanks : List.Forall₂ (Token.Reblanks d) ts us
  breaks : us.IsChain fun t u =>
    t.kind = .lineComment → u.kind = .whitespace → u.text.head? = some '\n'

/-! ## First characters -/

theorem Token.CutFrom.ne_nil {r : List Char} (h : t.CutFrom d r) : t.text ≠ [] := by
  obtain ⟨c, a, ht, -⟩ := h
  simp [ht]

theorem Token.head?_textOf (hu : u.text ≠ []) (us : List Token) :
    (textOf (u :: us)).head? = u.text.head? := by
  rw [textOf_cons, List.head?_append_of_ne_nil _ hu]

namespace Reblanked

theorem tail (h : Reblanked d (t :: ts) (u :: us)) : Reblanked d ts us :=
  ⟨(List.forall₂_cons.1 h.reblanks).2, h.breaks.tail⟩

/-- A text with other blanks starts with the same character, or both start with a blank. -/
theorem head_cases (h : Reblanked d ts us) (hc : Cuts d ts) :
    (textOf us).head? = (textOf ts).head? ∨
      ∃ v vs, us = v :: vs ∧ v.IsGap d ∧ (textOf us).head? = v.text.head? := by
  obtain ⟨hitems, -⟩ := h
  cases hitems with
  | nil => exact .inl rfl
  | @cons t u ts us ht _ =>
    by_cases hw : t.kind = .whitespace
    · have hgap := ht.gap hw
      exact .inr ⟨u, us, rfl, hgap, head?_textOf hgap.ne_nil us⟩
    · have hne := hc.1.ne_nil
      have htext := ht.text_eq hw
      rw [head?_textOf hne, head?_textOf (by rwa [htext]), htext]
      exact .inl rfl

/-- No token that stands before the text goes on in other blanks. -/
theorem loosened (h : Reblanked d ts us) (hc : Cuts d ts) :
    Loosened .css (textOf ts) (textOf us) := by
  obtain ⟨hitems, -⟩ := h
  induction hitems with
  | nil => exact .nil
  | @cons t u ts us ht _ ih =>
    have hrest := ih hc.2
    rw [textOf_cons, textOf_cons]
    by_cases hw : t.kind = .whitespace
    · have hgap := ht.gap hw
      obtain ⟨x, b, hx⟩ := List.exists_cons_of_ne_nil hc.1.ne_nil
      obtain ⟨x', b', hx'⟩ := List.exists_cons_of_ne_nil hgap.ne_nil
      have hblank := hc.1.spelled
      rw [Spelled, hw, hx] at hblank
      have hblank' := hgap.isBlank
      rw [hx'] at hblank'
      obtain ⟨hbx, hb⟩ := List.forall_mem_cons.1 hblank
      obtain ⟨hbx', hb'⟩ := List.forall_mem_cons.1 hblank'
      rw [hx, hx']
      exact .blanks rfl hbx hb hbx' hb' hrest
    · rw [ht.text_eq hw]
      exact hrest.behind t.text

/-- Behind a comment that runs to the end of its line stays its break. -/
theorem head_of_lineComment (h : Reblanked d (t :: ts) (u :: us)) (hc : Cuts d (t :: ts))
    (hk : t.kind = .lineComment) : ∀ x ∈ (textOf us).head?, x = '\n' := by
  have hu : u.kind = .lineComment := by rw [(List.forall₂_cons.1 h.reblanks).1.kind_eq, hk]
  rcases h.tail.head_cases hc.2 with heq | ⟨v, vs, rfl, hgap, heq⟩
  · rw [heq]
    exact hc.1.head_of_lineComment hk
  · have hbreak := (List.isChain_cons_cons.1 h.breaks).1 hu hgap.kind_eq
    rw [heq, hbreak]
    intro x hx
    exact (Option.some.inj hx).symm

/-- A slash does not meet another slash. -/
theorem head?_ne_slash (h : Reblanked d ts us) (hc : Cuts d ts)
    (hs : (textOf ts).head? ≠ some '/') : (textOf us).head? ≠ some '/' := by
  rcases h.head_cases hc with heq | ⟨v, vs, rfl, hgap, heq⟩
  · rwa [heq]
  · rw [heq]
    intro hslash
    have hblank := hgap.isBlank '/' (List.mem_of_head? hslash)
    cases hblank

/-- **Tokens with other blanks are cut from their text.** -/
theorem cuts (h : Reblanked d ts us) (hc : Cuts d ts) : Cuts d us := by
  induction ts generalizing us with
  | nil =>
    cases h.reblanks
    trivial
  | cons t ts ih =>
    obtain ⟨u, us, ht, -, rfl⟩ := List.forall₂_cons_left_iff.1 h.reblanks
    have hus := ih h.tail hc.2
    refine ⟨?_, hus⟩
    by_cases hw : t.kind = .whitespace
    · have hgap := ht.gap hw
      refine .of_blanks hgap.kind_eq hgap.ne_nil hgap.blank (hus.head_not_blank ?_)
      intro v hv
      obtain ⟨vs, rfl⟩ := List.head?_eq_some_iff.1 hv
      obtain ⟨w, ws, hv', -, rfl⟩ := List.forall₂_cons_right_iff.1 h.tail.reblanks
      rw [hv'.kind_eq]
      exact hc.kind_ne hw w rfl
    · have hcut : t.CutFrom d (textOf us) :=
        hc.1.of_next hw (h.head_of_lineComment hc) (fun _ _ => h.tail.loosened hc.2)
          fun hk hd => h.tail.head?_ne_slash hc.2 (hc.1.head?_ne_slash hk hd)
      obtain ⟨c, a, htext, he⟩ := hcut
      exact ⟨c, a, by rw [ht.text_eq hw, htext], by rw [ht.kind_eq, he]⟩

end Reblanked

/-- **The content of whitespace does not matter to the lexer.** With any other blanks in the
whitespace of its tokens, a text is cut into the same tokens, with the other blanks in them. -/
theorem tokens_reblanked {p : Position} {cs : List Char} (h : tokens d p cs = .ok ts)
    (hu : Reblanked d ts us) :
    ∃ vs, tokens d p (textOf us) = .ok vs ∧
      vs.map (fun v => (v.kind, v.text)) = us.map fun u => (u.kind, u.text) := by
  have hcuts := hu.cuts (tokens_eq_ok.1 h).cuts
  obtain ⟨vs, hvs, hmap⟩ := hcuts.exists_lexes p
  refine ⟨vs, tokens_eq_ok.2 hvs, ?_⟩
  have hpairs := congrArg (List.map fun v : Token => (v.kind, v.text)) hmap
  rwa [List.map_map, List.map_map] at hpairs

instance (d : Dialect) (t : Token) : Decidable (t.IsGap d) :=
  decidable_of_iff (t.kind = .whitespace ∧ t.text ≠ [] ∧ t.text.all (isBlankIn d) = true)
    ⟨fun h => ⟨h.1, h.2.1, List.all_eq_true.1 h.2.2⟩,
      fun h => ⟨h.kind_eq, h.ne_nil, List.all_eq_true.2 h.blank⟩⟩

instance (d : Dialect) (t u : Token) : Decidable (t.Reblanks d u) :=
  decidable_of_iff (u.kind = t.kind ∧ (t.kind = .whitespace → u.IsGap d) ∧
    (t.kind ≠ .whitespace → u.text = t.text))
    ⟨fun h => ⟨h.1, h.2.1, h.2.2⟩, fun h => ⟨h.kind_eq, h.gap, h.text_eq⟩⟩

instance (d : Dialect) (ts us : List Token) : Decidable (Reblanked d ts us) :=
  decidable_of_iff (List.Forall₂ (Token.Reblanks d) ts us ∧ us.IsChain fun t u =>
    t.kind = .lineComment → u.kind = .whitespace → u.text.head? = some '\n')
    ⟨fun h => ⟨h.1, h.2⟩, fun h => ⟨h.reblanks, h.breaks⟩⟩

/-- A line comment and a quoted url with blanks behind them. -/
def blankedSource : String := "a\x7b // b\n c:url( 'd' )\x7d"

/-- Its tokens with other blanks. -/
def blankedTexts : List (List Char) :=
  ["a", "\x7b", "\n", "// b", "\n\t\n", "c", ":", "url", "(", "\t ", "'d'", "\r\n", ")",
    "\x7d"].map String.toList

theorem tokens_reblanked_scss : ∃ ts us vs,
    tokens .scss .origin blankedSource.toList = .ok ts ∧ Reblanked .scss ts us ∧
      us.map Token.text = blankedTexts ∧ tokens .scss .origin (textOf us) = .ok vs ∧
      vs.map (fun v => (v.kind, v.text)) = us.map fun u => (u.kind, u.text) := by
  have hread : ((tokens .scss .origin blankedSource.toList).toOption.map fun ts =>
      let us := List.zipWith (fun t text => { t with text := text }) ts blankedTexts
      (decide (Reblanked .scss ts us), us.map Token.text)) = some (true, blankedTexts) := by
    decide +kernel
  cases h : tokens .scss .origin blankedSource.toList with
  | error e =>
    rw [h] at hread
    cases hread
  | ok ts =>
    rw [h] at hread
    simp only [Except.toOption, Option.map_some, Option.some.injEq, Prod.mk.injEq,
      decide_eq_true_eq] at hread
    obtain ⟨vs, hvs, hpairs⟩ := tokens_reblanked h hread.1
    exact ⟨ts, _, vs, rfl, hread.1, hread.2, hvs, hpairs⟩

end TidySheet
