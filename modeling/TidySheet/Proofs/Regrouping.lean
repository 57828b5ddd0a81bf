import TidySheet.Proofs.ColonGroups
import TidySheet.Proofs.Items
import TidySheet.Proofs.Respacing

/-!
# Colons do not depend on whitespace

Whitespace parts tokens, but it takes no part in what they become: the colons of a block's
declarations are the same, at their new places, when whitespace between tokens comes, goes or
changes its width.

* `Matched` — tokens that differ in whitespace alone, moved to other places;
* `Statement.Declares.matched` — a statement declares the same colon;
* `Braces.Items.matched`, `Braces.nodes_matched` — between braces the groups of colons stay.
-/

set_option autoImplicit false

namespace TidySheet

open Token Colons

variable {φ : Position → Position} {d : Dialect}

/-! ## Tokens but for whitespace -/

/-- The tokens `us` are `ts`, moved by `φ`, but for whitespace. -/
inductive Matched (φ : Position → Position) : List Token → List Token → Prop
  | nil : Matched φ [] []
  | drop {t : Token} {ts us : List Token} (ht : t.kind = .whitespace) (h : Matched φ ts us) :
      Matched φ (t :: ts) us
  | put {u : Token} {ts us : List Token} (hu : u.kind = .whitespace) (h : Matched φ ts us) :
      Matched φ ts (u :: us)
  | keep {t u : Token} {ts us : List Token} (hk : u.kind = t.kind)
      (hp : u.span.first = φ t.span.first) (h : Matched φ ts us) : Matched φ (t :: ts) (u :: us)

theorem Spaced.matched {w : Position → Nat} {ts us : List Token} (h : Spaced w ts us) :
    Matched (·.moved w) ts us := by
  induction h with
  | nil => exact .nil
  | keep t _ ih => exact .keep rfl rfl ih
  | put _ _ hb _ ih => exact .put hb (.keep rfl rfl ih)
  | widen ha _ _ hb _ _ ih => exact .drop ha (.put hb (.keep rfl rfl ih))

namespace Matched

variable {xs ys ts us : List Token} {s : Token}

theorem refl (ts : List Token) : Matched id ts ts := by
  induction ts with
  | nil => exact .nil
  | cons t ts ih => exact .keep rfl rfl ih

theorem append (h : Matched φ xs ys) (h' : Matched φ ts us) : Matched φ (xs ++ ts) (ys ++ us) := by
  induction h with
  | nil => exact h'
  | drop ht _ ih => exact .drop ht ih
  | put hu _ ih => exact .put hu ih
  | keep hk hp _ ih => exact .keep hk hp ih

/-- Tokens can be cut apart wherever the tokens that they match are. -/
theorem split (xs : List Token) (h : Matched φ (xs ++ ts) us) :
    ∃ us₁ us₂, us = us₁ ++ us₂ ∧ Matched φ xs us₁ ∧ Matched φ ts us₂ := by
  generalize hxs : xs ++ ts = zs at h
  induction h generalizing xs with
  | nil =>
    obtain ⟨rfl, rfl⟩ := List.append_eq_nil_iff.1 hxs
    exact ⟨[], [], rfl, .nil, .nil⟩
  | @drop t zs us ht h ih =>
    cases xs with
    | nil =>
      rw [List.nil_append] at hxs
      exact ⟨[], us, rfl, .nil, by rw [hxs]; exact .drop ht h⟩
    | cons x xs =>
      obtain ⟨rfl, htail⟩ := List.cons.inj hxs
      obtain ⟨us₁, us₂, rfl, h₁, h₂⟩ := ih xs htail
      exact ⟨us₁, us₂, rfl, .drop ht h₁, h₂⟩
  | @put u zs us hu h ih =>
    obtain ⟨us₁, us₂, rfl, h₁, h₂⟩ := ih xs hxs
    exact ⟨u :: us₁, us₂, rfl, .put hu h₁, h₂⟩
  | @keep t u zs us hk hp h ih =>
    cases xs with
    | nil =>
      rw [List.nil_append] at hxs
      exact ⟨[], u :: us, rfl, .nil, by rw [hxs]; exact .keep hk hp h⟩
    | cons x xs =>
      obtain ⟨rfl, htail⟩ := List.cons.inj hxs
      obtain ⟨us₁, us₂, rfl, h₁, h₂⟩ := ih xs htail
      exact ⟨u :: us₁, us₂, rfl, .keep hk hp h₁, h₂⟩

theorem whitespace_of_nil (h : Matched φ [] us) : ∀ u ∈ us, u.kind = .whitespace := by
  generalize hts : [] = ts at h
  induction h with
  | nil => simp
  | drop => cases hts
  | put hu _ ih => exact List.forall_mem_cons.2 ⟨hu, ih hts⟩
  | keep => cases hts

/-- What a token is matched with, behind whitespace. -/
theorem cons_of_ne (hs : s.kind ≠ .whitespace) (h : Matched φ (s :: ts) us) :
    ∃ ws s' us', us = ws ++ s' :: us' ∧ (∀ w ∈ ws, w.kind = .whitespace) ∧ s'.kind = s.kind ∧
      s'.span.first = φ s.span.first ∧ Matched φ ts us' := by
  generalize hts : s :: ts = zs at h
  induction h with
  | nil => cases hts
  | drop ht =>
    cases hts
    exact absurd ht hs
  | @put u zs us hu h ih =>
    obtain ⟨ws, s', us', rfl, hws, hrest⟩ := ih hts
    exact ⟨u :: ws, s', us', rfl, List.forall_mem_cons.2 ⟨hu, hws⟩, hrest⟩
  | @keep t u zs us hk hp h ih =>
    cases hts
    exact ⟨[], u, us, rfl, by simp, hk, hp, h⟩

theorem putAll {ws : List Token} (hw : ∀ w ∈ ws, w.kind = .whitespace) (h : Matched φ ts us) :
    Matched φ ts (ws ++ us) := by
  induction ws with
  | nil => exact h
  | cons w ws ih => exact .put (hw w (by simp)) (ih fun v hv => hw v (by simp [hv]))

/-- Cutting at a token, with the whitespace before its match on the left. -/
theorem split_at (hs : s.kind ≠ .whitespace) (h : Matched φ (xs ++ s :: ts) us) :
    ∃ us₁ s' us₂, us = us₁ ++ s' :: us₂ ∧ Matched φ xs us₁ ∧ s'.kind = s.kind ∧
      s'.span.first = φ s.span.first ∧ Matched φ ts us₂ := by
  obtain ⟨us₁, us₂, rfl, h₁, h₂⟩ := h.split xs
  obtain ⟨ws, s', us', rfl, hws, hk, hp, h₂⟩ := h₂.cons_of_ne hs
  refine ⟨us₁ ++ ws, s', us', by simp, ?_, hk, hp, h₂⟩
  have happ := h₁.append (Matched.nil.putAll hws)
  simpa using happ

/-! ## What does not depend on whitespace -/

theorem closes_eq (h : Matched φ ts us) (depth : Nat) :
    Value.closes depth us = Value.closes depth ts := by
  induction h generalizing depth with
  | nil => rfl
  | drop ht _ ih => rw [Value.closes_cons_of_ne (by simp [ht]) (by simp [ht]), ih]
  | put hu _ ih => rw [Value.closes_cons_of_ne (by simp [hu]) (by simp [hu]), ih]
  | keep hk _ _ ih => simp only [Value.closes, hk, ih]

theorem isLessVariable_eq (h : Matched φ ts us) :
    Statement.isLessVariable d us = Statement.isLessVariable d ts := by
  have hfind : (us.find? (·.kind != .whitespace)).any (·.kind == .colon) =
      (ts.find? (·.kind != .whitespace)).any (·.kind == .colon) := by
    induction h with
    | nil => rfl
    | drop ht _ ih => simpa [List.find?_cons, ht] using ih
    | put hu _ ih => simpa [List.find?_cons, hu] using ih
    | @keep t u ts us hk _ _ ih =>
      by_cases hw : t.kind = .whitespace
      · simpa [List.find?_cons, hk, hw] using ih
      · simp [hk, hw]
  rw [Statement.isLessVariable, Statement.isLessVariable, hfind]

/-- Both are cut at the same colon, or neither is cut. -/
theorem cutColon?_eq (h : Matched φ ts us) (depth : Nat) :
    (Statement.cutColon? depth ts = none ∧ Statement.cutColon? depth us = none) ∨
      ∃ b c r b' c' r', Statement.cutColon? depth ts = some (b, c, r) ∧
        Statement.cutColon? depth us = some (b', c', r') ∧
        c'.span.first = φ c.span.first ∧ Matched φ r r' := by
  induction h generalizing depth with
  | nil => exact .inl ⟨rfl, rfl⟩
  | @drop t ts us ht _ ih =>
    rw [Statement.cutColon?_cons_of_trivia (by simp [isTrivia, ht])]
    rcases ih depth with ⟨hn, hn'⟩ | ⟨b, c, r, b', c', r', hs, hs', hrest⟩
    · exact .inl ⟨by rw [hn]; rfl, hn'⟩
    · exact .inr ⟨t :: b, c, r, b', c', r', by rw [hs]; rfl, hs', hrest⟩
  | @put u ts us hu _ ih =>
    rw [Statement.cutColon?_cons_of_trivia (t := u) (by simp [isTrivia, hu])]
    rcases ih depth with ⟨hn, hn'⟩ | ⟨b, c, r, b', c', r', hs, hs', hrest⟩
    · exact .inl ⟨hn, by rw [hn']; rfl⟩
    · exact .inr ⟨b, c, r, u :: b', c', r', hs, by rw [hs']; rfl, hrest⟩
  | @keep t u ts us hk hp h ih =>
    rw [Statement.cutColon?, Statement.cutColon?, hk]
    split
    · exact .inr ⟨[], t, ts, [], u, us, rfl, rfl, hp, h⟩
    · dsimp only
      rcases ih _ with ⟨hn, hn'⟩ | ⟨b, c, r, b', c', r', hs, hs', hrest⟩
      · exact .inl ⟨by rw [hn]; rfl, by rw [hn']; rfl⟩
      · exact .inr ⟨t :: b, c, r, u :: b', c', r', by rw [hs]; rfl, by rw [hs']; rfl, hrest⟩

end Matched

/-! ## Statements -/

/-- Whether the first token is an at-keyword. -/
def startsAt (ts : List Token) : Bool := ts.head?.any fun t => t.kind == .atKeyword

theorem startsAt_eq_true {ts : List Token} (h : startsAt ts = true) :
    ∃ t rest, ts = t :: rest ∧ t.kind = .atKeyword := by
  cases ts with
  | nil => cases h
  | cons t rest => exact ⟨t, rest, rfl, by simpa [startsAt] using h⟩

/-- An at-keyword at the start is matched by one at the start. -/
theorem Matched.of_startsAt {t : Token} {ts us : List Token} (h : Matched φ (t :: ts) us)
    (hk : t.kind = .atKeyword) (hat : startsAt us = startsAt (t :: ts)) :
    ∃ u rest, us = u :: rest ∧ u.kind = .atKeyword ∧ Matched φ ts rest := by
  obtain ⟨ws, u, rest, rfl, hws, hu, -, hrest⟩ := h.cons_of_ne (by simp [hk])
  cases ws with
  | nil => exact ⟨u, rest, rfl, by rw [hu, hk], hrest⟩
  | cons w ws => simp [startsAt, hk, hws w] at hat

namespace Statement

theorem not_atrule {t : Token} {ts us : List Token} (hm : Matched φ (t :: ts) us)
    (hat : startsAt us = startsAt (t :: ts))
    (hk : ¬(t.kind = .atKeyword ∧ isLessVariable d ts = false)) :
    ∀ u rest, us = u :: rest → ¬(u.kind = .atKeyword ∧ isLessVariable d rest = false) := by
  rintro u rest rfl ⟨hu, hl⟩
  have hts : startsAt (t :: ts) = true := by
    rw [← hat]
    simp [startsAt, hu]
  obtain ⟨t', ts', he, ht⟩ := startsAt_eq_true hts
  cases he
  obtain ⟨u', rest', he, -, hrest⟩ := hm.of_startsAt ht hat
  cases he
  exact hk ⟨ht, by rw [← hrest.isLessVariable_eq]; exact hl⟩

/-- **A statement declares the same colon**, whatever its whitespace. -/
theorem Declares.matched {ts us : List Token} {ps : List Position} (h : Declares d ts ps)
    (hm : Matched φ ts us) (hat : startsAt us = startsAt ts) : Declares d us (ps.map φ) := by
  cases h with
  | none =>
    cases us with
    | nil => exact .none
    | cons u us =>
      have hu := hm.whitespace_of_nil
      refine .raw (by simp [hu u]) ?_
      have hcut := hm.cutColon?_eq 0
      rcases hcut with ⟨-, hn⟩ | ⟨b, c, r, b', c', r', hs, -⟩
      · exact hn
      · cases hs
  | @atrule t ts hk hl hv =>
    obtain ⟨u, rest, rfl, hu, hrest⟩ := hm.of_startsAt hk hat
    refine .atrule hu ?_ ?_
    · rw [hrest.isLessVariable_eq, hl]
    · rw [hrest.closes_eq, hv]
  | @raw t ts hk hc =>
    have hnot := not_atrule hm hat hk
    rcases hm.cutColon?_eq 0 with ⟨-, hn⟩ | ⟨b, c, r, b', c', r', hs, -⟩
    · cases us with
      | nil => exact .none
      | cons u us => exact .raw (hnot u us rfl) hn
    · rw [hs] at hc
      cases hc
  | @declaration t colon ts before behind hk hc hv =>
    have hnot := not_atrule hm hat hk
    rcases hm.cutColon?_eq 0 with ⟨hn, -⟩ | ⟨b, c, r, b', c', r', hs, hs', hp, hrest⟩
    · rw [hn] at hc
      cases hc
    · rw [hs] at hc
      cases hc
      cases us with
      | nil => cases hs'
      | cons u us =>
        have hdecl := Declares.declaration (d := d) (hnot u us rfl) hs' (by
          rw [hrest.closes_eq, hv])
        rw [hp] at hdecl
        exact hdecl

theorem Opens.matched {ts us : List Token} (h : Opens ts) (hm : Matched φ ts us)
    (hat : startsAt us = startsAt ts) : Opens us := by
  rintro u rest rfl hu
  have hts : startsAt ts = true := by
    rw [← hat]
    simp [startsAt, hu]
  obtain ⟨t, ts, rfl, ht⟩ := startsAt_eq_true hts
  obtain ⟨u', rest', he, -, hrest⟩ := hm.of_startsAt ht hat
  cases he
  rw [hrest.closes_eq]
  exact h t ts rfl ht

end Statement

/-! ## Nodes -/

/-- The nodes `ms` have the colons of `ns`, moved by `φ`. -/
structure Follows (φ : Position → Position) (ns ms : List Node) : Prop where
  colons_eq : colons ms = (colons ns).map φ
  groups_eq : groupsOf ms = (groupsOf ns).map (List.map φ)

namespace Follows

variable {ns ms ns' ms' : List Node}

theorem nil : Follows φ [] [] := ⟨rfl, by simp⟩

theorem append (h : Follows φ ns ms) (h' : Follows φ ns' ms') :
    Follows φ (ns ++ ns') (ms ++ ms') := by
  constructor
  · rw [colons_append, colons_append, h.colons_eq, h'.colons_eq, List.map_append]
  · rw [groupsOf_append, groupsOf_append, h.groups_eq, h'.groups_eq, List.map_append]

/-- Nodes without colons and blocks follow each other. -/
theorem of_nil (hn : colons ns = []) (hm : colons ms = []) (hng : groupsOf ns = [])
    (hmg : groupsOf ms = []) : Follows φ ns ms := by
  constructor
  · rw [hn, hm, List.map_nil]
  · rw [hng, hmg, List.map_nil]

theorem leaves (ts us : List Token) : Follows φ (leaves d ts) (leaves d us) :=
  of_nil (colons_leaves ts) (colons_leaves us) (groupsOf_leaves ts) (groupsOf_leaves us)

theorem plain {ts us : List Token} (h : Statement.Plain d ts ns) (hm : Matched φ ts us)
    (hat : startsAt us = startsAt ts) : ∃ ms, Statement.Plain d us ms ∧ Follows φ ns ms := by
  obtain ⟨ms, hms, hc⟩ := (h.declares.matched hm hat).exists_plain
  refine ⟨ms, hms, hc, ?_⟩
  rw [h.groupsOf_eq, hms.groupsOf_eq, List.map_nil]

/-- A statement with a block follows one if the blocks follow each other. -/
theorem opener {head head' : List Token} {l k : Label} {cs cs' : List Node} {n : Node}
    (hl : l.kind = .block) (hk : k.kind = .block) (hf : Follows φ cs cs')
    (h : Statement.Opener d (.branch l cs) head n) (hm : Matched φ head head')
    (hat : startsAt head' = startsAt head) :
    ∃ m, Statement.Opener d (.branch k cs') head' m ∧ Follows φ [n] [m] := by
  obtain ⟨m, hopen⟩ := (h.opens.matched hm hat).exists_opener (d := d) (.branch k cs')
  refine ⟨m, hopen, ?_, ?_⟩
  · rw [colons_cons, colons_cons, h.colons_eq, hopen.colons_eq]
    rfl
  · simp only [groupsOf_cons, groupsOf_nil, List.append_nil, h.groups_eq, hopen.groups_eq, groups,
      hl, hk, if_true, hf.colons_eq, hf.groups_eq, List.map_cons]

end Follows

/-! ## Between braces -/

theorem isTrivia_eq {t u : Token} (h : u.kind = t.kind) : u.isTrivia = t.isTrivia := by
  rw [Token.isTrivia, Token.isTrivia, h]

theorem isTrivia_of_whitespace {t : Token} (h : t.kind = .whitespace) : t.isTrivia = true := by
  rw [Token.isTrivia, h]

theorem Matched.isTrivia {ts us : List Token} (h : Matched φ ts us)
    (ht : ∀ t ∈ ts, t.isTrivia = true) : ∀ u ∈ us, u.isTrivia = true := by
  induction h with
  | nil => exact ht
  | drop _ _ ih => exact ih fun t hm => ht t (by simp [hm])
  | put hu _ ih => exact List.forall_mem_cons.2 ⟨isTrivia_of_whitespace hu, ih ht⟩
  | @keep t u ts us hk _ _ ih =>
    refine List.forall_mem_cons.2 ⟨?_, ih fun t hm => ht t (by simp [hm])⟩
    rw [isTrivia_eq hk]
    exact ht t (by simp)

namespace Braces

open Statement

variable {ts us : List Token} {ns : List Node}

theorem depthOver_cons (k : Nat) (t : Token) (ts : List Token) : depthOver k (t :: ts) =
    if k = 0 ∧ isEnd t = true then none else depthOver (depthAfter k t) ts := by
  rw [depthOver, List.foldlM_cons]
  split <;> rfl

theorem depthOver_whitespace {t : Token} (h : t.kind = .whitespace) (k : Nat) (ts : List Token) :
    depthOver k (t :: ts) = depthOver k ts := by
  rw [depthOver_cons, if_neg (by simp [isEnd, h]), depthAfter, h]

theorem depthOver_eq (h : Matched φ ts us) (k : Nat) : depthOver k us = depthOver k ts := by
  induction h generalizing k with
  | nil => rfl
  | drop ht _ ih => rw [depthOver_whitespace ht, ih]
  | put hu _ ih => rw [depthOver_whitespace hu, ih]
  | @keep t u ts us hk _ _ ih =>
    have hend : isEnd u = isEnd t := by rw [isEnd, isEnd, hk]
    have hafter : depthAfter k u = depthAfter k t := by rw [depthAfter, depthAfter, hk]
    rw [depthOver_cons, depthOver_cons, hend, hafter, ih]

/-- A statement is matched by a statement, behind whitespace. -/
theorem Head.matched {head : List Token} {depth : Nat} (h : Head head depth)
    (hm : Matched φ head us) :
    ∃ ws head', us = ws ++ head' ∧ (∀ w ∈ ws, w.isTrivia = true) ∧ Matched φ head head' ∧
      Head head' depth ∧ startsAt head' = startsAt head := by
  cases head with
  | nil =>
    have hws := hm.whitespace_of_nil
    exact ⟨us, [], by simp, fun w hw => isTrivia_of_whitespace (hws w hw), .nil, h, rfl⟩
  | cons t ts =>
    have ht := h.start t rfl
    obtain ⟨ws, u, rest, rfl, hws, hk, hp, hrest⟩ := hm.cons_of_ne (Token.kind_ne_whitespace ht)
    have hhead : Matched φ (t :: ts) (u :: rest) := .keep hk hp hrest
    refine ⟨ws, u :: rest, rfl, fun w hw => isTrivia_of_whitespace (hws w hw), hhead, ⟨?_, ?_⟩, ?_⟩
    · intro v hv
      cases hv
      rw [isTrivia_eq hk, ht]
    · rw [depthOver_eq hhead, h.depth_eq]
    · simp [startsAt, hk]

theorem items_trivia (h : ∀ t ∈ ts, t.isTrivia = true) : Items d ts (leaves d ts) := by
  induction ts with
  | nil => exact .nil
  | cons t ts ih => exact .trivia (h t (by simp)) (ih fun u hu => h u (by simp [hu]))

/-- **Items keep their groups of colons**, whatever the whitespace between their tokens. -/
theorem Items.matched (h : Items d ts ns) (hm : Matched φ ts us) :
    ∃ ms, Items d us ms ∧ Follows φ ns ms := by
  induction h generalizing us with
  | nil =>
    have hus := hm.isTrivia (by simp)
    exact ⟨leaves d us, items_trivia hus, .leaves [] us⟩
  | @trivia t ts ns ht _ ih =>
    obtain ⟨us₁, us₂, rfl, h₁, h₂⟩ := hm.split [t]
    obtain ⟨ms, hms, hf⟩ := ih h₂
    have hus := h₁.isTrivia (by simpa using ht)
    exact ⟨_, (items_trivia hus).append hms, (Follows.leaves [t] us₁).append hf⟩
  | @statement head ts s own ns hh ho hs _ ih =>
    obtain ⟨us₁, s', us₂, rfl, h₁, hk, -, h₂⟩ := hm.split_at (by simp [hs])
    obtain ⟨ws, head', rfl, hws, hhead, hh', hat⟩ := hh.matched h₁
    obtain ⟨own', ho', hfo⟩ := Follows.plain ho hhead hat
    obtain ⟨ms, hms, hf⟩ := ih h₂
    have hitems := (items_trivia hws).append (.statement hh' ho' (by rw [hk, hs]) hms)
    have hfollows := (Follows.leaves (φ := φ) (d := d) [] ws).append
      (hfo.append ((Follows.leaves (d := d) [s] [s']).append hf))
    exact ⟨_, by rw [List.append_assoc]; exact hitems, hfollows⟩
  | @nested head inner last ts a b cs own ns n hh ha hi hl ho hb hn _ ihi ih =>
    obtain ⟨us₁, a', us₂, rfl, h₁, hka, -, hrest⟩ := hm.split_at (by simp [ha])
    obtain ⟨us₂, us₃, rfl, h₂, hrest⟩ := hrest.split inner
    obtain ⟨us₃, b', us₄, rfl, h₃, hkb, -, h₄⟩ := hrest.split_at (by simp [hb])
    obtain ⟨ws, head', rfl, hws, hhead, hh', hat⟩ := hh.matched h₁
    obtain ⟨ws', last', rfl, hws', hlast, hl', hat'⟩ := hl.matched h₃
    obtain ⟨cs', hi', hfi⟩ := ihi h₂
    obtain ⟨own', ho', hfo⟩ := Follows.plain ho hlast hat'
    obtain ⟨ms, hms, hf⟩ := ih h₄
    have hinner := hi'.append (items_trivia (d := d) hws')
    have hblock : Follows φ (cs ++ own) ((cs' ++ leaves d ws') ++ own') := by
      have hall := hfi.append ((Follows.leaves (d := d) [] ws').append hfo)
      simpa [leaves] using hall
    obtain ⟨m, hm, hfm⟩ := Follows.opener (k := ⟨.block, d, ⟨a'.span.first, b'.span.last⟩⟩) rfl rfl
      hblock hn hhead hat
    have hitems := (items_trivia hws).append
      (.nested hh' (by rw [hka, ha]) hinner hl' ho' (by rw [hkb, hb]) hm hms)
    have hfollows := (Follows.leaves (φ := φ) (d := d) [] ws).append (hfm.append hf)
    exact ⟨_, by simpa using hitems, hfollows⟩

/-- **Between braces the groups of colons stay**, whatever the whitespace. -/
theorem nodes_matched (h : nodes d ts = .ok ns) (hm : Matched φ ts us) :
    ∃ ms, nodes d us = .ok ms ∧ Follows φ ns ms := by
  cases nodes_eq_ok.1 h with
  | @intro items last cs own depth hi hl ho =>
    obtain ⟨us₁, us₂, rfl, h₁, h₂⟩ := hm.split items
    obtain ⟨cs', hi', hfi⟩ := hi.matched h₁
    obtain ⟨ws, last', rfl, hws, hlast, hl', hat⟩ := hl.matched h₂
    obtain ⟨own', ho', hfo⟩ := Follows.plain ho hlast hat
    have hsheet := Sheet.intro (hi'.append (items_trivia hws)) hl' ho'
    have hfollows := hfi.append ((Follows.leaves (d := d) [] ws).append hfo)
    refine ⟨_, nodes_eq_ok.2 (by simpa using hsheet), ?_⟩
    simpa [leaves] using hfollows

end Braces

end TidySheet
