import TidySheet.Proofs.Spelling

/-!
# How long a token is

A token has at least one character and ends within the text. What ends a comment, a string or a url
is part of it, so its length does not depend on the text behind it.

* `length_of_lexeme` — the bounds;
* `commentLength?_append`, `stringLength?_append`, `urlLength?_append` — the text behind may change.
-/

set_option autoImplicit false

namespace TidySheet

/-! ## Cutting at a token's end -/

theorem exists_eq_cons_of_append {a r cs : List Char} {c : Char} (h : a ++ r = c :: cs)
    (hl : 0 < a.length) : ∃ b, a = c :: b ∧ b ++ r = cs := by
  cases a with
  | nil => cases hl
  | cons x b =>
    obtain ⟨rfl, hb⟩ := List.cons.inj h
    exact ⟨b, rfl, hb⟩

theorem exists_eq_cons_cons_of_append {a r cs : List Char} {c x : Char}
    (h : a ++ r = c :: x :: cs) (hl : 2 ≤ a.length) : ∃ b, a = c :: x :: b ∧ b ++ r = cs := by
  obtain ⟨b, hb, hr⟩ := exists_eq_cons_of_append h (by omega)
  rw [hb, List.length_cons] at hl
  obtain ⟨e, he, hr⟩ := exists_eq_cons_of_append hr (by omega)
  exact ⟨e, by rw [hb, he], hr⟩

theorem head?_ne_brace {c : Char} {cs : List Char} (hh : ∀ rest, c = '#' → cs = '{' :: rest → False)
    (ha : ∀ rest, c = '@' → cs = '{' :: rest → False) :
    (c = '#' ∨ c = '@') → cs.head? ≠ some '{' := by
  intro hc hb
  obtain ⟨rest, hrest⟩ := List.head?_eq_some_iff.1 hb
  rcases hc with hc | hc
  · exact hh rest hc hrest
  · exact ha rest hc hrest

theorem ne_slash {c : Char} {cs : List Char} (hn : c = '\\' → cs = [] → False)
    (hs : ∀ x rest, c = '\\' → cs = x :: rest → False) : c ≠ '\\' := by
  intro hc
  cases cs with
  | nil => exact hn hc rfl
  | cons x rest => exact hs x rest hc rfl

/-- A character that is neither an escape nor the start of an interpolation. -/
theorem nameLength_cons {c : Char} {cs : List Char} (hs : c ≠ '\\')
    (hi : (c = '#' ∨ c = '@') → cs.head? ≠ some '{') :
    nameLength 0 (c :: cs) = if isNameChar c then nameLength 0 cs + 1 else 0 := by
  rw [nameLength.eq_def]
  split <;> simp_all

/-! ## Bounds -/

theorem commentLength?_le {cs : List Char} {n : Nat} (h : commentLength? cs = some n) :
    n ≤ cs.length := by
  fun_induction commentLength? cs generalizing n with
  | case1 cs =>
    cases h
    simp only [List.length_cons]
    omega
  | case2 c cs _ ih =>
    obtain ⟨m, hm, rfl⟩ := Option.map_eq_some_iff.1 h
    have := ih hm
    rw [List.length_cons]
    omega
  | case3 => cases h

theorem stringLength?_le {quote : Char} {cs : List Char} {n : Nat}
    (h : stringLength? quote cs = some n) : n ≤ cs.length := by
  fun_induction stringLength? quote cs generalizing n with
  | case1 => cases h
  | case2 => cases h
  | case3 x cs ih =>
    obtain ⟨m, hm, rfl⟩ := Option.map_eq_some_iff.1 h
    have := ih hm
    simp only [List.length_cons]
    omega
  | case4 cs =>
    cases h
    rw [List.length_cons]
    omega
  | case5 c cs _ _ _ ih =>
    obtain ⟨m, hm, rfl⟩ := Option.map_eq_some_iff.1 h
    have := ih hm
    rw [List.length_cons]
    omega

theorem urlLength?_le {cs : List Char} {n : Nat} (h : urlLength? cs = some n) : n ≤ cs.length := by
  induction cs generalizing n with
  | nil => cases h
  | cons c cs ih =>
    rw [urlLength?] at h
    rw [List.length_cons]
    split at h
    · cases h
      omega
    · obtain ⟨m, hm, rfl⟩ := Option.map_eq_some_iff.1 h
      have := ih hm
      omega

theorem urlLength?_pos {cs : List Char} {n : Nat} (h : urlLength? cs = some n) : 0 < n := by
  cases cs with
  | nil => cases h
  | cons c cs =>
    rw [urlLength?] at h
    split at h
    · cases h
      omega
    · obtain ⟨m, -, rfl⟩ := Option.map_eq_some_iff.1 h
      omega

theorem nameLength_le (depth : Nat) (cs : List Char) : nameLength depth cs ≤ cs.length := by
  fun_induction nameLength depth cs <;> grind

theorem nameLength_pos {c : Char} {cs : List Char} (h : startsName (c :: cs) = true) :
    0 < nameLength 0 (c :: cs) := by
  by_cases hs : c = '\\'
  · rw [hs]
    cases cs <;> simp [nameLength]
  by_cases hi : (c = '#' ∨ c = '@') ∧ cs.head? = some '{'
  · obtain ⟨hc, hb⟩ := hi
    obtain ⟨rest, rfl⟩ := List.head?_eq_some_iff.1 hb
    rcases hc with rfl | rfl <;> simp [nameLength]
  · have hc : isNameChar c = true := by
      unfold startsName at h
      split at h <;> simp_all [isNameChar]
    rw [nameLength_cons hs fun hc hb => hi ⟨hc, hb⟩, if_pos hc]
    omega

theorem digitsLength_le (pointRead : Bool) (cs : List Char) :
    digitsLength pointRead cs ≤ cs.length := by
  fun_induction digitsLength pointRead cs <;> grind

theorem unitLength_le (cs : List Char) : unitLength cs ≤ cs.length := by
  unfold unitLength
  split
  · cases cs with
    | nil => simp_all
    | cons c cs => simp
  · split
    · exact nameLength_le 0 cs
    · omega

theorem numberLength_le (cs : List Char) : numberLength cs ≤ cs.length := by
  have hd := digitsLength_le false cs
  have hu := unitLength_le (cs.drop (digitsLength false cs))
  rw [List.length_drop] at hu
  unfold numberLength
  omega

theorem numberLength_pos {cs : List Char} (h : startsNumber cs = true) : 0 < numberLength cs := by
  have hd : 0 < digitsLength false cs := by
    unfold startsNumber at h
    split at h
    · simp [digitsLength, h]
    · cases cs with
      | nil => cases h
      | cons c cs =>
        have hc : c.isDigit = true := h
        simp [digitsLength, hc]
  unfold numberLength
  omega

/-- A token has characters, and no more than the text. -/
theorem length_of_lexeme {d : Dialect} {c : Char} {cs : List Char} {e : Extent}
    (h : lexeme d c cs = .ok e) : 0 < e.length ∧ e.length ≤ cs.length + 1 := by
  have hname := nameLength_le 0 cs
  have hname' := nameLength_le 0 (c :: cs)
  have hnum := numberLength_le cs
  have hnum' := numberLength_le (c :: cs)
  rw [List.length_cons] at hname' hnum'
  cases lexed_of_lexeme h with
  | newline hc => simp
  | whitespace hc =>
    have hl := (List.takeWhile_sublist (l := cs) (isBlankIn d)).length_le
    rw [blankLength]
    dsimp only
    omega
  | comment hc hcs hn =>
    have hl := commentLength?_le hn
    rw [hcs, List.length_cons]
    dsimp only
    omega
  | lineComment hc hcs =>
    have hl := (List.takeWhile_sublist (l := cs) (· != '\n')).length_le
    rw [lineLength]
    dsimp only
    omega
  | string hn =>
    have hl := stringLength?_le hn
    dsimp only
    omega
  | number hc => exact ⟨numberLength_pos hc, hnum'⟩
  | signed hc => 
    dsimp only
    omega
  | uri hn =>
    have hl := urlLength?_le hn
    rw [List.length_drop, List.length_cons] at hl
    have hp := urlLength?_pos hn
    dsimp only
    omega
  | ident hc => exact ⟨nameLength_pos hc, hname'⟩
  | atKeyword hc => dsimp only; omega
  | dollarName hc => dsimp only; omega
  | hash => dsimp only; omega
  | mark => dsimp only; omega

/-! ## Lengths that the text behind does not change -/

theorem commentLength?_pos {cs : List Char} {n : Nat} (h : commentLength? cs = some n) : 2 ≤ n := by
  fun_induction commentLength? cs generalizing n with
  | case1 cs => cases h; exact Nat.le_refl 2
  | case2 c cs _ ih =>
    obtain ⟨m, hm, rfl⟩ := Option.map_eq_some_iff.1 h
    have := ih hm
    omega
  | case3 => cases h

theorem commentLength?_append {a r : List Char} (r' : List Char)
    (h : commentLength? (a ++ r) = some a.length) : commentLength? (a ++ r') = some a.length := by
  generalize hcs : a ++ r = cs at h
  fun_induction commentLength? cs generalizing a with
  | case1 cs =>
    have hl : 2 = a.length := Option.some.inj h
    obtain ⟨b, rfl, -⟩ := exists_eq_cons_cons_of_append hcs (by omega)
    simp only [List.length_cons] at hl
    obtain rfl := List.eq_nil_of_length_eq_zero (l := b) (by omega)
    rfl
  | case2 c cs hne ih =>
    obtain ⟨m, hm, hl⟩ := Option.map_eq_some_iff.1 h
    have hm2 := commentLength?_pos hm
    obtain ⟨b, rfl, hb⟩ := exists_eq_cons_of_append hcs (by omega)
    rw [List.length_cons] at hl
    have hrest := ih hb (by rw [hm]; exact congrArg some (by omega))
    rw [List.cons_append, commentLength?, hrest]
    · rfl
    · intro rest hc hslash
      cases b with
      | nil =>
        have hl : m + 1 = 1 := hl
        omega
      | cons x b =>
        obtain ⟨rfl, -⟩ := List.cons.inj hslash
        exact hne (b ++ r) hc hb.symm
  | case3 => cases h

theorem stringLength?_cons {quote c : Char} {cs : List Char} (hs : c ≠ '\\') :
    stringLength? quote (c :: cs) =
      if c = quote then some 1 else (stringLength? quote cs).map (· + 1) := by
  rw [stringLength?.eq_def]
  split <;> simp_all

theorem stringLength?_append {quote : Char} {a r : List Char} (r' : List Char)
    (h : stringLength? quote (a ++ r) = some a.length) :
    stringLength? quote (a ++ r') = some a.length := by
  generalize hcs : a ++ r = cs at h
  fun_induction stringLength? quote cs generalizing a with
  | case1 => cases h
  | case2 => cases h
  | case3 x cs ih =>
    obtain ⟨m, hm, hl⟩ := Option.map_eq_some_iff.1 h
    obtain ⟨b, rfl, hb⟩ := exists_eq_cons_cons_of_append hcs (by omega)
    simp only [List.length_cons] at hl
    have hrest := ih hb (by rw [hm]; exact congrArg some (by omega))
    simp only [List.cons_append, stringLength?, hrest]
    rfl
  | case4 cs hn hs =>
    have hl : 1 = a.length := Option.some.inj h
    obtain ⟨b, rfl, -⟩ := exists_eq_cons_of_append hcs (by omega)
    rw [List.length_cons] at hl
    obtain rfl := List.eq_nil_of_length_eq_zero (l := b) (by omega)
    rw [List.cons_append, stringLength?_cons (ne_slash hn hs), if_pos rfl]
    rfl
  | case5 c cs hn hs hq ih =>
    obtain ⟨m, hm, hl⟩ := Option.map_eq_some_iff.1 h
    obtain ⟨b, rfl, hb⟩ := exists_eq_cons_of_append hcs (by omega)
    rw [List.length_cons] at hl
    have hrest := ih hb (by rw [hm]; exact congrArg some (by omega))
    rw [List.cons_append, stringLength?_cons (ne_slash hn hs), if_neg hq, hrest]
    rfl

theorem urlLength?_append {a r : List Char} (r' : List Char)
    (h : urlLength? (a ++ r) = some a.length) : urlLength? (a ++ r') = some a.length := by
  induction a with
  | nil =>
    cases r with
    | nil => cases h
    | cons c r =>
      simp only [List.nil_append, List.length_nil, urlLength?] at h
      split at h
      · cases h
      · obtain ⟨m, -, hl⟩ := Option.map_eq_some_iff.1 h
        cases hl
  | cons c a ih =>
    simp only [List.cons_append, List.length_cons, urlLength?] at h ⊢
    split at h
    · rw [if_pos (by assumption)]
      exact h
    · rw [if_neg (by assumption)]
      obtain ⟨m, hm, hl⟩ := Option.map_eq_some_iff.1 h
      rw [ih (by rw [hm]; exact congrArg some (by omega))]
      rfl

theorem length_takeWhile_append {p : Char → Bool} {a r : List Char}
    (ha : ∀ c ∈ a, p c = true) (hr : ∀ c ∈ r.head?, p c = false) :
    ((a ++ r).takeWhile p).length = a.length := by
  have hnil : r.takeWhile p = [] := by
    cases r with
    | nil => rfl
    | cons c r =>
      rw [List.takeWhile_cons_of_neg]
      simpa using hr c rfl
  rw [List.takeWhile_append_of_pos ha, hnil, List.append_nil]

/-- What stops a run of characters stops it at its end. -/
theorem of_length_takeWhile_append {p : Char → Bool} {a r : List Char}
    (h : ((a ++ r).takeWhile p).length = a.length) :
    (∀ c ∈ a, p c = true) ∧ ∀ c ∈ r.head?, p c = false := by
  induction a with
  | nil =>
    refine ⟨by simp, fun c hc => ?_⟩
    obtain ⟨rest, rfl⟩ := List.head?_eq_some_iff.1 hc
    cases hp : p c with
    | false => rfl
    | true =>
      rw [List.nil_append, List.takeWhile_cons_of_pos hp] at h
      cases h
  | cons x a ih =>
    cases hp : p x with
    | false =>
      rw [List.cons_append, List.takeWhile_cons_of_neg (by simp [hp])] at h
      cases h
    | true =>
      rw [List.cons_append, List.takeWhile_cons_of_pos hp, List.length_cons, List.length_cons] at h
      obtain ⟨ha, hr⟩ := ih (by omega)
      exact ⟨List.forall_mem_cons.2 ⟨hp, ha⟩, hr⟩

end TidySheet
