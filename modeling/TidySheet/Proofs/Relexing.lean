import TidySheet.Proofs.TokenLengths

/-!
# Blanks between tokens

A colon ends every token that it is not part of, and so does a blank; where no comment runs to the
end of its line, a semicolon, a closing brace and a comment do so as well. So blanks may come and go
before such a character without a change to the tokens around it.

* `Loosened` — texts that part ways only before characters that end every token;
* `Loosened.lexeme_eq` — what the lexer reads off the front does not change when the text behind it
  is loosened;
* `lexeme_blank` — a run of blanks is one token.
-/

set_option autoImplicit false

namespace TidySheet

/-! ## Texts that end a token -/

/-- The characters that no token goes on with. -/
def enders : List Char := [' ', '\t', '\n', '\r', '\x0c', ':', ';', '}', '/']

/-- A colon, or another mark that ends what stands before it. A comment that runs to the end of its
line is ended by no mark. -/
def isStop (d : Dialect) (c : Char) : Bool :=
  c == ':' || (!d.hasLineComments && (c == ';' || c == '}' || c == '/'))

/-- A text that has such a mark behind its blanks. -/
structure Stops (d : Dialect) (s : List Char) : Prop where
  exists_stop : ∃ blanks c r, s = blanks ++ c :: r ∧ isStop d c = true ∧
    ∀ x ∈ blanks, isBlank x = true ∧ (d.hasLineComments = true → x ≠ '\n')

/-- The second text is the first one with other blanks before some of its stops. What stands behind
such a stop, or behind an opening brace, is of no matter. Where no comment runs to the end of its
line, blanks may be others before anything, as long as there are some. -/
inductive Loosened (d : Dialect) : List Char → List Char → Prop
  | nil : Loosened d [] []
  | keep (c : Char) {s s' : List Char} (h : Loosened d s s') : Loosened d (c :: s) (c :: s')
  | stop {s s' : List Char} (h : Stops d s) (h' : Stops d s') : Loosened d s s'
  | brace (s s' : List Char) : Loosened d ('{' :: s) ('{' :: s')
  | blanks {x x' : Char} {b b' s s' : List Char} (hd : d.hasLineComments = false)
      (hx : isBlank x = true) (hb : ∀ y ∈ b, isBlank y = true) (hx' : isBlank x' = true)
      (hb' : ∀ y ∈ b', isBlank y = true) (h : Loosened d s s') :
      Loosened d (x :: (b ++ s)) (x' :: (b' ++ s'))

variable {d : Dialect}

theorem isStop_mem {c : Char} (h : isStop d c = true) : c ∈ [':', ';', '}', '/'] := by
  simp only [isStop, Bool.or_eq_true, Bool.and_eq_true, beq_iff_eq] at h
  simp only [List.mem_cons, List.not_mem_nil, or_false]
  grind

theorem isBlank_mem {c : Char} (h : isBlank c = true) : c ∈ enders := by
  simp only [isBlank, Bool.or_eq_true, beq_iff_eq] at h
  simp only [enders, List.mem_cons, List.not_mem_nil, or_false]
  grind

theorem find?_append_of_blank {b s : List Char} (hb : ∀ y ∈ b, isBlank y = true) :
    (b ++ s).find? (fun c => !isBlank c) = s.find? (fun c => !isBlank c) := by
  have hnone : b.find? (fun c => !isBlank c) = none := by
    rw [List.find?_eq_none]
    intro y hy
    simp [hb y hy]
  rw [List.find?_append, hnone, Option.none_or]

namespace Stops

variable {s : List Char}

theorem of_stop {c : Char} (h : isStop d c = true) (r : List Char) : Stops d (c :: r) :=
  ⟨[], c, r, rfl, h, by simp⟩

theorem blank {x : Char} (h : Stops d s) (hx : isBlank x = true)
    (hn : d.hasLineComments = true → x ≠ '\n') : Stops d (x :: s) := by
  obtain ⟨blanks, c, r, rfl, hc, hb⟩ := h.exists_stop
  exact ⟨x :: blanks, c, r, rfl, hc, List.forall_mem_cons.2 ⟨⟨hx, hn⟩, hb⟩⟩

theorem append (h : Stops d s) (r : List Char) : Stops d (s ++ r) := by
  obtain ⟨blanks, c, r', rfl, hc, hb⟩ := h.exists_stop
  exact ⟨blanks, c, r' ++ r, by simp, hc, hb⟩

theorem exists_cons (h : Stops d s) : ∃ c r, s = c :: r ∧ c ∈ enders ∧
    (d.hasLineComments = true → c ≠ '\n' ∧ c ≠ '/') := by
  obtain ⟨blanks, c, r, rfl, hc, hb⟩ := h.exists_stop
  cases blanks with
  | nil =>
    refine ⟨c, r, rfl, ?_, fun hd => ?_⟩
    · have hm := isStop_mem hc
      simp only [enders, List.mem_cons, List.not_mem_nil, or_false] at hm ⊢
      grind
    · rw [isStop, hd, Bool.not_true, Bool.false_and, Bool.or_false, beq_iff_eq] at hc
      rw [hc]
      decide
  | cons x blanks =>
    obtain ⟨hx, hn⟩ := hb x List.mem_cons_self
    refine ⟨x, _, rfl, isBlank_mem hx, fun hd => ⟨hn hd, ?_⟩⟩
    rintro rfl
    cases hx

theorem find? (h : Stops d s) : ∃ c ∈ [':', ';', '}', '/'], s.find? (fun c => !isBlank c) = some c := by
  obtain ⟨blanks, c, r, rfl, hc, hb⟩ := h.exists_stop
  have hm := isStop_mem hc
  refine ⟨c, hm, ?_⟩
  have hink : [':', ';', '}', '/'].any isBlank = false := by decide
  have hc := List.any_eq_false.1 hink c hm
  rw [find?_append_of_blank fun x hx => (hb x hx).1, List.find?_cons_of_pos (by simpa using hc)]

end Stops

namespace Loosened

variable {r r' s s' : List Char}

theorem refl : ∀ s : List Char, Loosened d s s
  | [] => .nil
  | c :: s => .keep c (refl s)

theorem append (h : Loosened d s s') (hr : Loosened d r r') : Loosened d (s ++ r) (s' ++ r') := by
  induction h with
  | nil => exact hr
  | keep c _ ih => exact .keep c ih
  | stop h h' => exact .stop (h.append r) (h'.append r')
  | brace s s' => exact .brace _ _
  | blanks hd hx hb hx' hb' _ ih =>
    rw [List.cons_append, List.cons_append, List.append_assoc, List.append_assoc]
    exact .blanks hd hx hb hx' hb' ih

theorem behind (a : List Char) (h : Loosened d r r') : Loosened d (a ++ r) (a ++ r') :=
  (refl a).append h

theorem eq_nil (h : Loosened d [] s') : s' = [] := by
  cases h with
  | nil => rfl
  | stop h =>
    obtain ⟨c, r, hs, -⟩ := h.exists_cons
    cases hs

/-- The first character is the same, unless it ends every token. -/
theorem head_cases (h : Loosened d s s') : s'.head? = s.head? ∨
    ∃ c r c' r', s = c :: r ∧ s' = c' :: r' ∧ c ∈ enders ∧ c' ∈ enders := by
  cases h with
  | nil => exact .inl rfl
  | keep c _ => exact .inl rfl
  | brace _ _ => exact .inl rfl
  | stop h h' =>
    obtain ⟨c, r, rfl, hc, -⟩ := h.exists_cons
    obtain ⟨c', r', rfl, hc', -⟩ := h'.exists_cons
    exact .inr ⟨c, r, c', r', rfl, rfl, hc, hc'⟩
  | blanks _ hx _ hx' _ _ =>
    exact .inr ⟨_, _, _, _, rfl, rfl, isBlank_mem hx, isBlank_mem hx'⟩

theorem any_head? {p : Char → Bool} (h : Loosened d s s') (hp : enders.any p = false) :
    s'.head?.any p = s.head?.any p := by
  rcases h.head_cases with heq | ⟨c, r, c', r', rfl, rfl, hc, hc'⟩
  · rw [heq]
  · simp [List.any_eq_false.1 hp c hc, List.any_eq_false.1 hp c' hc']

theorem head?_eq_some_iff {x : Char} (h : Loosened d s s') (hx : x ∉ enders) :
    s'.head? = some x ↔ s.head? = some x := by
  rcases h.head_cases with heq | ⟨c, r, c', r', rfl, rfl, hc, hc'⟩
  · rw [heq]
  · have hne : c ≠ x := fun h => hx (h ▸ hc)
    have hne' : c' ≠ x := fun h => hx (h ▸ hc')
    simp [hne, hne']

theorem head?_beq {x : Char} (h : Loosened d s s') (hx : x ∉ enders) :
    (s'.head? == some x) = (s.head? == some x) := by
  rw [Bool.eq_iff_iff, beq_iff_eq, beq_iff_eq]
  exact h.head?_eq_some_iff hx

/-- Where `//` starts a comment, a slash stays where it is. -/
theorem head?_beq_slash (h : Loosened d s s') (hd : d.hasLineComments = true) :
    (s'.head? == some '/') = (s.head? == some '/') := by
  cases h with
  | nil => rfl
  | keep c _ => rfl
  | brace _ _ => rfl
  | stop h h' =>
    obtain ⟨c, r, rfl, -, hc⟩ := h.exists_cons
    obtain ⟨c', r', rfl, -, hc'⟩ := h'.exists_cons
    have hne : ∀ x : Char, x ≠ '/' → (x == '/') = false := fun x hx => beq_eq_false_iff_ne.2 hx
    show (some c' == some '/') = (some c == some '/')
    rw [Option.some_beq_some, Option.some_beq_some, hne c (hc hd).2, hne c' (hc' hd).2]
  | blanks hn =>
    rw [hd] at hn
    cases hn

/-! ## What may start a token -/

theorem startsDigit_eq (h : Loosened d s s') : startsDigit s' = startsDigit s :=
  h.any_head? (by decide)

theorem startsNumber_of_ender {c : Char} (hc : c ∈ enders) (r : List Char) :
    startsNumber (c :: r) = false := by
  simp only [enders, List.mem_cons, List.not_mem_nil, or_false] at hc
  rcases hc with rfl | rfl | rfl | rfl | rfl | rfl | rfl | rfl | rfl <;> rfl

theorem startsNumber_eq (h : Loosened d s s') : startsNumber s' = startsNumber s := by
  cases h with
  | nil => rfl
  | brace _ _ => rfl
  | stop h h' =>
    obtain ⟨c, r, rfl, hc, -⟩ := h.exists_cons
    obtain ⟨c', r', rfl, hc', -⟩ := h'.exists_cons
    rw [startsNumber_of_ender hc, startsNumber_of_ender hc']
  | blanks _ hx _ hx' _ _ =>
    rw [startsNumber_of_ender (isBlank_mem hx), startsNumber_of_ender (isBlank_mem hx')]
  | @keep c s s' h =>
    by_cases hc : c = '.'
    · rw [hc]
      exact h.startsDigit_eq
    · have hne : ∀ r : List Char, startsNumber (c :: r) = c.isDigit := by
        intro r
        unfold startsNumber
        split
        · rename_i h
          exact absurd (List.cons.inj h).1 hc
        · simp [startsDigit]
      rw [hne, hne]

theorem startsName_of_ender {c : Char} (hc : c ∈ enders) (r : List Char) :
    startsName (c :: r) = false := by
  simp only [enders, List.mem_cons, List.not_mem_nil, or_false] at hc
  rcases hc with rfl | rfl | rfl | rfl | rfl | rfl | rfl | rfl | rfl <;> rfl

theorem startsName_dash_of_ender {c : Char} (hc : c ∈ enders) (r : List Char) :
    startsName ('-' :: c :: r) = false := by
  simp only [enders, List.mem_cons, List.not_mem_nil, or_false] at hc
  rcases hc with rfl | rfl | rfl | rfl | rfl | rfl | rfl | rfl | rfl <;> rfl

theorem startsName_eq (h : Loosened d s s') : startsName s' = startsName s := by
  cases h with
  | nil => rfl
  | brace _ _ => rfl
  | stop h h' =>
    obtain ⟨c, r, rfl, hc, -⟩ := h.exists_cons
    obtain ⟨c', r', rfl, hc', -⟩ := h'.exists_cons
    rw [startsName_of_ender hc, startsName_of_ender hc']
  | blanks _ hx _ hx' _ _ =>
    rw [startsName_of_ender (isBlank_mem hx), startsName_of_ender (isBlank_mem hx')]
  | @keep c s s' h =>
    by_cases hdash : c = '-'
    · rw [hdash]
      cases h with
      | nil => rfl
      | brace _ _ => rfl
      | stop h h' =>
        obtain ⟨c, r, rfl, hc, -⟩ := h.exists_cons
        obtain ⟨c', r', rfl, hc', -⟩ := h'.exists_cons
        rw [startsName_dash_of_ender hc, startsName_dash_of_ender hc']
      | blanks _ hx _ hx' _ _ =>
        rw [startsName_dash_of_ender (isBlank_mem hx),
          startsName_dash_of_ender (isBlank_mem hx')]
      | keep x h =>
        have hbrace := h.head?_beq (x := '{') (by decide)
        simp only [startsName, hbrace]
    by_cases hslash : c = '\\'
    · rw [hslash]
      cases h with
      | nil => rfl
      | keep x _ => rfl
      | brace _ _ => rfl
      | blanks => rfl
      | stop h h' =>
        obtain ⟨c, r, rfl, -⟩ := h.exists_cons
        obtain ⟨c', r', rfl, -⟩ := h'.exists_cons
        rfl
    by_cases hhash : c = '#'
    · rw [hhash]
      exact h.head?_beq (by decide)
    by_cases hat : c = '@'
    · rw [hat]
      exact h.head?_beq (by decide)
    · have hne : ∀ r : List Char, startsName (c :: r) = isNameStart c := by
        intro r
        unfold startsName
        split <;> simp_all
      rw [hne, hne]

/-- The first character that is no blank is the same, or else no quote opens there. -/
theorem find?_cases (h : Loosened d s s') :
    s'.find? (fun c => !isBlank c) = s.find? (fun c => !isBlank c) ∨
      ∃ c ∈ [':', ';', '}', '/'], ∃ c' ∈ [':', ';', '}', '/'],
        s.find? (fun c => !isBlank c) = some c ∧ s'.find? (fun c => !isBlank c) = some c' := by
  induction h with
  | nil => exact .inl rfl
  | keep c _ ih =>
    cases hb : isBlank c with
    | true => simpa [List.find?_cons, hb] using ih
    | false => exact .inl (by simp [hb])
  | stop h h' =>
    obtain ⟨c, hc, hs⟩ := h.find?
    obtain ⟨c', hc', hs'⟩ := h'.find?
    exact .inr ⟨c, hc, c', hc', hs, hs'⟩
  | brace _ _ => exact .inl rfl
  | blanks _ hx hb hx' hb' _ ih =>
    simpa only [List.find?_cons, hx, hx', Bool.not_true, find?_append_of_blank hb,
      find?_append_of_blank hb'] using ih

theorem startsUnquoted_of_stop {c : Char} (hc : c ∈ [':', ';', '}', '/']) {r : List Char}
    (h : r.find? (fun c => !isBlank c) = some c) : startsUnquoted ('(' :: r) = true := by
  simp only [List.mem_cons, List.not_mem_nil, or_false] at hc
  rcases hc with rfl | rfl | rfl | rfl <;> (simp only [startsUnquoted, h]; rfl)

theorem startsUnquoted_of_ne {c : Char} (hc : c ≠ '(') (r : List Char) :
    startsUnquoted (c :: r) = false := by
  unfold startsUnquoted
  split
  · rename_i h
    exact absurd (List.cons.inj h).1 hc
  · rfl

theorem startsUnquoted_eq (h : Loosened d s s') : startsUnquoted s' = startsUnquoted s := by
  have hparen : '(' ∉ enders := by decide
  cases h with
  | nil => rfl
  | brace _ _ => rfl
  | stop h h' =>
    obtain ⟨c, r, rfl, hc, -⟩ := h.exists_cons
    obtain ⟨c', r', rfl, hc', -⟩ := h'.exists_cons
    rw [startsUnquoted_of_ne (fun h => hparen (h ▸ hc)),
      startsUnquoted_of_ne (fun h => hparen (h ▸ hc'))]
  | blanks _ hx _ hx' _ _ =>
    rw [startsUnquoted_of_ne (fun h => hparen (h ▸ isBlank_mem hx)),
      startsUnquoted_of_ne (fun h => hparen (h ▸ isBlank_mem hx'))]
  | @keep c s s' h =>
    by_cases hc : c = '('
    · rw [hc]
      rcases h.find?_cases with heq | ⟨c, hc, c', hc', hs, hs'⟩
      · simp only [startsUnquoted, heq]
      · rw [startsUnquoted_of_stop hc hs, startsUnquoted_of_stop hc' hs']
    · rw [startsUnquoted_of_ne hc, startsUnquoted_of_ne hc]

end Loosened

/-! ## Blanks -/

/-- **A run of blanks is one token.** -/
theorem isBlankIn_replicate (n : Nat) : ∀ x ∈ List.replicate n ' ', isBlankIn d x = true := by
  intro x hx
  rw [List.eq_of_mem_replicate hx]
  cases d <;> rfl

theorem lexeme_blank {c : Char} {a r : List Char} (hc : isBlankIn d c = true)
    (ha : ∀ x ∈ a, isBlankIn d x = true) (hr : ∀ x ∈ r.head?, isBlankIn d x = false) :
    lexeme d c (a ++ r) = .ok ⟨.whitespace, a.length + 1⟩ := by
  simp only [isBlankIn, Bool.and_eq_true, Bool.not_eq_true'] at hc
  rw [lexeme, if_neg (by simp [hc.2]), if_pos hc.1, blankLength, length_takeWhile_append ha hr,
    Nat.add_comm]

theorem isBlankIn_of_lexeme {c : Char} {a r : List Char}
    (h : lexeme d c (a ++ r) = .ok ⟨.whitespace, a.length + 1⟩) :
    (∀ x ∈ c :: a, isBlankIn d x = true) ∧ ∀ x ∈ r.head?, isBlankIn d x = false := by
  have hne : ¬(c == '\n' && d == .sass) = true := by
    intro hc
    rw [lexeme, if_pos hc] at h
    cases h
  have hblank : isBlank c = true := by
    generalize he : Extent.mk .whitespace (a.length + 1) = e at h
    cases lexed_of_lexeme h with
    | whitespace hc => exact hc
    | mark =>
      have hk : TokenKind.whitespace = markKind c := (Extent.mk.inj he).1
      unfold markKind at hk
      split at hk <;> cases hk
    | _ => cases he
  have hl : 1 + blankLength d (a ++ r) = a.length + 1 := by
    rw [lexeme, if_neg hne, if_pos hblank] at h
    exact (Extent.mk.inj (Except.ok.inj h)).2
  obtain ⟨ha, hr⟩ := of_length_takeWhile_append (p := isBlankIn d) (a := a) (r := r) (by
    rw [← blankLength]
    omega)
  refine ⟨List.forall_mem_cons.2 ⟨?_, ha⟩, hr⟩
  rw [isBlankIn, hblank, Bool.true_and, Bool.not_eq_true', Bool.eq_false_iff]
  exact hne

theorem of_ok_eq_ok {k k' : TokenKind} {n n' : Nat}
    (h : (.ok ⟨k, n⟩ : Except Cutoff Extent) = .ok ⟨k', n'⟩) : k = k' ∧ n = n' :=
  Extent.mk.inj (Except.ok.inj h)

/-- A length that is read off the front of a text is read off it before another text as well. -/
theorem orCutoff_eq {f : List Char → Option Nat} {a r r' : List Char} {cutoff : Cutoff}
    {kind k : TokenKind} {before : Nat}
    (hf : f (a ++ r) = some a.length → f (a ++ r') = some a.length)
    (h : orCutoff cutoff kind before (f (a ++ r)) = .ok ⟨k, before + a.length⟩) :
    orCutoff cutoff kind before (f (a ++ r')) = .ok ⟨k, before + a.length⟩ := by
  obtain ⟨n, hn, he⟩ := orCutoff_eq_ok h
  have hlength : n = a.length := by
    have hsum := (Extent.mk.inj he).2
    omega
  rw [hlength] at hn
  rw [hn] at h
  rw [hf hn]
  exact h

/-! ## Where a token ends -/

namespace Loosened

variable {r r' : List Char}

theorem nameLength_of_ender {c : Char} (hc : c ∈ enders) (r : List Char) :
    nameLength 0 (c :: r) = 0 := by
  simp only [enders, List.mem_cons, List.not_mem_nil, or_false] at hc
  rcases hc with rfl | rfl | rfl | rfl | rfl | rfl | rfl | rfl | rfl <;> rfl

theorem digitsLength_of_ender {c : Char} (hc : c ∈ enders) (pointRead : Bool) (r : List Char) :
    digitsLength pointRead (c :: r) = 0 := by
  simp only [enders, List.mem_cons, List.not_mem_nil, or_false] at hc
  rcases hc with rfl | rfl | rfl | rfl | rfl | rfl | rfl | rfl | rfl <;> rfl

theorem nameLength_eq (depth : Nat) (a : List Char) (hr : Loosened d r r')
    (h : nameLength depth (a ++ r) = a.length) : nameLength depth (a ++ r') = a.length := by
  generalize hcs : a ++ r = cs at h
  fun_induction nameLength depth cs generalizing a with
  | case1 =>
    obtain ⟨rfl, rfl⟩ := List.append_eq_nil_iff.1 hcs
    simp [hr.eq_nil, nameLength]
  | case2 =>
    obtain ⟨b, rfl, hb⟩ := exists_eq_cons_of_append hcs (by omega)
    obtain ⟨rfl, rfl⟩ := List.append_eq_nil_iff.1 hb
    simp [hr.eq_nil, nameLength]
  | case3 x cs ih =>
    obtain ⟨b, rfl, hb⟩ := exists_eq_cons_cons_of_append hcs (by omega)
    simp only [List.length_cons] at h
    simp only [List.cons_append, nameLength, List.length_cons, ih b hb (by omega)]
  | case4 cs ih =>
    obtain ⟨b, rfl, hb⟩ := exists_eq_cons_cons_of_append hcs (by omega)
    simp only [List.length_cons] at h
    simp only [List.cons_append, nameLength, List.length_cons, ih b hb (by omega)]
  | case5 cs ih =>
    obtain ⟨b, rfl, hb⟩ := exists_eq_cons_cons_of_append hcs (by omega)
    simp only [List.length_cons] at h
    simp only [List.cons_append, nameLength, List.length_cons, ih b hb (by omega)]
  | case6 c cs hs₁ hs₂ hh ha hc ih =>
    obtain ⟨b, rfl, hb⟩ := exists_eq_cons_of_append hcs (by omega)
    rw [List.length_cons] at h
    have hbrace := (hr.behind b).head?_eq_some_iff (x := '{') (by decide)
    have hrest := ih b hb (by omega)
    have hplain : (c = '#' ∨ c = '@') → (b ++ r').head? ≠ some '{' := by
      rw [Ne, hbrace, hb]
      exact head?_ne_brace hh ha
    rw [List.cons_append, nameLength_cons (ne_slash hs₁ hs₂) hplain, if_pos hc, hrest,
      List.length_cons]
  | case7 c cs hs₁ hs₂ hh ha hc =>
    obtain rfl := List.eq_nil_of_length_eq_zero h.symm
    rw [List.nil_append] at hcs
    subst hcs
    cases hr with
    | brace _ _ => rfl
    | stop h h' =>
      obtain ⟨x, r, rfl, hx, -⟩ := h'.exists_cons
      exact nameLength_of_ender hx r
    | blanks _ hx _ hx' _ _ => exact nameLength_of_ender (isBlank_mem hx') _
    | @keep c s s' hs =>
      have hbrace := hs.head?_eq_some_iff (x := '{') (by decide)
      have hplain : (c = '#' ∨ c = '@') → s'.head? ≠ some '{' := by
        rw [Ne, hbrace]
        exact head?_ne_brace hh ha
      rw [List.nil_append, nameLength_cons (ne_slash hs₁ hs₂) hplain, if_neg hc, List.length_nil]
  | case8 depth cs ih =>
    obtain ⟨b, rfl, hb⟩ := exists_eq_cons_of_append hcs (by omega)
    rw [List.length_cons] at h
    simp only [List.cons_append, nameLength, List.length_cons, ih b hb (by omega)]
  | case9 depth cs ih =>
    obtain ⟨b, rfl, hb⟩ := exists_eq_cons_of_append hcs (by omega)
    rw [List.length_cons] at h
    simp only [List.cons_append, nameLength, List.length_cons, ih b hb (by omega)]
  | case10 depth c cs ho hcl ih =>
    obtain ⟨b, rfl, hb⟩ := exists_eq_cons_of_append hcs (by omega)
    rw [List.length_cons] at h
    have hrest := ih b hb (by omega)
    rw [List.cons_append, nameLength, hrest, List.length_cons]
    · exact ho
    · exact hcl

theorem digitsLength_eq (a : List Char) (hr : Loosened d r r') (pointRead : Bool)
    (h : digitsLength pointRead (a ++ r) = a.length) :
    digitsLength pointRead (a ++ r') = a.length := by
  induction a generalizing pointRead with
  | nil =>
    cases hr with
    | nil => rfl
    | brace _ _ => simp [digitsLength]
    | stop h h' =>
      obtain ⟨x, r, rfl, hx, -⟩ := h'.exists_cons
      exact digitsLength_of_ender hx pointRead r
    | blanks _ hx _ hx' _ _ =>
      exact digitsLength_of_ender (isBlank_mem hx') pointRead _
    | @keep c s s' hs =>
      simp only [List.nil_append, List.length_nil, digitsLength, hs.startsDigit_eq] at h ⊢
      split at h
      · omega
      · split at h
        · omega
        · rw [if_neg (by assumption), if_neg (by assumption)]
  | cons x a ih =>
    have hd := (hr.behind a).startsDigit_eq
    simp only [List.cons_append, List.length_cons, digitsLength, hd] at h ⊢
    split at h
    · rw [if_pos (by assumption), ih _ (by omega)]
    · rw [if_neg (by assumption)]
      split at h
      · rw [if_pos (by assumption), ih _ (by omega)]
      · omega

theorem unitLength_eq (a : List Char) (hr : Loosened d r r') (h : unitLength (a ++ r) = a.length) :
    unitLength (a ++ r') = a.length := by
  have hb := hr.behind a
  unfold unitLength at h ⊢
  rw [hb.head?_beq (by decide), hb.startsName_eq]
  split at h
  · rw [if_pos (by assumption), h]
  · rw [if_neg (by assumption)]
    split at h
    · rw [if_pos (by assumption), hr.nameLength_eq 0 a h]
    · rw [if_neg (by assumption), h]

theorem numberLength_eq (a : List Char) (hr : Loosened d r r')
    (h : numberLength (a ++ r) = a.length) : numberLength (a ++ r') = a.length := by
  unfold numberLength at h ⊢
  -- the digits and the unit are two parts of the number
  obtain ⟨digits, unit, rfl, hd⟩ : ∃ digits unit, a = digits ++ unit ∧
      digitsLength false (a ++ r) = digits.length := by
    refine ⟨a.take (digitsLength false (a ++ r)), a.drop (digitsLength false (a ++ r)), ?_, ?_⟩
    · rw [List.take_append_drop]
    · rw [List.length_take]
      omega
  rw [List.append_assoc] at hd h ⊢
  have hd' := (hr.behind unit).digitsLength_eq digits false hd
  rw [hd, List.drop_left, List.length_append] at h
  rw [hd', List.drop_left, hr.unitLength_eq unit (by omega), List.length_append]

theorem lineLength_eq (a : List Char) (hr : Loosened d r r') (hd : d.hasLineComments = true)
    (h : lineLength (a ++ r) = a.length) :
    lineLength (a ++ r') = a.length := by
  obtain ⟨ha, hend⟩ := of_length_takeWhile_append h
  apply length_takeWhile_append ha
  intro c hc
  cases hr with
  | nil => cases hc
  | keep x _ => exact hend c hc
  | brace _ _ => exact absurd (hend '{' rfl) (by decide)
  | stop h _ =>
    obtain ⟨x, r, rfl, -, hx⟩ := h.exists_cons
    have hbreak := hend x rfl
    simp [(hx hd).1] at hbreak
  | blanks hn =>
    rw [hd] at hn
    cases hn

theorem nameExtent_eq {k : TokenKind} (b : List Char) (hr : Loosened d r r')
    (h : nameExtent (b ++ r) = .ok ⟨k, b.length⟩) : nameExtent (b ++ r') = .ok ⟨k, b.length⟩ := by
  have hle : nameLength 0 (b ++ r) ≤ b.length := by
    unfold nameExtent at h
    dsimp only at h
    split at h
    · obtain ⟨m, -, he⟩ := orCutoff_eq_ok h
      have := (Extent.mk.inj he).2
      omega
    · have := (Extent.mk.inj (Except.ok.inj h)).2
      omega
  -- a name, and the argument behind it if the token is a whole url
  obtain ⟨name, rest, rfl, hn⟩ : ∃ name rest, b = name ++ rest ∧
      nameLength 0 (b ++ r) = name.length := by
    refine ⟨b.take (nameLength 0 (b ++ r)), b.drop (nameLength 0 (b ++ r)), ?_, ?_⟩
    · rw [List.take_append_drop]
    · rw [List.length_take]
      omega
  have hrest := hr.behind rest
  rw [List.append_assoc] at hn h ⊢
  have hn' := hrest.nameLength_eq 0 name hn
  unfold nameExtent at h ⊢
  simp only [hn, hn', List.take_left, List.drop_left, hrest.startsUnquoted_eq] at h ⊢
  split at h
  · rw [if_pos (by assumption)]
    rw [List.length_append] at h ⊢
    exact orCutoff_eq (urlLength?_append r') h
  · rw [if_neg (by assumption)]
    exact h

/-- **The token at the front does not change** when the text behind it is loosened. -/
theorem lexeme_eq {c : Char} {a : List Char} {k : TokenKind} (hr : Loosened d r r')
    (hk : k ≠ .whitespace) (h : lexeme d c (a ++ r) = .ok ⟨k, a.length + 1⟩) :
    lexeme d c (a ++ r') = .ok ⟨k, a.length + 1⟩ := by
  have ha := hr.behind a
  have hca := Loosened.keep c ha
  have hslash : (c == '/' && (a ++ r').head? == some '/' && d.hasLineComments) =
      (c == '/' && (a ++ r).head? == some '/' && d.hasLineComments) := by
    cases hd : d.hasLineComments with
    | false => rw [Bool.and_false, Bool.and_false]
    | true => rw [ha.head?_beq_slash hd]
  rw [lexeme] at h ⊢
  -- the lexer takes the same branch before both texts
  rw [ha.head?_beq (by decide), hslash, hca.startsNumber_eq, ha.startsNumber_eq,
    hca.startsName_eq, ha.startsName_eq, ha.any_head? (by decide)]
  by_cases hnewline : (c == '\n' && d == .sass) = true
  · rw [if_pos hnewline] at h ⊢
    exact h
  rw [if_neg hnewline] at h ⊢
  by_cases hblank : isBlank c = true
  · rw [if_pos hblank] at h
    exact absurd (Extent.mk.inj (Except.ok.inj h)).1.symm hk
  rw [if_neg hblank] at h ⊢
  by_cases hcomment : (c == '/' && (a ++ r).head? == some '*') = true
  · rw [if_pos hcomment] at h ⊢
    cases a with
    | nil =>
      obtain ⟨n, -, he⟩ := orCutoff_eq_ok h
      have hlength := (Extent.mk.inj he).2
      rw [List.length_nil] at hlength
      omega
    | cons x b =>
      rw [List.cons_append, List.tail_cons, List.length_cons, Nat.add_assoc, Nat.add_comm] at h ⊢
      exact orCutoff_eq (commentLength?_append r') h
  rw [if_neg hcomment] at h ⊢
  by_cases hline : (c == '/' && (a ++ r).head? == some '/' && d.hasLineComments) = true
  · rw [if_pos hline] at h ⊢
    obtain ⟨rfl, hl⟩ := of_ok_eq_ok h
    rw [hr.lineLength_eq a (Bool.and_eq_true .. ▸ hline).2 (by omega), Nat.add_comm]
  rw [if_neg hline] at h ⊢
  by_cases hstring : (c == '"' || c == '\'') = true
  · rw [if_pos hstring, Nat.add_comm] at h ⊢
    exact orCutoff_eq (stringLength?_append r') h
  rw [if_neg hstring] at h ⊢
  by_cases hnumber : startsNumber (c :: (a ++ r)) = true
  · rw [if_pos hnumber] at h ⊢
    obtain ⟨rfl, hl⟩ := of_ok_eq_ok h
    rw [← List.cons_append, hr.numberLength_eq (c :: a) hl]
    rfl
  rw [if_neg hnumber] at h ⊢
  by_cases hsigned : ((c == '+' || c == '-') && startsNumber (a ++ r)) = true
  · rw [if_pos hsigned] at h ⊢
    obtain ⟨rfl, hl⟩ := of_ok_eq_ok h
    rw [hr.numberLength_eq a (by omega), Nat.add_comm]
  rw [if_neg hsigned] at h ⊢
  by_cases hname : startsName (c :: (a ++ r)) = true
  · rw [if_pos hname] at h ⊢
    exact hr.nameExtent_eq (c :: a) h
  rw [if_neg hname] at h ⊢
  by_cases hatKeyword : (c == '@' && startsName (a ++ r)) = true
  · rw [if_pos hatKeyword] at h ⊢
    obtain ⟨rfl, hl⟩ := of_ok_eq_ok h
    rw [hr.nameLength_eq 0 a (by omega), Nat.add_comm]
  rw [if_neg hatKeyword] at h ⊢
  by_cases hdollarName : (c == '$' && startsName (a ++ r)) = true
  · rw [if_pos hdollarName] at h ⊢
    obtain ⟨rfl, hl⟩ := of_ok_eq_ok h
    rw [hr.nameLength_eq 0 a (by omega), Nat.add_comm]
  rw [if_neg hdollarName] at h ⊢
  by_cases hhash : (c == '#' && (a ++ r).head?.any isNameChar) = true
  · rw [if_pos hhash] at h ⊢
    obtain ⟨rfl, hl⟩ := of_ok_eq_ok h
    rw [hr.nameLength_eq 0 a (by omega), Nat.add_comm]
  rw [if_neg hhash] at h ⊢
  exact h

end Loosened

end TidySheet
