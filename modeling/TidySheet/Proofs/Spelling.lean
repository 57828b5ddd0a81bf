import TidySheet.Token.Lexer

/-!
# How tokens are spelled

The kind of a token fixes the marks that its text starts and ends with. The parser leaves these
marks out of the tree and the printer puts them back, so what follows rests on them.

* `Lexed` — the tokens that can start a text, one case for each branch of `lexeme`;
* `tokens_spelled` — every token of a text is spelled as its kind says.
-/

set_option autoImplicit false

namespace TidySheet

namespace Token

/-- What the kind of a token says about its text. -/
def Spelled (t : Token) : Prop :=
  match t.kind with
  | .whitespace => ∀ c ∈ t.text, isBlank c = true
  | .newline => t.text = ['\n']
  | .comment => ∃ inner, t.text = ['/', '*'] ++ inner ++ ['*', '/']
  | .lineComment => ∃ inner, t.text = ['/', '/'] ++ inner
  | .colon => t.text = [':']
  | .semicolon => t.text = [';']
  | .leftBrace => t.text = ['{']
  | .rightBrace => t.text = ['}']
  | .leftParen => t.text = ['(']
  | .rightParen => t.text = [')']
  | _ => True

end Token

theorem take_commentLength? {cs : List Char} {n : Nat} (h : commentLength? cs = some n) :
    ∃ inner, cs.take n = inner ++ ['*', '/'] := by
  fun_induction commentLength? cs generalizing n with
  | case1 cs => cases h; exact ⟨[], rfl⟩
  | case2 c cs _ ih =>
    obtain ⟨m, hm, rfl⟩ := Option.map_eq_some_iff.1 h
    obtain ⟨inner, hi⟩ := ih hm
    exact ⟨c :: inner, by simp [hi]⟩
  | case3 => cases h

theorem take_length_takeWhile (p : Char → Bool) (cs : List Char) :
    cs.take (cs.takeWhile p).length = cs.takeWhile p :=
  List.prefix_iff_eq_take.1 (List.takeWhile_prefix p) |>.symm

theorem orCutoff_eq_ok {cutoff : Cutoff} {kind : TokenKind} {before : Nat} {n? : Option Nat}
    {e : Extent} (h : orCutoff cutoff kind before n? = .ok e) :
    ∃ n, n? = some n ∧ e = ⟨kind, before + n⟩ := by
  cases n? with
  | none => cases h
  | some n => cases h; exact ⟨n, rfl, rfl⟩

theorem markKind_spelled (c : Char) (s : Span) : Token.Spelled ⟨markKind c, [c], s⟩ := by
  unfold markKind
  split <;> simp [Token.Spelled]

/-- **The tokens that can start a text**, each with what the text looks like there. -/
inductive Lexed (d : Dialect) (c : Char) (cs : List Char) : Extent → Prop
  | newline (hc : c = '\n') : Lexed d c cs ⟨.newline, 1⟩
  | whitespace (hc : isBlank c = true) : Lexed d c cs ⟨.whitespace, 1 + blankLength d cs⟩
  | comment {n : Nat} {rest : List Char} (hc : c = '/') (hcs : cs = '*' :: rest)
      (hn : commentLength? rest = some n) : Lexed d c cs ⟨.comment, 2 + n⟩
  | lineComment {rest : List Char} (hc : c = '/') (hcs : cs = '/' :: rest) :
      Lexed d c cs ⟨.lineComment, 1 + lineLength cs⟩
  | string {n : Nat} (hn : stringLength? c cs = some n) : Lexed d c cs ⟨.string, 1 + n⟩
  | number (hc : startsNumber (c :: cs) = true) : Lexed d c cs ⟨.number, numberLength (c :: cs)⟩
  | signed (hc : startsNumber cs = true) : Lexed d c cs ⟨.number, 1 + numberLength cs⟩
  | uri {n : Nat} (hn : urlLength? ((c :: cs).drop (nameLength 0 (c :: cs))) = some n) :
      Lexed d c cs ⟨.uri, nameLength 0 (c :: cs) + n⟩
  | ident (hc : startsName (c :: cs) = true) : Lexed d c cs ⟨.ident, nameLength 0 (c :: cs)⟩
  | atKeyword (hc : startsName cs = true) : Lexed d c cs ⟨.atKeyword, 1 + nameLength 0 cs⟩
  | dollarName (hc : startsName cs = true) : Lexed d c cs ⟨.dollarName, 1 + nameLength 0 cs⟩
  | hash : Lexed d c cs ⟨.hash, 1 + nameLength 0 cs⟩
  | mark : Lexed d c cs ⟨markKind c, 1⟩

theorem lexed_of_lexeme {d : Dialect} {c : Char} {cs : List Char} {e : Extent}
    (h : lexeme d c cs = .ok e) : Lexed d c cs e := by
  rw [lexeme] at h
  by_cases hnewline : (c == '\n' && d == .sass) = true
  · rw [if_pos hnewline] at h
    cases h
    simp only [Bool.and_eq_true, beq_iff_eq] at hnewline
    exact .newline hnewline.1
  rw [if_neg hnewline] at h
  by_cases hblank : isBlank c = true
  · rw [if_pos hblank] at h
    cases h
    exact .whitespace hblank
  rw [if_neg hblank] at h
  by_cases hcomment : (c == '/' && cs.head? == some '*') = true
  · rw [if_pos hcomment] at h
    obtain ⟨n, hn, rfl⟩ := orCutoff_eq_ok h
    simp only [Bool.and_eq_true, beq_iff_eq] at hcomment
    obtain ⟨rest, rfl⟩ := List.head?_eq_some_iff.1 hcomment.2
    exact .comment hcomment.1 rfl hn
  rw [if_neg hcomment] at h
  by_cases hline : (c == '/' && cs.head? == some '/' && d.hasLineComments) = true
  · rw [if_pos hline] at h
    cases h
    simp only [Bool.and_eq_true, beq_iff_eq] at hline
    obtain ⟨rest, rfl⟩ := List.head?_eq_some_iff.1 hline.1.2
    exact .lineComment hline.1.1 rfl
  rw [if_neg hline] at h
  by_cases hstring : (c == '"' || c == '\'') = true
  · rw [if_pos hstring] at h
    obtain ⟨n, hn, rfl⟩ := orCutoff_eq_ok h
    exact .string hn
  rw [if_neg hstring] at h
  by_cases hnumber : startsNumber (c :: cs) = true
  · rw [if_pos hnumber] at h
    cases h
    exact .number hnumber
  rw [if_neg hnumber] at h
  by_cases hsigned : ((c == '+' || c == '-') && startsNumber cs) = true
  · rw [if_pos hsigned] at h
    cases h
    exact .signed (Bool.and_eq_true .. ▸ hsigned).2
  rw [if_neg hsigned] at h
  by_cases hname : startsName (c :: cs) = true
  · rw [if_pos hname, nameExtent] at h
    split at h
    · obtain ⟨n, hn, rfl⟩ := orCutoff_eq_ok h
      exact .uri hn
    · cases h
      exact .ident hname
  rw [if_neg hname] at h
  by_cases hatKeyword : (c == '@' && startsName cs) = true
  · rw [if_pos hatKeyword] at h
    cases h
    exact .atKeyword (Bool.and_eq_true .. ▸ hatKeyword).2
  rw [if_neg hatKeyword] at h
  by_cases hdollarName : (c == '$' && startsName cs) = true
  · rw [if_pos hdollarName] at h
    cases h
    exact .dollarName (Bool.and_eq_true .. ▸ hdollarName).2
  rw [if_neg hdollarName] at h
  by_cases hhash : (c == '#' && cs.head?.any isNameChar) = true
  · rw [if_pos hhash] at h
    cases h
    exact .hash
  rw [if_neg hhash] at h
  cases h
  exact .mark

theorem lexeme_spelled {d : Dialect} {c : Char} {cs : List Char} {e : Extent} (s : Span)
    (h : lexeme d c cs = .ok e) : Token.Spelled ⟨e.kind, c :: cs.take (e.length - 1), s⟩ := by
  cases lexed_of_lexeme h with
  | newline hc => simp [Token.Spelled, hc]
  | whitespace hc =>
    intro x hx
    rcases List.mem_cons.1 hx with rfl | hx
    · exact hc
    · simp only [Nat.add_sub_cancel_left, blankLength, take_length_takeWhile] at hx
      have hb := List.all_takeWhile (l := cs) (p := isBlankIn d)
      have := List.all_eq_true.1 hb x hx
      simp only [isBlankIn, Bool.and_eq_true] at this
      exact this.1
  | comment hc hcs hn =>
    obtain ⟨inner, hi⟩ := take_commentLength? hn
    subst hc hcs
    exact ⟨inner, by simp [show ∀ n, 2 + n - 1 = n + 1 by omega, hi]⟩
  | lineComment hc hcs =>
    subst hc hcs
    exact ⟨_, by simp [lineLength]; rfl⟩
  | string => trivial
  | number => trivial
  | signed => trivial
  | uri => trivial
  | ident => trivial
  | atKeyword => trivial
  | dollarName => trivial
  | hash => trivial
  | mark => exact markKind_spelled c s

theorem tokens_spelled {d : Dialect} {p : Position} {cs : List Char} (ts : List Token)
    (h : tokens d p cs = .ok ts) : ∀ t ∈ ts, t.Spelled := by
  fun_induction tokens d p cs generalizing ts with
  | case1 p => cases h; simp
  | case2 p c cs cutoff he => cases h
  | case3 p c cs extent he text e ht ih => cases h
  | case4 p c cs extent he text us ht ih =>
    cases h
    intro t hm
    rcases List.mem_cons.1 hm with rfl | hm
    · exact lexeme_spelled _ he
    · exact ih us ht t hm

end TidySheet
