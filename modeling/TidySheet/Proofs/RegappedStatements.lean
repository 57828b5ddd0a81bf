import TidySheet.Proofs.BlockWalks
import TidySheet.Proofs.Regapping

/-!
# Statements with other whitespace in their gaps

The gaps among the nodes of a statement are gaps between its tokens, where whitespace may change. So
nodes with other whitespace in their gaps are read from tokens with other whitespace.

* `Clear` — tokens where no slash meets a comment once spaces are gone;
* `Airs` — a run of tokens with other whitespace, whatever stands behind it;
* `Regapped.trivia` — trivia with other whitespace;
* `Statement.Core.regapped` — a declaration with other whitespace around its colon;
* `Statement.Plain.regapped` — a statement that no block ends, with other whitespace in its gaps.
-/

set_option autoImplicit false

namespace TidySheet

open Token Node

variable {d : Dialect} {gone : Position → Prop}

/-! ## Slashes before comments -/

/-- Where whitespace stands between a slash and a comment. -/
def slashed : List Token → List Position
  | a :: b :: c :: ts =>
    (if a.kind = .delim '/' ∧ b.kind = .whitespace ∧ c.isComment = true then [b.span.first]
      else []) ++ slashed (b :: c :: ts)
  | _ => []

theorem slashed_subset_cons (t : Token) (ts : List Token) : slashed ts ⊆ slashed (t :: ts) := by
  match ts with
  | [] => simp [slashed]
  | [u] => simp [slashed]
  | u :: v :: ts =>
    rw [slashed]
    exact List.subset_append_right _ _

/-- Tokens that are cut from their text, none of whose slashes meets a comment once the spaces that
may be gone are. -/
structure Clear (d : Dialect) (gone : Position → Prop) (ts : List Token) : Prop where
  cuts : Cuts d ts
  apart : d.hasLineComments = true → ∀ p ∈ slashed ts, ¬ gone p

/-- What is known of the tokens at a point with a certain slack. -/
structure Faces (d : Dialect) (gone : Position → Prop) (s : Slack) (ts : List Token) : Prop where
  lined : s = .lined → ∀ x ∈ (textOf ts).head?, x = '\n'
  slash : s = .slash → d.hasLineComments = true → ∀ b c more, ts = b :: c :: more →
    b.kind = .whitespace → c.isComment = true → ¬ gone b.span.first

theorem Faces.stuck (ts : List Token) : Faces d gone .stuck ts :=
  ⟨fun h => (by cases h), fun h => by cases h⟩

namespace Clear

variable {t : Token} {ts xs : List Token}

theorem tail (h : Clear d gone (t :: ts)) : Clear d gone ts :=
  ⟨h.cuts.2, fun hd p hp => h.apart hd p (slashed_subset_cons t ts hp)⟩

theorem right (h : Clear d gone (xs ++ ts)) : Clear d gone ts := by
  induction xs with
  | nil => exact h
  | cons x xs ih => exact ih h.tail

theorem faces (h : Clear d gone (t :: ts)) : Faces d gone (.past t) ts := by
  constructor
  · intro hs
    exact h.cuts.1.head_of_lineComment (Slack.kind_of_past hs)
  · rintro hs hd b c more rfl hb hc
    refine h.apart hd _ ?_
    have hk : t.kind = .delim '/' := by
      unfold Slack.past at hs
      split at hs
      · cases hs
      split at hs
      · cases hs
      split at hs
      · cases hs
      · split at hs
        · assumption
        · cases hs
    rw [slashed, if_pos ⟨hk, hb, hc⟩]
    simp

end Clear

/-! ## What siblings ask for and what tokens allow -/

/-- Whether the first token that is no whitespace is a mark or a comment. -/
def Fenced (ts : List Token) : Prop :=
  ∃ t, ts.find? (fun t => t.kind != .whitespace) = some t ∧ t.isBarrier = true

/-- Whether a gap among siblings is one between the tokens. -/
def Slack.Allows (s σ : Slack) (ts : List Token) : Prop :=
  s = .stuck ∨ s = .lined ∧ σ = .lined ∨
    s = .free ∧ (σ = .free ∨ (σ = .stiff ∨ σ = .slash) ∧ Fenced ts)

theorem Slack.allows_stuck (σ : Slack) (ts : List Token) : Slack.stuck.Allows σ ts := .inl rfl

theorem Slack.allows_free (ts : List Token) : Slack.free.Allows .free ts :=
  .inr (.inr ⟨rfl, .inl rfl⟩)

theorem fenced_cons {t : Token} (h : t.isBarrier = true) (ts : List Token) : Fenced (t :: ts) := by
  have hk : t.kind ≠ .whitespace := by
    intro hk
    rw [isBarrier, hk] at h
    cases h
  exact ⟨t, by rw [List.find?_cons_of_pos (by simpa using hk)], h⟩

theorem isBarrier_of_fenced {t : Token} {ts : List Token} (h : Fenced (t :: ts))
    (hk : t.kind ≠ .whitespace) : t.isBarrier = true := by
  obtain ⟨u, hu, hbar⟩ := h
  rw [List.find?_cons_of_pos (by simpa using hk)] at hu
  cases hu
  exact hbar

theorem fenced_of_whitespace {t : Token} {ts : List Token} (h : Fenced (t :: ts))
    (hk : t.kind = .whitespace) : Fenced ts := by
  obtain ⟨u, hu, hbar⟩ := h
  rw [List.find?_cons_of_neg (by simp [hk])] at hu
  exact ⟨u, hu, hbar⟩

theorem isBarrier_of_isTrivia {t : Token} (h : t.isTrivia = true) (hk : t.kind ≠ .whitespace) :
    t.isBarrier = true := by
  unfold Token.isTrivia at h
  unfold isBarrier
  split at h <;> simp_all

theorem fenced_trivia {trivia ts : List Token} (ht : ∀ t ∈ trivia, t.isTrivia = true)
    (h : Fenced ts) : Fenced (trivia ++ ts) := by
  induction trivia with
  | nil => exact h
  | cons t trivia ih =>
    by_cases hk : t.kind = .whitespace
    · obtain ⟨u, hu, hbar⟩ := ih fun v hv => ht v (by simp [hv])
      exact ⟨u, by rw [List.cons_append, List.find?_cons_of_neg (by simp [hk]), hu], hbar⟩
    · exact fenced_cons (isBarrier_of_isTrivia (ht t (by simp)) hk) _

/-- Where siblings have a gap before a token, tokens have one. -/
theorem Slack.Allows.gives {s σ : Slack} {t : Token} {ts : List Token} (h : s.Allows σ (t :: ts))
    (hs : s ≠ .stuck) (hc : Cuts d (t :: ts)) (hf : Faces d gone σ (t :: ts))
    (hk : t.kind ≠ .whitespace) (hn : t.kind ≠ .newline) : σ.Gives (t :: ts) := by
  rcases h with h | ⟨-, h⟩ | ⟨-, h | ⟨h, hfence⟩⟩
  · exact absurd h hs
  · obtain ⟨c, a, ht, he⟩ := hc.1
    have hc := hf.lined h c (by rw [textOf_cons, ht]; rfl)
    rcases kind_of_isBlank he (by rw [hc]; rfl) with hw | hw
    · exact absurd hw hk
    · exact absurd hw hn
  · exact .inl h
  · exact .inr ⟨h, t, rfl, isBarrier_of_fenced hfence hk⟩

/-- Where siblings have whitespace in a gap, tokens have. -/
theorem Slack.Allows.gives_of_whitespace {s σ : Slack} {t : Token} {ts : List Token}
    (h : s.Allows σ (t :: ts)) (hs : s ≠ .stuck) (hk : t.kind = .whitespace)
    (hc : Cuts d (t :: ts)) : σ.Gives ts ∨ s = .lined ∧ σ = .lined := by
  rcases h with h | h | ⟨-, h | ⟨h, hfence⟩⟩
  · exact absurd h hs
  · exact .inr h
  · exact .inl (.inl h)
  · refine .inl (.inr ⟨h, ?_⟩)
    have hfence := fenced_of_whitespace hfence hk
    cases ts with
    | nil =>
      obtain ⟨u, hu, -⟩ := hfence
      cases hu
    | cons u ts => exact ⟨u, rfl, isBarrier_of_fenced hfence (hc.kind_ne hk u rfl)⟩

/-! ## Runs of tokens -/

/-- **A run of tokens with other whitespace**, from one point among siblings to another, whatever
stands behind it. -/
structure Airs (d : Dialect) (gone : Position → Prop) (s : Slack) (ts us : List Token)
    (s' : Slack) : Prop where
  aired : ∀ {σ : Slack} {rest rest' : List Token}, Clear d gone (ts ++ rest) →
    Faces d gone σ (ts ++ rest) → s.Allows σ (ts ++ rest) →
    (∀ σ', Faces d gone σ' rest → s'.Allows σ' rest → Aired d σ' rest rest') →
      Aired d σ (ts ++ rest) (us ++ rest')

namespace Airs

variable {s s₁ s' : Slack} {ts us ts' us' : List Token}

theorem nil (s : Slack) : Airs d gone s [] [] s := ⟨fun _ hf ha hk => hk _ hf ha⟩

theorem append (h : Airs d gone s ts us s₁) (h' : Airs d gone s₁ ts' us' s') :
    Airs d gone s (ts ++ ts') (us ++ us') s' := by
  refine ⟨fun hc hf ha hk => ?_⟩
  rw [List.append_assoc] at hc hf ha ⊢
  rw [List.append_assoc]
  exact h.aired hc hf ha fun σ' hf' ha' => h'.aired hc.right hf' ha' hk

end Airs

/-! ## Trivia -/

theorem leaf_of_space {t : Token} {l : Label} {text : List Char} (ht : t.isTrivia = true)
    (h : t.leaf d = .leaf l text) (hl : l.kind = .space) :
    t.kind = .whitespace ∧ l = ⟨.space, d, t.span⟩ ∧ text = t.text := by
  obtain ⟨rfl, rfl⟩ := Node.leaf.inj h
  have hk : t.kind = .whitespace := by
    rcases (leafKind_eq_space t).1 hl with hk | hk
    · exact hk
    · rw [Token.isTrivia, hk] at ht
      cases ht
  exact ⟨hk, by rw [leafKind, hk], by rw [leafText, hk]⟩

/-- Behind trivia, siblings leave what tokens do. -/
theorem Slack.beyond_leaf_allows {t : Token} (ht : t.isTrivia = true) (ts : List Token) :
    (Slack.beyond d (t.leaf d)).Allows (.past t) ts := by
  unfold Token.isTrivia at ht
  split at ht
  · rename_i hk
    have hs : Slack.beyond d (t.leaf d) = .stuck := by
      simp [Slack.beyond, Node.kind, Node.label, Token.leaf, leafKind, hk]
    rw [hs]
    exact allows_stuck _ _
  · rename_i hk
    have hs : Slack.beyond d (t.leaf d) = .free := by
      simp [Slack.beyond, Node.kind, Node.label, Token.leaf, leafKind, hk]
    rw [hs, past_of_isClosed (by rw [isClosed, hk])]
    exact allows_free _
  · rename_i hk
    have hs : Slack.beyond d (t.leaf d) = .lined := by
      simp [Slack.beyond, Node.kind, Node.label, Token.leaf, leafKind, hk]
    rw [hs, past_of_lineComment hk]
    exact .inr (.inl ⟨rfl, rfl⟩)
  · cases ht

theorem Token.IsGap.isTrivia {t : Token} (h : t.IsGap d) : t.isTrivia = true := by
  rw [Token.isTrivia, h.kind_eq]

/-- Blanks are put before a token where siblings have a gap. -/
theorem Put.exists_airs {s : Slack} {gap : List Node} (h : Put d s gap)
    (gone : Position → Prop) :
    ∃ ts, gap = leaves d ts ∧ (∀ t ∈ ts, t.isTrivia = true) ∧ Matched id [] ts ∧
      (s = .stuck → ts = []) ∧ (gap = [] → ts = []) ∧
      ∀ {σ : Slack} {z : Token} {rest us : List Token}, Cuts d (z :: rest) →
        Faces d gone σ (z :: rest) → s.Allows σ (z :: rest) →
        (ts ≠ [] → z.kind ≠ .whitespace ∧ z.kind ≠ .newline) →
        Aired d .stuck (z :: rest) us → Aired d σ (z :: rest) (ts ++ us) := by
  obtain ⟨ts, rfl, rfl | ⟨hs, t, rfl, hgap⟩⟩ := h.exists_tokens
  · exact ⟨[], rfl, by simp, .nil, fun _ => rfl, fun _ => rfl, fun _ _ _ _ hr => hr.of_stuck_to⟩
  · refine ⟨[t], rfl, by simpa using hgap.isTrivia, .put hgap.kind_eq .nil,
      fun h => absurd h hs, fun h => (by cases h), fun hc hf ha hz hr => ?_⟩
    obtain ⟨hw, hn⟩ := hz (by simp)
    refine .put hgap (ha.gives hs hc hf hw hn) ?_ hr
    rintro u hu
    cases hu
    exact hw

/-- **Trivia before a token with other whitespace**, from a point among siblings. -/
structure Leads (d : Dialect) (gone : Position → Prop) (s : Slack) (ts us : List Token) : Prop where
  isTrivia : ∀ u ∈ us, u.isTrivia = true
  matched : Matched id ts us
  aired : ∀ {σ : Slack} {z : Token} {rest vs : List Token}, Clear d gone (ts ++ z :: rest) →
    Faces d gone σ (ts ++ z :: rest) → s.Allows σ (ts ++ z :: rest) → z.kind ≠ .whitespace →
    z.kind ≠ .newline → Aired d .stuck (z :: rest) vs → Aired d σ (ts ++ z :: rest) (us ++ vs)

namespace Regapped

variable {s s' : Slack} {ms : List Node}

/-- One token of trivia. -/
theorem trivia_token {t : Token} (ht : t.isTrivia = true)
    (h : Regapped d gone s [t.leaf d] ms s') :
    ∃ us, ms = leaves d us ∧ (∀ u ∈ us, u.isTrivia = true) ∧ Matched id [t] us ∧
      Airs d gone s [t] us s' ∧ (s = .stuck → us.head? = some t) := by
  generalize hn : t.leaf d = n at h
  cases h with
  | @keep _ _ gap _ _ _ hg hput h =>
    obtain ⟨rfl, rfl⟩ := h.eq_nil
    subst hn
    obtain ⟨ts, hts, htrivia, hmatch, hstuck, hnil, hairs⟩ := hg.exists_airs gone
    refine ⟨ts ++ [t], by rw [hts]; simp [leaves], ?_, ?_, ⟨fun hc hf ha hk => ?_⟩,
      fun hs => by rw [hstuck hs]; rfl⟩
    · exact List.forall_mem_append.2 ⟨htrivia, by simpa using ht⟩
    · exact hmatch.append (.keep rfl rfl .nil)
    · rw [List.append_assoc]
      refine hairs hc.cuts hf ha (fun hne => ?_)
        (.keep t (hk _ hc.faces (Slack.beyond_leaf_allows ht _)))
      have hspace := (hput fun h => hne (hnil h)).1
      refine ⟨fun hw => hspace ((leafKind_eq_space t).2 (.inl hw)), fun hw => ?_⟩
      exact hspace ((leafKind_eq_space t).2 (.inr hw))
  | @resize _ _ l text t' _ _ hs hl hne hb hbreak h =>
    obtain ⟨rfl, rfl⟩ := h.eq_nil
    obtain ⟨hw, rfl, rfl⟩ := leaf_of_space ht hn hl
    refine ⟨[⟨.whitespace, t', t.span⟩], rfl, by simp [Token.isTrivia], .drop hw (.put rfl .nil),
      ⟨fun hc hf ha hk => ?_⟩, fun h => absurd h hs⟩
    refine .resize hw ⟨rfl, hne, hb⟩ ?_ (hk _ (.stuck _) (Slack.allows_stuck _ _))
    rcases ha.gives_of_whitespace hs hw hc.cuts with hgives | ⟨-, hlined⟩
    · exact .inl hgives
    · exact .inr ⟨hlined, hbreak⟩
  | @drop _ l text _ _ hl hgone h =>
    obtain ⟨rfl, rfl⟩ := h.eq_nil
    obtain ⟨hw, rfl, rfl⟩ := leaf_of_space ht hn hl
    refine ⟨[], rfl, by simp, .drop hw .nil, ⟨fun hc hf ha hk => ?_⟩, fun h => by cases h⟩
    refine .drop hw ?_ ?_ (hk _ (.stuck _) (Slack.allows_stuck _ _))
    · exact (ha.gives_of_whitespace (by decide) hw hc.cuts).resolve_right fun h => by cases h.1
    · intro hslash hd u hu
      obtain ⟨more, hmore⟩ := List.head?_eq_some_iff.1 hu
      refine Bool.eq_false_iff.2 fun hcomment => ?_
      exact hf.slash hslash hd t u more (by rw [← hmore]; rfl) hw hcomment hgone
  | declaration => cases hn
  | nested => cases hn

/-- **Trivia with other whitespace.** -/
theorem trivia {ts : List Token} (ht : ∀ t ∈ ts, t.isTrivia = true)
    (h : Regapped d gone s (leaves d ts) ms s') :
    ∃ us, ms = leaves d us ∧ (∀ u ∈ us, u.isTrivia = true) ∧ Matched id ts us ∧
      Airs d gone s ts us s' ∧ (s = .stuck ∨ ts = [] → us.head? = ts.head?) := by
  induction ts generalizing s ms with
  | nil =>
    obtain ⟨rfl, rfl⟩ := h.eq_nil
    exact ⟨[], rfl, by simp, .nil, .nil _, fun _ => rfl⟩
  | cons t ts ih =>
    obtain ⟨xs, ys, s₁, rfl, h₁, h₂⟩ := h.of_cons
    obtain ⟨us, rfl, hus, hmatch, hairs, hstuck⟩ := h₁.trivia_token (ht t (by simp))
    obtain ⟨vs, rfl, hvs, hmatch', hairs', -⟩ := ih (fun u hu => ht u (by simp [hu])) h₂
    refine ⟨us ++ vs, by simp [leaves], List.forall_mem_append.2 ⟨hus, hvs⟩, hmatch.append hmatch',
      hairs.append hairs', fun hs => ?_⟩
    rw [List.head?_append, hstuck (hs.resolve_right (by simp))]
    rfl

/-- Trivia, and the blanks before the sibling behind it. -/
theorem lead {n : Node} {ns : List Node} {ts : List Token} (ht : ∀ t ∈ ts, t.isTrivia = true)
    (hk : n.kind ≠ .space) (h : Regapped d gone s (leaves d ts ++ n :: ns) ms s') :
    ∃ us ms', ms = leaves d us ++ ms' ∧ Leads d gone s ts us ∧
      (s = .stuck ∨ ts = [] ∧ n.kind = .value ∧ n.chars = [] → us.head? = ts.head?) ∧
      Regapped d gone .stuck (n :: ns) ms' s' := by
  obtain ⟨xs, ys, s₁, rfl, h₁, h₂⟩ := h.split
  obtain ⟨us, rfl, hus, hmatch, hairs, hnil⟩ := h₁.trivia ht
  obtain ⟨gap, zs, rfl, hput, h₃, hvalue⟩ := h₂.unput hk
  obtain ⟨vs, rfl, hvs, hmatch', hstuck, hgap, hairs'⟩ := hput.exists_airs gone
  refine ⟨us ++ vs, zs, by simp [leaves], ⟨List.forall_mem_append.2 ⟨hus, hvs⟩, ?_, ?_⟩, ?_, h₃⟩
  · simpa using hmatch.append hmatch'
  · intro σ z rest rest' hc hf ha hw hn hr
    rw [List.append_assoc]
    exact hairs.aired hc hf ha fun σ' hf' ha' =>
      hairs' hc.right.cuts hf' ha' (fun _ => ⟨hw, hn⟩) hr
  · intro hstop
    cases ts with
    | nil =>
      obtain ⟨-, rfl⟩ := h₁.eq_nil
      have hvs : vs = [] := hstop.elim hstuck fun hv => hgap (hvalue hv.2.1 hv.2.2)
      rw [hvs, List.append_nil, hnil (.inr rfl)]
    | cons t ts =>
      rw [List.head?_append, hnil (hstop.imp_right fun h => h.1)]
      rfl

end Regapped

/-! ## Tokens that are kept -/

/-- What is left to the gap behind a run of tokens. -/
def Slack.after (s : Slack) (ts : List Token) : Slack := ts.foldl (fun _ t => past t) s

namespace Slack

variable {σ : Slack} {ts us : List Token}

theorem after_append (σ : Slack) (ts us : List Token) :
    σ.after (ts ++ us) = (σ.after ts).after us :=
  List.foldl_append

theorem past_of_not_trivia {t : Token} (h : t.isTrivia = false) :
    past t = .free ∨ past t = .stiff ∨ past t = .slash := by
  have hk : t.kind ≠ .whitespace ∧ t.kind ≠ .lineComment := by
    constructor <;> intro hk <;> rw [Token.isTrivia, hk] at h <;> cases h
  rw [past, if_neg hk.1, if_neg hk.2]
  split
  · exact .inl rfl
  · split
    · exact .inr (.inr rfl)
    · exact .inr (.inl rfl)

/-- Before a mark or a comment, whitespace may change behind a run that does not end in trivia. -/
theorem free_allows_after (hne : ts ≠ []) (hlast : ∀ t ∈ ts.getLast?, t.isTrivia = false)
    (h : Fenced us) : Slack.free.Allows (σ.after ts) us := by
  obtain ⟨xs, t, rfl⟩ : ∃ xs t, ts = xs ++ [t] := by
    rcases List.eq_nil_or_concat ts with hnil | ⟨xs, t, hxs⟩
    · exact absurd hnil hne
    · exact ⟨xs, t, by rw [hxs, List.concat_eq_append]⟩
  have ht := hlast t (by simp)
  rw [after_append]
  refine .inr (.inr ⟨rfl, ?_⟩)
  show past t = .free ∨ _
  exact (past_of_not_trivia ht).imp_right fun hpast => ⟨hpast, h⟩

end Slack

/-- Tokens in front are kept, whatever they are. -/
theorem Aired.behind {σ : Slack} {ts us : List Token} (xs : List Token)
    (h : Aired d (σ.after xs) ts us) : Aired d σ (xs ++ ts) (xs ++ us) := by
  induction xs generalizing σ with
  | nil => exact h
  | cons x xs ih => exact .keep x (ih h)

theorem Faces.after {σ : Slack} {ts xs : List Token} (hf : Faces d gone σ (xs ++ ts))
    (hc : Clear d gone (xs ++ ts)) : Faces d gone (σ.after xs) ts := by
  induction xs generalizing σ with
  | nil => exact hf
  | cons x xs ih => exact ih hc.faces hc.tail

/-! ## Declarations -/

namespace Statement

/-- The first colon outside of parentheses does not depend on the trivia around it. -/
theorem cutColon?_regap {property gap gap' behind behind' : List Token} {colon : Token}
    (hg : ∀ t ∈ gap, t.isTrivia = true) (hg' : ∀ t ∈ gap', t.isTrivia = true) (depth : Nat)
    (h : cutColon? depth (property ++ (gap ++ colon :: behind)) =
      some (property ++ gap, colon, behind)) :
    cutColon? depth (property ++ (gap' ++ colon :: behind')) =
      some (property ++ gap', colon, behind') := by
  induction property generalizing depth with
  | nil =>
    rw [List.nil_append, cutColon?_trivia_append hg, cutColon?, List.nil_append] at h
    rw [List.nil_append, cutColon?_trivia_append hg', cutColon?, List.nil_append]
    split at h
    · rw [if_pos (by assumption)]
      simp
    · obtain ⟨⟨b, c, r⟩, hrest, he⟩ := Option.map_eq_some_iff.1 h
      obtain ⟨⟨b', c', r'⟩, -, he'⟩ := Option.map_eq_some_iff.1 hrest
      simp only [Prod.mk.injEq] at he he'
      obtain ⟨rfl, -⟩ := he'
      exact absurd he.1 (by simp)
  | cons t property ih =>
    rw [List.cons_append, cutColon?] at h ⊢
    split at h
    · simp at h
    · rw [if_neg (by assumption)]
      obtain ⟨⟨b, c, r⟩, hrest, he⟩ := Option.map_eq_some_iff.1 h
      simp only [Prod.mk.injEq, List.cons_append, List.cons.injEq, true_and] at he
      obtain ⟨rfl, rfl, rfl⟩ := he
      dsimp only
      rw [ih _ hrest]
      rfl

theorem spanOf_declarationChildren (property gap lead : List Token) (colon : Token)
    (value : List Node) : Node.spanOf (declarationChildren d property gap colon lead value) =
      ⟨(Node.ofChildren .property d (property.map (propertyLeaf d))).span.first,
        (Node.ofChildren .value d value).span.last⟩ := by
  simp [Node.spanOf, declarationChildren, List.getLast?_cons, List.getLast?_append]

/-- The parts of a declaration behind its property, with other trivia between them. -/
theorem regapped_parts {gap lead : List Token} {colon : Token} {value cs : List Node}
    {s s' : Slack} (hv : ∀ n ∈ value, n.kind ≠ .block) (hg : ∀ t ∈ gap, t.isTrivia = true)
    (hl : ∀ t ∈ lead, t.isTrivia = true)
    (h : Regapped d gone s (leaves d gap ++ .leaf ⟨.propertyDelimiter, d, colon.span⟩ [':'] ::
      (leaves d lead ++ [.ofChildren .value d value])) cs s') :
    ∃ gap' lead', cs = leaves d gap' ++ .leaf ⟨.propertyDelimiter, d, colon.span⟩ [':'] ::
        (leaves d lead' ++ [.ofChildren .value d value]) ∧
      Leads d gone s gap gap' ∧ (s = .stuck → gap'.head? = gap.head?) ∧
      Leads d gone .free lead lead' ∧ (lead = [] → charsOf value = [] → lead' = []) := by
  obtain ⟨gap', cs₁, rfl, hgap, hgn, h₁⟩ := h.lead hg Kind.noConfusion
  obtain ⟨cs₂, rfl, h₂⟩ := h₁.of_stuck_of_no_block Kind.noConfusion (by simp [Node.children])
  obtain ⟨lead', cs₃, rfl, hlead, hln, h₃⟩ := h₂.lead hl Kind.noConfusion
  obtain ⟨cs₄, rfl, h₄⟩ :=
    h₃.of_stuck_of_no_block (n := .ofChildren .value d value) Kind.noConfusion hv
  obtain ⟨rfl, -⟩ := h₄.eq_nil
  refine ⟨gap', lead', rfl, hgap, fun hs => hgn (.inl hs), hlead, fun hnil hchars => ?_⟩
  have hempty := hln (.inr ⟨hnil, rfl, by rw [ofChildren, Node.chars, hchars]; rfl⟩)
  rwa [hnil, List.head?_nil, List.head?_eq_none_iff] at hempty

/-- What a statement says, before and behind changes to the whitespace in its gaps. -/
structure Recored (d : Dialect) (gone : Position → Prop) (core core' : List Token) : Prop where
  trimmed : Trimmed core'
  head?_eq : core'.head? = core.head?
  matched : Matched id core core'
  aired : ∀ {σ : Slack} {rest rest' : List Token}, Clear d gone (core ++ rest) →
    Faces d gone σ (core ++ rest) → Aired d (σ.after core) rest rest' →
      Aired d σ (core ++ rest) (core' ++ rest')

theorem Recored.refl {core : List Token} (h : Trimmed core) : Recored d gone core core :=
  ⟨h, rfl, .refl core, fun _ _ hr => hr.behind core⟩

/-- The last token of a declaration that ends in no trivia does not depend on the trivia around the
colon. -/
theorem getLast?_declaration (property gap : List Token) (colon : Token) {lead value : List Token}
    (h : value = [] → lead = []) :
    (property ++ (gap ++ colon :: (lead ++ value))).getLast? =
      some (value.getLast?.getD colon) := by
  cases hvalue : value.getLast? with
  | none =>
    rw [List.getLast?_eq_none_iff] at hvalue
    simp [hvalue, h hvalue]
  | some v => simp [List.getLast?_append, List.getLast?_cons, hvalue]

/-- A declaration without a property starts with its colon. -/
theorem gaps_eq_nil {gap gap' : List Token} {colon : Token} {after : List Token}
    (htrim : Trimmed (gap ++ colon :: after)) (hgt : ∀ t ∈ gap, t.isTrivia = true)
    (hhead : gap'.head? = gap.head?) : gap = [] ∧ gap' = [] := by
  have hnil : gap = [] := by
    cases gap with
    | nil => rfl
    | cons t gap =>
      have ht := htrim.1 t rfl
      rw [hgt t (by simp)] at ht
      cases ht
  refine ⟨hnil, ?_⟩
  rwa [hnil, List.head?_nil, List.head?_eq_none_iff] at hhead

/-- The trivia behind a colon, with the value behind it. -/
theorem aired_behind_colon {lead lead' value rest rest' : List Token} {colon : Token}
    (hc : colon.kind = .colon) (hv : ∀ t ∈ value.head?, t.isTrivia = false)
    (hn : ∀ t ∈ value, t.kind ≠ .newline) (hl : Leads d gone .free lead lead')
    (hln : value = [] → lead = [] ∧ lead' = [])
    (hclear : Clear d gone (colon :: (lead ++ (value ++ rest))))
    (hrest : Aired d (Slack.after (.past colon) (lead ++ value)) rest rest') :
    Aired d (.past colon) (lead ++ (value ++ rest)) (lead' ++ (value ++ rest')) := by
  have hpast : Slack.past colon = .free := Slack.past_of_isClosed (by rw [isClosed, hc])
  cases value with
  | nil =>
    obtain ⟨rfl, rfl⟩ := hln rfl
    simpa [Slack.after] using hrest
  | cons v value =>
    have hfaces := hclear.faces
    have hvk : v.kind ≠ .whitespace := Token.kind_ne_whitespace (hv v rfl)
    rw [hpast] at hfaces ⊢
    refine hl.aired hclear.tail hfaces (Slack.allows_free _) hvk (hn v (by simp)) ?_
    exact Aired.behind (v :: value) (by simpa [Slack.after] using hrest)

/-- A declaration with other trivia around its colon. -/
theorem recored_declaration {property gap gap' lead lead' value : List Token} {colon : Token}
    {s : Slack} (hc : colon.kind = .colon)
    (htrim : Trimmed (property ++ (gap ++ colon :: (lead ++ value))))
    (hp : ∀ t ∈ property.getLast?, t.isTrivia = false) (hgt : ∀ t ∈ gap, t.isTrivia = true)
    (hv : ∀ t ∈ value.head?, t.isTrivia = false) (hn : ∀ t ∈ value, t.kind ≠ .newline)
    (hs : s = if property = [] then .stuck else .free)
    (hg : Leads d gone s gap gap') (hgn : s = .stuck → gap'.head? = gap.head?)
    (hl : Leads d gone .free lead lead') (hln : value = [] → lead = [] ∧ lead' = []) :
    Recored d gone (property ++ (gap ++ colon :: (lead ++ value)))
      (property ++ (gap' ++ colon :: (lead' ++ value))) := by
  have hhead : (property ++ (gap' ++ colon :: (lead' ++ value))).head? =
      (property ++ (gap ++ colon :: (lead ++ value))).head? := by
    cases property with
    | nil =>
      obtain ⟨rfl, rfl⟩ := gaps_eq_nil htrim hgt (hgn hs)
      rfl
    | cons t property => rfl
  have hlast := getLast?_declaration property gap colon fun hnil => (hln hnil).1
  have hlast' := getLast?_declaration property gap' colon fun hnil => (hln hnil).2
  refine ⟨⟨?_, ?_⟩, hhead, ?_, ?_⟩
  · rw [hhead]
    exact htrim.1
  · rw [hlast', ← hlast]
    exact htrim.2
  · exact (Matched.refl property).append
      (hg.matched.append (.keep rfl rfl (hl.matched.append (.refl value))))
  · intro σ rest rest' hclear hfits hrest
    simp only [List.append_assoc, List.cons_append] at hclear hfits ⊢
    have hbehind : Aired d (.past colon) (lead ++ (value ++ rest)) (lead' ++ (value ++ rest')) :=
      aired_behind_colon hc hv hn hl hln hclear.right.right (by simpa [Slack.after] using hrest)
    refine Aired.behind property (hg.aired hclear.right (hfits.after hclear) ?_ (by simp [hc])
      (by simp [hc]) (.keep colon hbehind))
    rw [hs]
    split
    · exact Slack.allows_stuck _ _
    · rename_i hne
      exact Slack.free_allows_after hne hp
        (fenced_trivia hgt (fenced_cons (by rw [isBarrier, hc]) _))

/-- What is read of a declaration from its parts. -/
theorem core_declaration {property gap lead value : List Token} {colon : Token} {vs : List Node}
    (hc : cutColon? 0 (property ++ (gap ++ colon :: (lead ++ value))) =
      some (property ++ gap, colon, lead ++ value))
    (hp : ∀ t ∈ property.getLast?, t.isTrivia = false) (hg : ∀ t ∈ gap, t.isTrivia = true)
    (hl : ∀ t ∈ lead, t.isTrivia = true) (hh : ∀ t ∈ value.head?, t.isTrivia = false)
    (hv : Value.nodes d value = .ok vs) :
    Core d (property ++ (gap ++ colon :: (lead ++ value)))
      [.ofChildren .declaration d (declarationChildren d property gap colon lead vs)] := by
  refine .declaration hc (declaration_eq_ok.2 ⟨vs, ?_, ?_⟩)
  · rw [trimStart_eq hl hh]
    exact hv
  · rw [trimEnd_eq hp hg, trimStart_eq hl hh]

/-- **What a statement says, with other whitespace in its gaps.** -/
theorem Core.regapped {core : List Token} {n : Node} {ns ms : List Node} {s' : Slack}
    (h : Core d core [n]) (htrim : Trimmed core)
    (hnewline : ∀ t ∈ core, t.kind ≠ .newline) (hr : Regapped d gone .stuck (n :: ns) ms s') :
    ∃ core' n' ms', ms = n' :: ms' ∧ Core d core' [n'] ∧ Recored d gone core core' ∧
      Regapped d gone (.opening d) ns ms' s' := by
  generalize hown : [n] = own at h
  cases h with
  | empty => cases hown
  | raw hne hc =>
    obtain rfl := List.singleton_injective hown
    obtain ⟨ms', rfl, hr'⟩ := hr.of_stuck_of_no_block Kind.noConfusion (by simp [joined, children])
    exact ⟨core, _, ms', rfl, .raw hne hc, .refl htrim, hr'⟩
  | @declaration _ before behind colon m hcut hm =>
    obtain rfl := List.singleton_injective hown
    obtain ⟨hparts, hcolon⟩ := cutColon?_eq 0 hcut
    obtain ⟨vs, hv, rfl⟩ := declaration_eq_ok.1 hm
    have hinline : ∀ v ∈ vs, v.kind ≠ .block :=
      fun v hv' => ((Value.inlineReading_nodes hv).inline v hv').self.1
    have hbefore := trimEnd_append before
    have hbehind := trimStart_append behind
    have hgt := isTrivia_trimEnd before
    have hlt := isTrivia_trimStart behind
    have hpl := isTrivia_getLast_trimEnd before
    have hvh := isTrivia_head_trimStart behind
    generalize trimEnd before = pg at *
    obtain ⟨property, gap⟩ := pg
    generalize trimStart behind = lv at *
    obtain ⟨lead, value⟩ := lv
    dsimp only at *
    subst hbefore hbehind hparts
    obtain ⟨cs', ms', rfl, hr', s₁, hcs⟩ := hr.of_stuck_declaration rfl
    obtain ⟨gap', lead', rfl, hg, hgn, hl, hln⟩ := regapped_parts hinline hgt hlt hcs
    have hchars : value = [] → charsOf vs = [] := by
      rintro rfl
      exact (Value.inlineReading_nodes hv).reading.charsOf_eq (by simp)
    have hlead : value = [] → lead = [] := by
      rintro rfl
      refine List.eq_nil_iff_forall_not_mem.2 fun t ht => ?_
      rw [List.append_nil] at htrim
      have hlast := htrim.2 (lead.getLast (List.ne_nil_of_mem ht))
        (by simp [List.getLast?_append, List.getLast?_cons,
          List.getLast?_eq_some_getLast (List.ne_nil_of_mem ht)])
      rw [hlt _ (List.getLast_mem _)] at hlast
      cases hlast
    refine ⟨property ++ (gap' ++ colon :: (lead' ++ value)),
      .ofChildren .declaration d (declarationChildren d property gap' colon lead' vs), ms', ?_,
      core_declaration (cutColon?_regap hgt hg.isTrivia 0 (by simpa using hcut)) hpl hg.isTrivia
        hl.isTrivia hvh hv, ?_, hr'⟩
    · rw [spanOf_declarationChildren, ← spanOf_declarationChildren property gap' lead' colon vs]
      rfl
    · rw [List.append_assoc] at htrim ⊢
      refine recored_declaration hcolon htrim hpl hgt hvh (fun t ht => hnewline t (by simp [ht]))
        rfl (by simpa [Node.ofChildren, children] using hg) (fun hs => hgn ?_) hl
        fun hnil => ⟨hlead hnil, hln (hlead hnil) (hchars hnil)⟩
      simpa [Node.ofChildren, children] using hs

/-! ## Statements -/

/-- A statement that no block ends, before and behind changes to the whitespace in its gaps. Between
braces it has a mark behind it. -/
structure Restated (d : Dialect) (gone : Position → Prop) (head head' : List Token) (s' : Slack) :
    Prop where
  head?_eq : head'.head? = head.head?
  matched : Matched id head head'
  aired : ∀ {σ : Slack} {rest rest' : List Token}, Clear d gone (head ++ rest) →
    Faces d gone σ (head ++ rest) → (d ≠ .sass → Fenced rest) →
    (∀ σ', Faces d gone σ' rest → s'.Allows σ' rest → Aired d σ' rest rest') →
      Aired d σ (head ++ rest) (head' ++ rest')

theorem opening_allows_after {σ : Slack} {core rest : List Token} (hne : core ≠ [])
    (hlast : ∀ t ∈ core.getLast?, t.isTrivia = false) (h : d ≠ .sass → Fenced rest) :
    (Slack.opening d).Allows (σ.after core) rest := by
  unfold Slack.opening
  split
  · exact Slack.allows_stuck _ _
  · rename_i hd
    exact Slack.free_allows_after hne hlast (h hd)

/-- What a statement says, and trivia behind it. -/
theorem Recored.restated {core core' trailing trailing' : List Token} {s' : Slack}
    (h : Recored d gone core core') (htrim : Trimmed core) (hne : core ≠ [])
    (ht : ∀ t ∈ trailing, t.isTrivia = true) (hm : Matched id trailing trailing')
    (ha : Airs d gone (.opening d) trailing trailing' s') :
    Restated d gone (core ++ trailing) (core' ++ trailing') s' := by
  refine ⟨?_, h.matched.append hm, fun hc hf hfence hk => ?_⟩
  · obtain ⟨t, core, rfl⟩ := List.exists_cons_of_ne_nil hne
    rw [List.head?_append, h.head?_eq]
    rfl
  · rw [List.append_assoc] at hc hf ⊢
    rw [List.append_assoc]
    refine h.aired hc hf (ha.aired hc.right (hf.after hc) ?_ hk)
    exact opening_allows_after hne htrim.2 fun hd => fenced_trivia ht (hfence hd)

/-- Trivia before a statement. -/
theorem Restated.lead {leading leading' head head' : List Token} {s' : Slack}
    (h : Restated d gone head head' s') (hl : Leads d gone .stuck leading leading')
    (hstart : leading'.head? = leading.head?) (hne : head ≠ [])
    (hh : ∀ t ∈ head.head?, t.isTrivia = false ∧ t.kind ≠ .newline) :
    Restated d gone (leading ++ head) (leading' ++ head') s' := by
  obtain ⟨t, head, rfl⟩ := List.exists_cons_of_ne_nil hne
  obtain ⟨head'', rfl⟩ := List.head?_eq_some_iff.1 h.head?_eq
  obtain ⟨ht, hn⟩ := hh t rfl
  refine ⟨by simp [hstart], hl.matched.append h.matched, fun hc hf hfence hk => ?_⟩
  rw [List.append_assoc] at hc hf ⊢
  rw [List.append_assoc]
  have hw : t.kind ≠ .whitespace := Token.kind_ne_whitespace ht
  exact hl.aired hc hf (Slack.allows_stuck _ _) hw hn (h.aired hc.right (.stuck _) hfence hk)

/-- A statement from what it says and the trivia around that. -/
theorem plain_of_core {leading core trailing : List Token} {own : List Node}
    (hl : ∀ t ∈ leading, t.isTrivia = true) (htrim : Trimmed core) (hne : core ≠ [])
    (ht : ∀ t ∈ trailing, t.isTrivia = true) (hc : Core d core own)
    (hk : ∀ t ts, leading ++ (core ++ trailing) = t :: ts →
      ¬(t.kind = .atKeyword ∧ isLessVariable d ts = false)) :
    Plain d (leading ++ (core ++ trailing)) (leaves d leading ++ (own ++ leaves d trailing)) := by
  have hstart : trimStart (leading ++ (core ++ trailing)) = (leading, core ++ trailing) := by
    refine trimStart_eq hl fun t h => htrim.1 t ?_
    obtain ⟨u, core, rfl⟩ := List.exists_cons_of_ne_nil hne
    exact h
  have hend : trimEnd (core ++ trailing) = (core, trailing) := trimEnd_eq htrim.2 ht
  generalize hhead : leading ++ (core ++ trailing) = head at *
  cases head with
  | nil =>
    obtain ⟨-, h⟩ := List.append_eq_nil_iff.1 hhead
    exact absurd (List.append_eq_nil_iff.1 h).1 hne
  | cons t ts =>
    have hcore : Core d (trimEnd (trimStart (t :: ts)).2).1 own := by
      rw [hstart, hend]
      exact hc
    have hplain := Plain.other (hk t ts rfl) hcore
    rw [hstart, hend] at hplain
    exact hplain

/-- What a statement says is one node, if it says anything. -/
theorem Core.eq_singleton {core : List Token} {own : List Node} (h : Core d core own) :
    core = [] ∧ own = [] ∨ core ≠ [] ∧ ∃ n, own = [n] ∧ n.kind ≠ .space := by
  have hk := h.kind_ne (k := .space) (by decide)
  cases h with
  | empty => exact .inl ⟨rfl, rfl⟩
  | raw hne => exact .inr ⟨hne, _, rfl, hk _ (by simp)⟩
  | declaration hcut =>
    refine .inr ⟨?_, _, rfl, hk _ (by simp)⟩
    rintro rfl
    cases hcut

/-- Trivia alone is a statement that says nothing. -/
theorem plain_trivia {t : Token} {ts : List Token} (h : ∀ u ∈ t :: ts, u.isTrivia = true) :
    Plain d (t :: ts) (leaves d (t :: ts)) := by
  have hstart : trimStart (t :: ts) = (t :: ts, []) := by
    have hall := trimStart_eq h (fun u (hu : u ∈ [].head?) => by cases hu)
    rwa [List.append_nil] at hall
  have hk : ¬(t.kind = .atKeyword ∧ isLessVariable d ts = false) := by
    rintro ⟨hk, -⟩
    have ht := h t (by simp)
    rw [Token.isTrivia, hk] at ht
    cases ht
  have hcore : Core d (trimEnd (trimStart (t :: ts)).2).1 [] := by
    rw [hstart]
    exact .empty
  have hplain := Plain.other hk hcore
  rw [hstart] at hplain
  simpa [leaves, trimEnd] using hplain

/-- Trivia alone, with other whitespace. -/
theorem exists_plain_trivia {t : Token} {ts : List Token} {ms : List Node} {s' : Slack}
    (h : ∀ u ∈ t :: ts, u.isTrivia = true)
    (hr : Regapped d gone .stuck (leaves d (t :: ts)) ms s') :
    ∃ head', Plain d head' ms ∧ Restated d gone (t :: ts) head' s' := by
  obtain ⟨us, rfl, hus, hmatch, hairs, hstart⟩ := hr.trivia h
  obtain ⟨us, rfl⟩ := List.head?_eq_some_iff.1 (hstart (.inl rfl))
  refine ⟨t :: us, plain_trivia hus, rfl, hmatch, fun hc hf _ hk => ?_⟩
  exact hairs.aired hc hf (Slack.allows_stuck _ _) hk

/-- The name and the parameters of an at-rule, and trivia behind them with other whitespace. -/
theorem exists_plain_atrule {keyword : Token} {kept trivia : List Token} {value ms : List Node}
    {s' : Slack} (hk : keyword.kind = .atKeyword)
    (hl : isLessVariable d (kept ++ trivia) = false)
    (hlast : ∀ t ∈ kept.getLast?, t.isTrivia = false) (ht : ∀ t ∈ trivia, t.isTrivia = true)
    (hv : Value.nodes d kept = .ok value)
    (hr : Regapped d gone .stuck
      (.ofChildren .atrule d (keyword.leaf d :: value) :: leaves d trivia) ms s') :
    ∃ head', Plain d head' ms ∧ Restated d gone (keyword :: (kept ++ trivia)) head' s' := by
  have hinline : ∀ c ∈ keyword.leaf d :: value, c.kind ≠ .block := by
    rintro c (_ | ⟨_, hc⟩)
    · exact (leaf_inline keyword).self.1
    · exact ((Value.inlineReading_nodes hv).inline c hc).self.1
  obtain ⟨ms', rfl, hr'⟩ := hr.of_stuck_of_no_block
    (n := .ofChildren .atrule d (keyword.leaf d :: value)) Kind.noConfusion hinline
  obtain ⟨trivia', rfl, ht', hmatch, hairs, -⟩ := hr'.trivia ht
  have hplain : Plain d (keyword :: (kept ++ trivia')) (.ofChildren .atrule d
      (keyword.leaf d :: value) :: leaves d (trimEnd (kept ++ trivia')).2) := by
    refine .atrule hk ?_ (by rw [trimEnd_eq hlast ht']; exact hv)
    rw [((Matched.refl kept).append hmatch).isLessVariable_eq, hl]
  rw [trimEnd_eq hlast ht'] at hplain
  have htrim : Trimmed (keyword :: kept) :=
    trimmed_cons (by rw [Token.isTrivia, hk]) hlast
  exact ⟨_, hplain, (Recored.refl htrim).restated htrim (by simp) ht hmatch hairs⟩

/-- What a statement says, with other whitespace in its gaps and in the trivia around it. -/
theorem exists_plain_core {leading core trailing : List Token} {n : Node} {ms : List Node}
    {s' : Slack} (hlt : ∀ t ∈ leading, t.isTrivia = true) (htrim : Trimmed core) (hne : core ≠ [])
    (htt : ∀ t ∈ trailing, t.isTrivia = true) (hc : Core d core [n]) (hspace : n.kind ≠ .space)
    (hn : ∀ t ∈ core, t.kind ≠ .newline)
    (hk : ∀ t ts, leading ++ (core ++ trailing) = t :: ts →
      ¬(t.kind = .atKeyword ∧ isLessVariable d ts = false))
    (hr : Regapped d gone .stuck (leaves d leading ++ n :: leaves d trailing) ms s') :
    ∃ head', Plain d head' ms ∧
      Restated d gone (leading ++ (core ++ trailing)) head' s' := by
  obtain ⟨leading', ms₁, rfl, hlead, hstart, hr₁⟩ := hr.lead hlt hspace
  obtain ⟨core', n', ms₂, rfl, hc', hrecored, hr₂⟩ := hc.regapped htrim hn hr₁
  obtain ⟨trailing', rfl, htt', hmatch, hairs, -⟩ := hr₂.trivia htt
  obtain ⟨u, us, rfl⟩ := List.exists_cons_of_ne_nil hne
  have hrestated := (hrecored.restated htrim hne htt hmatch hairs).lead hlead
    (hstart (.inl rfl)) (by simp) (by simpa using ⟨htrim.1 u rfl, hn u (by simp)⟩)
  have hcore' : core' ≠ [] := by
    rintro rfl
    cases hrecored.head?_eq
  obtain ⟨t, ts, hhead⟩ : ∃ t ts, leading ++ ((u :: us) ++ trailing) = t :: ts :=
    List.exists_cons_of_ne_nil (by simp)
  rw [hhead] at hrestated ⊢
  refine ⟨_, plain_of_core hlead.isTrivia hrecored.trimmed hcore' htt' hc' ?_, hrestated⟩
  exact not_atrule hrestated.matched (by rw [startsAt, startsAt, hrestated.head?_eq])
    (hk t ts hhead)

/-- **A statement that no block ends, with other whitespace in its gaps.** -/
theorem Plain.regapped {head : List Token} {own ms : List Node} {s' : Slack} (h : Plain d head own)
    (hn : ∀ t ∈ head, t.kind ≠ .newline) (hr : Regapped d gone .stuck own ms s') :
    ∃ head', Plain d head' ms ∧ Restated d gone head head' s' := by
  cases h with
  | none =>
    obtain ⟨rfl, rfl⟩ := hr.eq_nil
    exact ⟨[], .none, rfl, .nil, fun _ hf _ hk => hk _ hf (Slack.allows_stuck _ _)⟩
  | @atrule keyword params value hk hl hv =>
    have hplain := exists_plain_atrule hk (by rw [trimEnd_append]; exact hl)
      (isTrivia_getLast_trimEnd params) (isTrivia_trimEnd params) hv hr
    rwa [trimEnd_append] at hplain
  | @other t ts own hk hc =>
    have hparts := trimStart_append (t :: ts)
    have hparts' := trimEnd_append (trimStart (t :: ts)).2
    have hlt := isTrivia_trimStart (t :: ts)
    have htt := isTrivia_trimEnd (trimStart (t :: ts)).2
    have htrim := trimmed_core (t :: ts)
    have hrest := isTrivia_head_trimStart (t :: ts)
    generalize (trimStart (t :: ts)).1 = leading at *
    generalize (trimEnd (trimStart (t :: ts)).2).1 = core at *
    generalize (trimEnd (trimStart (t :: ts)).2).2 = trailing at *
    rw [← hparts'] at hparts hrest
    rcases hc.eq_singleton with ⟨rfl, rfl⟩ | ⟨hne, n, rfl, hspace⟩
    · -- nothing is said, so that all of it stands before the core
      have htrailing : trailing = [] := by
        cases trailing with
        | nil => rfl
        | cons u trailing =>
          have hu := hrest u rfl
          rw [htt u (by simp)] at hu
          cases hu
      obtain rfl : leading = t :: ts := by simpa [htrailing] using hparts
      rw [htrailing] at hr
      exact exists_plain_trivia hlt (by simpa [leaves] using hr)
    · have hplain := exists_plain_core hlt htrim hne htt hc hspace
        (fun u hu => hn u (by rw [← hparts]; simp [hu]))
        (fun u us hus => by rw [hparts] at hus; cases hus; exact hk) hr
      rwa [hparts] at hplain

/-- **The parts of a statement with a block**: in place of the nodes of the block any others may
stand. -/
theorem Opener.exists_label {head : List Token} {l : Label} {cs : List Node} {n : Node}
    (h : Opener d (.branch l cs) head n) :
    ∃ k init, (k.kind = .ruleset ∨ k.kind = .atrule) ∧ n = .branch k (init ++ [.branch l cs]) ∧
      ∀ cs', Opener d (.branch l cs') head (.branch k (init ++ [.branch l cs'])) := by
  obtain ⟨k, init, hk, rfl, -, -, hany⟩ := h.exists_parts
  refine ⟨_, init, hk, rfl, fun cs' => ?_⟩
  have hspan : Node.spanOf (init ++ [.branch l cs']) = Node.spanOf (init ++ [.branch l cs]) :=
    spanOf_concat rfl
  rw [← hspan]
  exact hany (.branch l cs')

/-- A statement between braces that says something does not start with whitespace. -/
theorem Plain.head?_kind_ne {head : List Token} {own : List Node} (h : Plain d head own)
    (hh : ∀ t ∈ head.head?, t.isTrivia = false) : ∀ n ∈ own.head?, n.kind ≠ .space := by
  cases h with
  | none => simp
  | atrule =>
    rintro n hn
    cases hn
    exact Kind.noConfusion
  | @other t ts own hk hc =>
    have hstart : trimStart (t :: ts) = ([], t :: ts) := trimStart_eq (List.forall_mem_nil _) hh
    rw [hstart] at hc ⊢
    dsimp only at hc ⊢
    rcases hc.eq_singleton with ⟨hcore, rfl⟩ | ⟨-, n, rfl, hn⟩
    · have happend := trimEnd_append (t :: ts)
      rw [hcore, List.nil_append] at happend
      have ht := isTrivia_trimEnd (t :: ts) t (by rw [happend]; simp)
      rw [hh t rfl] at ht
      cases ht
    · rintro m hm
      cases hm
      exact hn

end Statement

end TidySheet
