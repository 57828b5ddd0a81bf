import TidySheet.Proofs.Airing
import TidySheet.Proofs.Openings

/-!
# Trees with other whitespace in their gaps

Between the items of a block, and between the parts of a declaration, whitespace is of no matter to
what a sheet says. Here such whitespace comes, goes and changes its width in a tree, and what is
left without all whitespace stays.

* `Node.solid` — a tree without whitespace;
* `Regapped` — siblings with other whitespace in their gaps, in all blocks and declarations;
* `Regapped.solids_eq` — they are the same without whitespace;
* `Regapped.split`, `Regapped.unput` — siblings are taken apart.
-/

set_option autoImplicit false

namespace TidySheet

namespace Node

/-! ## Trees without whitespace -/

mutual

/-- The tree without whitespace. -/
def solid : Node → Node
  | .leaf l t => .leaf l t
  | .branch l cs => .branch l (solids cs)

def solids : List Node → List Node
  | [] => []
  | n :: ns => if n.is .space then solids ns else solid n :: solids ns

end

variable {n : Node}

@[simp] theorem solids_nil : solids [] = [] := by
  rw [solids]

theorem solids_of_space (h : n.kind = .space) (ns : List Node) : solids (n :: ns) = solids ns := by
  rw [solids, if_pos (by simpa [is] using h)]

theorem solids_of_ne (h : n.kind ≠ .space) (ns : List Node) :
    solids (n :: ns) = n.solid :: solids ns := by
  rw [solids, if_neg (by simpa [is] using h)]

theorem solids_append (ms ns : List Node) : solids (ms ++ ns) = solids ms ++ solids ns := by
  induction ms with
  | nil => simp
  | cons m ms ih =>
    by_cases h : m.kind = .space
    · rw [List.cons_append, solids_of_space h, solids_of_space h, ih]
    · rw [List.cons_append, solids_of_ne h, solids_of_ne h, ih, List.cons_append]

mutual

theorem unplace_solid : ∀ n : Node, n.solid.unplace = n.unplace.solid
  | .leaf l t => by simp [solid]
  | .branch l cs => by
    rw [solid, unplace_branch, unplace_branch, solid, map_unplace_solids cs]

theorem map_unplace_solids : ∀ ns : List Node, (solids ns).map unplace = solids (ns.map unplace)
  | [] => by simp
  | n :: ns => by
    rw [List.map_cons]
    by_cases h : n.kind = .space
    · rw [solids_of_space h, solids_of_space (by simpa using h), map_unplace_solids ns]
    · rw [solids_of_ne h, solids_of_ne (by simpa using h), List.map_cons, unplace_solid n,
        map_unplace_solids ns]

end

mutual

/-- Trees that differ in their places alone have one shape. -/
theorem sameShape_of_unplace : ∀ {a b : Node}, a.unplace = b.unplace → a.sameShape b = true
  | .leaf l s, .leaf m t, h => by
    rw [unplace_leaf, unplace_leaf] at h
    obtain ⟨hl, rfl⟩ := Node.leaf.inj h
    have hk : l.kind = m.kind := (Label.mk.inj hl).1
    simp [sameShape, hk]
  | .branch l as, .branch m bs, h => by
    rw [unplace_branch, unplace_branch] at h
    obtain ⟨hl, hcs⟩ := Node.branch.inj h
    have hk : l.kind = m.kind := (Label.mk.inj hl).1
    rw [sameShape, hk, sameShapes_of_unplace hcs]
    simp
  | .leaf _ _, .branch _ _, h => by
    rw [unplace_leaf, unplace_branch] at h
    cases h
  | .branch _ _, .leaf _ _, h => by
    rw [unplace_leaf, unplace_branch] at h
    cases h

theorem sameShapes_of_unplace :
    ∀ {as bs : List Node}, as.map unplace = bs.map unplace → sameShapes as bs = true
  | [], [], _ => by rw [sameShapes]
  | a :: as, b :: bs, h => by
    rw [List.map_cons, List.map_cons] at h
    obtain ⟨ha, has⟩ := List.cons.inj h
    rw [sameShapes, sameShape_of_unplace ha, sameShapes_of_unplace has]
    rfl
  | [], _ :: _, h => by cases h
  | _ :: _, [], h => by cases h

end

end Node

open Node

/-! ## Gaps between siblings -/

/-- What a block leaves to the gap behind its opening, and a statement to the one behind it: on
lines, where whitespace is indentation, nothing. -/
def Slack.opening (d : Dialect) : Slack := if d = .sass then .stuck else .free

/-- What a node leaves to the gap behind it. -/
def Slack.beyond (d : Dialect) (n : Node) : Slack :=
  match n.kind with
  | .space => .stuck
  | .singlelineComment => .lined
  | .multilineComment => .free
  | .propertyDelimiter => .free
  | _ => .opening d

/-- Whitespace that is put in where there is none. -/
inductive Put (d : Dialect) : Slack → List Node → Prop
  | none (s : Slack) : Put d s []
  | blanks {s : Slack} {span : Span} {t : List Char} (hs : s ≠ .stuck) (hne : t ≠ [])
      (hb : ∀ x ∈ t, isBlankIn d x = true) : Put d s [.leaf ⟨.space, d, span⟩ t]

/-- **Siblings with other whitespace in their gaps**, from one point among them to another: a space
is resized or taken out, if it starts where one may be `gone`, and blanks are put in. So it is in
the blocks of the siblings and between the parts of declarations; a property without text leaves no
gap behind it. -/
inductive Regapped (d : Dialect) (gone : Position → Prop) :
    Slack → List Node → List Node → Slack → Prop
  | nil (s : Slack) : Regapped d gone s [] [] s
  | keep {s s' : Slack} {gap ns ms : List Node} (n : Node) (hg : Put d s gap)
      (hn : gap ≠ [] → n.kind ≠ .space ∧ n.kind ≠ .declarationDelimiter ∧ n.chars ≠ [])
      (h : Regapped d gone (.beyond d n) ns ms s') :
      Regapped d gone s (n :: ns) (gap ++ n :: ms) s'
  | resize {s s' : Slack} {l : Label} {t t' : List Char} {ns ms : List Node} (hs : s ≠ .stuck)
      (hl : l.kind = .space) (hne : t' ≠ []) (hb : ∀ x ∈ t', isBlankIn d x = true)
      (hbreak : t.head? = some '\n' → t'.head? = some '\n') (h : Regapped d gone .stuck ns ms s') :
      Regapped d gone s (.leaf l t :: ns) (.leaf l t' :: ms) s'
  | drop {s' : Slack} {l : Label} {t : List Char} {ns ms : List Node} (hl : l.kind = .space)
      (hgone : gone l.span.first) (h : Regapped d gone .stuck ns ms s') :
      Regapped d gone .free (.leaf l t :: ns) ms s'
  | declaration {s s' s₁ : Slack} {l : Label} {property : Node} {gap cs cs' ns ms : List Node}
      (hg : Put d s gap) (hl : l.kind = .declaration)
      (hc : Regapped d gone (if property.children = [] then .stuck else .free) cs cs' s₁)
      (h : Regapped d gone (.opening d) ns ms s') :
      Regapped d gone s (.branch l (property :: cs) :: ns)
        (gap ++ .branch l (property :: cs') :: ms) s'
  | nested {s s' s₁ : Slack} {l k : Label} {gap init cs cs' ns ms : List Node} (hg : Put d s gap)
      (hl : l.kind = .ruleset ∨ l.kind = .atrule) (hk : k.kind = .block)
      (hc : Regapped d gone (.opening d) cs cs' s₁) (h : Regapped d gone (.opening d) ns ms s') :
      Regapped d gone s (.branch l (init ++ [.branch k cs]) :: ns)
        (gap ++ .branch l (init ++ [.branch k cs']) :: ms) s'

namespace Put

variable {d : Dialect} {s : Slack} {gap : List Node}

theorem eq_nil (h : Put d .stuck gap) : gap = [] := by
  cases h with
  | none => rfl
  | blanks hs => exact absurd rfl hs

theorem solids_eq (h : Put d s gap) (ns : List Node) : solids (gap ++ ns) = solids ns := by
  cases h with
  | none => rfl
  | blanks => exact solids_of_space rfl ns

/-- What is put in is whitespace between tokens. -/
theorem exists_tokens (h : Put d s gap) : ∃ ts : List Token, gap = Token.leaves d ts ∧
    (ts = [] ∨ s ≠ .stuck ∧ ∃ t : Token, ts = [t] ∧ t.IsGap d) := by
  cases h with
  | none => exact ⟨[], rfl, .inl rfl⟩
  | @blanks span t hs hne hb =>
    exact ⟨[⟨.whitespace, t, span⟩], rfl, .inr ⟨hs, _, rfl, rfl, hne, hb⟩⟩

end Put

namespace Regapped

variable {d : Dialect} {gone : Position → Prop} {s s' : Slack} {ns ms : List Node}

/-- **Without whitespace, the siblings are the same.** -/
theorem solids_eq (h : Regapped d gone s ns ms s') : solids ms = solids ns := by
  induction h with
  | nil => rfl
  | @keep s s' gap ns ms n hg hn h ih =>
    rw [hg.solids_eq]
    by_cases hk : n.kind = .space
    · rw [solids_of_space hk, solids_of_space hk, ih]
    · rw [solids_of_ne hk, solids_of_ne hk, ih]
  | @resize s s' l t t' ns ms _ hl _ _ _ _ ih =>
    have hspace : ∀ t, (Node.leaf l t).kind = .space := fun _ => hl
    rw [solids_of_space (hspace t), solids_of_space (hspace t'), ih]
  | @drop s' l t ns ms hl _ _ ih =>
    have hspace : (Node.leaf l t).kind = .space := hl
    rw [solids_of_space hspace, ih]
  | @declaration s s' s₁ l property gap cs cs' ns ms hg hl _ _ ihc ih =>
    have hk : ∀ cs, (Node.branch l cs).kind ≠ .space := by
      intro cs hk
      rw [Node.kind, Node.label, hl] at hk
      cases hk
    have hcs : solids (property :: cs') = solids (property :: cs) := by
      by_cases hp : property.kind = .space
      · rw [solids_of_space hp, solids_of_space hp, ihc]
      · rw [solids_of_ne hp, solids_of_ne hp, ihc]
    rw [hg.solids_eq, solids_of_ne (hk _), solids_of_ne (hk _), ih, solid, solid, hcs]
  | @nested s s' s₁ l k gap init cs cs' ns ms hg hl hk _ _ ihc ih =>
    have hkind : ∀ cs, (Node.branch l cs).kind ≠ .space := by
      intro cs hn
      change l.kind = .space at hn
      rw [hn] at hl
      rcases hl with hl | hl <;> cases hl
    have hblock : ∀ cs, solids [.branch k cs] = [(Node.branch k cs).solid] := by
      intro cs
      refine (solids_of_ne (fun hn => ?_) []).trans (by rw [solids_nil])
      change k.kind = .space at hn
      rw [hk] at hn
      cases hn
    rw [hg.solids_eq, solids_of_ne (hkind _), solids_of_ne (hkind _), ih, solid, solid,
      solids_append, solids_append, hblock, hblock, solid, solid, ihc]

/-- Whitespace may stay as it is. -/
theorem refl (s : Slack) (ns : List Node) : ∃ s', Regapped d gone s ns ns s' := by
  induction ns generalizing s with
  | nil => exact ⟨s, .nil s⟩
  | cons n ns ih =>
    obtain ⟨s', h⟩ := ih (.beyond d n)
    exact ⟨s', .keep n (.none s) (fun h => absurd rfl h) h⟩

theorem kept (s : Slack) (ns : List Node) (n : Node) :
    Regapped d gone s (ns ++ [n]) (ns ++ [n]) (.beyond d n) := by
  induction ns generalizing s with
  | nil => exact .keep n (.none s) (fun h => absurd rfl h) (.nil _)
  | cons m ns ih => exact .keep m (.none s) (fun h => absurd rfl h) (ih _)

theorem append {s₁ : Slack} {ns' ms' : List Node} (h : Regapped d gone s ns ms s₁)
    (h' : Regapped d gone s₁ ns' ms' s') : Regapped d gone s (ns ++ ns') (ms ++ ms') s' := by
  induction h with
  | nil => exact h'
  | keep n hg hn _ ih =>
    rw [List.append_assoc]
    exact .keep n hg hn (ih h')
  | resize hs hl hne hb hbreak _ ih => exact .resize hs hl hne hb hbreak (ih h')
  | drop hl hgone _ ih => exact .drop hl hgone (ih h')
  | declaration hg hl hc _ _ ih =>
    rw [List.append_assoc]
    exact .declaration hg hl hc (ih h')
  | nested hg hl hk hc _ _ ih =>
    rw [List.append_assoc]
    exact .nested hg hl hk hc (ih h')

theorem of_cons {n : Node} (h : Regapped d gone s (n :: ns) ms s') :
    ∃ xs ys s₁, ms = xs ++ ys ∧ Regapped d gone s [n] xs s₁ ∧ Regapped d gone s₁ ns ys s' := by
  cases h with
  | keep _ hg hn h => exact ⟨_ ++ [n], _, _, by simp, .keep n hg hn (.nil _), h⟩
  | resize hs hl hne hb hbreak h =>
    exact ⟨[_], _, _, rfl, .resize hs hl hne hb hbreak (.nil _), h⟩
  | drop hl hgone h => exact ⟨[], _, _, rfl, .drop hl hgone (.nil _), h⟩
  | declaration hg hl hc h => exact ⟨_ ++ [_], _, _, by simp, .declaration hg hl hc (.nil _), h⟩
  | nested hg hl hk hc h => exact ⟨_ ++ [_], _, _, by simp, .nested hg hl hk hc (.nil _), h⟩

/-- Siblings can be taken apart at any point. -/
theorem split {as bs : List Node} (h : Regapped d gone s (as ++ bs) ms s') :
    ∃ xs ys s₁, ms = xs ++ ys ∧ Regapped d gone s as xs s₁ ∧ Regapped d gone s₁ bs ys s' := by
  induction as generalizing s ms with
  | nil => exact ⟨[], ms, s, rfl, .nil s, h⟩
  | cons a as ih =>
    obtain ⟨xs, ys, s₁, rfl, ha, h⟩ := h.of_cons
    obtain ⟨xs', ys', s₂, rfl, has, hbs⟩ := ih h
    exact ⟨xs ++ xs', ys', s₂, by simp, ha.append has, hbs⟩

/-- What is put before the first sibling can be told from the rest; a value without text has nothing
put before it. -/
theorem unput {n : Node} (hk : n.kind ≠ .space) (h : Regapped d gone s (n :: ns) ms s') :
    ∃ gap xs, ms = gap ++ xs ∧ Put d s gap ∧ Regapped d gone .stuck (n :: ns) xs s' ∧
      (n.kind = .value → n.chars = [] → gap = []) := by
  cases h with
  | @keep _ _ gap _ ms _ hg hn h =>
    refine ⟨gap, n :: ms, rfl, hg, .keep n (.none _) (fun h => absurd rfl h) h, fun _ hc => ?_⟩
    exact Decidable.byContradiction fun hne => (hn hne).2.2 hc
  | resize _ hl => exact absurd hl hk
  | drop hl => exact absurd hl hk
  | declaration hg hl hc h =>
    refine ⟨_, _, rfl, hg, .declaration (.none _) hl hc h, fun hv => ?_⟩
    cases hl.symm.trans hv
  | nested hg hl hb hc h =>
    refine ⟨_, _, rfl, hg, .nested (.none _) hl hb hc h, fun hv => ?_⟩
    rcases hl with hl | hl <;> cases hl.symm.trans hv

theorem eq_nil (h : Regapped d gone s [] ms s') : ms = [] ∧ s' = s := by
  cases h
  exact ⟨rfl, rfl⟩

theorem of_stuck_declaration {l : Label} {property : Node} {cs : List Node}
    (hl : l.kind = .declaration)
    (h : Regapped d gone .stuck (.branch l (property :: cs) :: ns) ms s') :
    ∃ cs' ms', ms = .branch l (property :: cs') :: ms' ∧ Regapped d gone (.opening d) ns ms' s' ∧
      ∃ s₁, Regapped d gone (if property.children = [] then .stuck else .free) cs cs' s₁ := by
  generalize hn : Node.branch l (property :: cs) = n at h
  cases h with
  | keep _ hg _ h =>
    subst hn
    rw [hg.eq_nil]
    have hs : Slack.beyond d (.branch l (property :: cs)) = .opening d := by
      simp [Slack.beyond, Node.kind, Node.label, hl]
    rw [hs] at h
    exact ⟨cs, _, rfl, h, refl _ cs⟩
  | resize hs => exact absurd rfl hs
  | declaration hg _ hc h =>
    obtain ⟨rfl, hcs⟩ := Node.branch.inj hn
    obtain ⟨rfl, rfl⟩ := List.cons.inj hcs
    rw [hg.eq_nil]
    exact ⟨_, _, rfl, h, _, hc⟩
  | nested _ hl' =>
    obtain ⟨rfl, -⟩ := Node.branch.inj hn
    rw [hl] at hl'
    rcases hl' with hl' | hl' <;> cases hl'

theorem of_stuck_opener {l k : Label} {init cs : List Node}
    (hl : l.kind = .ruleset ∨ l.kind = .atrule)
    (h : Regapped d gone .stuck (.branch l (init ++ [.branch k cs]) :: ns) ms s') :
    ∃ cs' ms', ms = .branch l (init ++ [.branch k cs']) :: ms' ∧
      Regapped d gone (.opening d) ns ms' s' ∧ ∃ s₁, Regapped d gone (.opening d) cs cs' s₁ := by
  generalize hn : Node.branch l (init ++ [.branch k cs]) = n at h
  cases h with
  | keep _ hg _ h =>
    subst hn
    rw [hg.eq_nil]
    have hs : Slack.beyond d (.branch l (init ++ [.branch k cs])) = .opening d := by
      rcases hl with hl | hl <;> simp [Slack.beyond, Node.kind, Node.label, hl]
    rw [hs] at h
    exact ⟨cs, _, rfl, h, refl _ cs⟩
  | resize hs => exact absurd rfl hs
  | declaration _ hl' =>
    obtain ⟨rfl, -⟩ := Node.branch.inj hn
    rw [hl'] at hl
    rcases hl with hl | hl <;> cases hl
  | nested hg _ _ hc h =>
    obtain ⟨rfl, hcs⟩ := Node.branch.inj hn
    obtain ⟨rfl, hblock⟩ := List.append_inj' hcs rfl
    obtain ⟨rfl, rfl⟩ := Node.branch.inj (List.singleton_injective hblock)
    rw [hg.eq_nil]
    exact ⟨_, _, rfl, h, _, hc⟩

/-- Where nothing may change, a node without a block that is no declaration is kept. -/
theorem of_stuck_of_no_block {n : Node} (hd : n.kind ≠ .declaration)
    (hb : ∀ c ∈ n.children, c.kind ≠ .block) (h : Regapped d gone .stuck (n :: ns) ms s') :
    ∃ ms', ms = n :: ms' ∧ Regapped d gone (.beyond d n) ns ms' s' := by
  cases h with
  | keep _ hg _ h =>
    rw [hg.eq_nil]
    exact ⟨_, rfl, h⟩
  | resize hs => exact absurd rfl hs
  | declaration _ hl => exact absurd hl hd
  | @nested _ _ _ l k _ init cs cs' _ ms _ _ hk =>
    exact absurd hk (hb (.branch k cs) (by simp [Node.children]))

/-- Nothing is put before what ends a declaration. -/
theorem of_delimiter {n : Node} (hk : n.kind = .declarationDelimiter)
    (h : Regapped d gone s (n :: ns) ms s') :
    ∃ ms', ms = n :: ms' ∧ Regapped d gone (.opening d) ns ms' s' := by
  cases h with
  | @keep _ _ gap _ ms _ hg hn h =>
    have hgap : gap = [] := Decidable.byContradiction fun hne => (hn hne).2.1 hk
    have hs : Slack.beyond d n = .opening d := by rw [Slack.beyond, hk]
    exact ⟨ms, by rw [hgap]; rfl, by rwa [hs] at h⟩
  | resize _ hl => cases hl.symm.trans hk
  | drop hl => cases hl.symm.trans hk
  | declaration _ hl => cases hl.symm.trans hk
  | nested _ hl => rcases hl with hl | hl <;> cases hl.symm.trans hk

/-! ### Places -/

theorem getLast?_span_cons {n m : Node} (hn : m.span = n.span)
    (h : ms.getLast?.map Node.span = ns.getLast?.map Node.span) :
    (m :: ms).getLast?.map Node.span = (n :: ns).getLast?.map Node.span := by
  rw [List.getLast?_cons, List.getLast?_cons]
  cases hm : ms.getLast? <;> cases hns : ns.getLast? <;> rw [hm, hns] at h
  · simp [hn]
  · cases h
  · cases h
  · exact h

/-- Where no space may be gone, the last of the siblings stands where it stood. -/
theorem getLast?_span (hgone : ∀ p, ¬ gone p) (h : Regapped d gone s ns ms s') :
    ms.getLast?.map Node.span = ns.getLast?.map Node.span := by
  induction h with
  | nil => rfl
  | keep n _ _ _ ih =>
    rw [List.getLast?_append_of_ne_nil _ (by simp)]
    exact getLast?_span_cons rfl ih
  | resize _ _ _ _ _ _ ih => exact getLast?_span_cons rfl ih
  | drop _ h => exact absurd h (hgone _)
  | declaration _ _ _ _ _ ih =>
    rw [List.getLast?_append_of_ne_nil _ (by simp)]
    exact getLast?_span_cons rfl ih
  | nested _ _ _ _ _ _ ih =>
    rw [List.getLast?_append_of_ne_nil _ (by simp)]
    exact getLast?_span_cons rfl ih

/-- Where nothing may change before the siblings, the first one stands where it stood. -/
theorem head?_span (h : Regapped d gone .stuck ns ms s') :
    ms.head?.map Node.span = ns.head?.map Node.span := by
  cases h with
  | nil => rfl
  | keep _ hg =>
    rw [hg.eq_nil]
    rfl
  | resize hs => exact absurd rfl hs
  | declaration hg =>
    rw [hg.eq_nil]
    rfl
  | nested hg =>
    rw [hg.eq_nil]
    rfl

theorem spanOf_eq (hgone : ∀ p, ¬ gone p) (h : Regapped d gone .stuck ns ms s') :
    spanOf ms = spanOf ns := by
  have hfirst : ∀ cs : List Node, cs.head?.map (fun c => c.span.first) =
      (cs.head?.map Node.span).map Span.first := fun cs => (Option.map_map ..).symm
  have hlast : ∀ cs : List Node, cs.getLast?.map (fun c => c.span.last) =
      (cs.getLast?.map Node.span).map Span.last := fun cs => (Option.map_map ..).symm
  rw [spanOf, spanOf, hfirst, hfirst, hlast, hlast, h.head?_span, h.getLast?_span hgone]

end Regapped

end TidySheet
