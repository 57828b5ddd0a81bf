import TidySheet.Proofs.ColonMoves
import TidySheet.Proofs.Refilling

/-!
# Inlining keeps what a sheet says

Inlining takes whitespace out of blocks where it parts nothing, but for one place: in dialects where
two slashes start a comment, a statement may end in a slash, and a comment may follow. Everywhere
else an inlined sheet is read back as it is.

* `Inlining.squeezed` — where inlining takes whitespace out;
* `Inlining.collides` — whether it takes out whitespace between a slash and a comment;
* `Inlining.sameShape_process` — without such whitespace an inlined sheet is read back.
-/

set_option autoImplicit false

namespace TidySheet.Inlining

open Node

variable {d : Dialect} {gone : Position → Prop}

/-- Where the whitespace starts that inlining takes out of a sheet. -/
def squeezed (tree : Node) : List Position :=
  (tree.blocks.filter isInlinable).flatMap fun block =>
    (block.children.filter (·.is .space)).map fun n => n.span.first

/-- What inlining relies on in each node, and that whitespace that it takes out may be `gone`. -/
structure Squeezable (d : Dialect) (gone : Position → Prop) (n : Node) : Prop where
  wellFormed : n.WellFormed d
  gone_space : n.kind = .block → isInlinable n = true → ∀ c ∈ n.children, c.kind = .space →
    gone c.span.first

/-- **Siblings without the spaces between them.** Where no comment runs to the end of its line, all
of them may be gone. -/
theorem exists_regapped_filter (hd : d ≠ .sass) {ns ms : List Node} {s : Slack}
    (h : List.Forall₂ (Reblocked d gone) ns ms) (happart : Apart ns)
    (hspace : ∀ n ∈ ns, n.kind = .space → (∃ l t, n = .leaf l t) ∧ gone n.span.first)
    (hline : ∀ n ∈ ns, n.kind ≠ .singlelineComment)
    (hs : ∀ n ∈ ns.head?, n.kind = .space → s = .free) :
    ∃ s', Regapped d gone s ns (ms.filter fun n => !n.is .space) s' := by
  induction h generalizing s with
  | nil => exact ⟨s, .nil s⟩
  | @cons n m ns ms hn _ ih =>
    have hspace' : ∀ k ∈ ns, k.kind = .space → (∃ l t, k = .leaf l t) ∧ gone k.span.first :=
      fun k hk => hspace k (by simp [hk])
    have hline' : ∀ k ∈ ns, k.kind ≠ .singlelineComment := fun k hk => hline k (by simp [hk])
    by_cases hk : n.kind = .space
    · obtain ⟨⟨l, t, rfl⟩, hgone⟩ := hspace n (by simp) hk
      cases hn
      obtain ⟨s', hrest⟩ := ih (s := .stuck) happart.tail hspace' hline'
        fun k hk' h => absurd h (happart.kind_ne hk k hk')
      rw [hs _ rfl hk, List.filter_cons_of_neg (by simpa [is] using hk)]
      exact ⟨s', .drop hk hgone hrest⟩
    · have hfree : Slack.beyond d n = .free := by
        have hopening : Slack.opening d = .free := if_neg hd
        have hcomment := hline n (by simp)
        unfold Slack.beyond
        split
        · contradiction
        · contradiction
        all_goals first | rfl | exact hopening
      obtain ⟨s', hrest⟩ := ih (s := .free) happart.tail hspace' hline' fun _ _ _ => rfl
      rw [List.filter_cons_of_pos (by simpa [is, hn.kind_eq] using hk)]
      exact ⟨s', (Refills.of_reblocked hn).regapped (.none s) (fun h => absurd rfl h)
        (hfree ▸ hrest)⟩

/-- **Inlining changes the whitespace in the gaps of each block.** -/
theorem walks (hd : d ≠ .sass) (rows : List Lines.Line) :
    Walks d gone rows (Squeezable d gone) Eq inlineBlock where
  refl _ := rfl
  congr h := by rw [h]
  block := by
    intro k cs ms hk hP _ hcs hms
    obtain rfl : ms = cs.map (mapBlock inlineBlock) := by
      rwa [List.forall₂_eq_eq_eq] at hms
    rw [Braces.inlineBlock_branch]
    have hinlinable : isInlinable (.branch k (cs.map (mapBlock inlineBlock))) =
        isInlinable (.branch k cs) :=
      isInlinable_map k fun n _ => kind_mapBlock_inlineBlock n
    cases hdense : isInlinable (.branch k cs) with
    | false =>
      obtain ⟨s, hr⟩ := Reblocked.regapped hcs (.opening d)
      exact ⟨_, s, hr, by rw [hinlinable, hdense]; rfl⟩
    | true =>
      have hself := hP.self
      have hline : ∀ n ∈ cs, n.kind ≠ .singlelineComment := by
        rw [isInlinable_branch, Bool.and_eq_true, List.all_eq_true] at hdense
        exact fun n hn => by simpa using hdense.2 n hn
      have hspace : ∀ n ∈ cs, n.kind = .space → (∃ l t, n = .leaf l t) ∧ gone n.span.first := by
        intro n hn hspace
        refine ⟨?_, hself.gone_space hk hdense n hn hspace⟩
        obtain ⟨t, ht, -⟩ := ((allOf_iff cs).1 hP.children n hn).self.wellFormed.space hspace
        cases n with
        | leaf l t => exact ⟨l, t, rfl⟩
        | branch l cs => cases ht
      obtain ⟨s, hr⟩ := exists_regapped_filter hd (s := .opening d) hcs hself.wellFormed.apart
        hspace hline fun _ _ _ => if_neg hd
      exact ⟨_, s, hr, by rw [hinlinable, hdense]; rfl⟩

/-- What inlining relies on holds in a parsed sheet. -/
theorem squeezable_of_parsed {source : List Char} {tree : Node} {ts : List Token} {ns : List Node}
    (hp : Parsed d source tree ts ns) : AllOf (Squeezable d fun p => p ∈ squeezed tree) ns := by
  have hgone : ∀ b ∈ tree.blocks, isInlinable b = true → ∀ c ∈ b.children, c.kind = .space →
      c.span.first ∈ squeezed tree := by
    intro b hb hinline c hc hspace
    refine List.mem_flatMap.2 ⟨b, List.mem_filter.2 ⟨hb, hinline⟩, ?_⟩
    exact List.mem_map.2 ⟨c, List.mem_filter.2 ⟨hc, by simpa [is] using hspace⟩, rfl⟩
  have hblocks := forall_mem_blocks.1 hgone
  rw [show tree.children = ns by rw [hp.tree_eq]; rfl] at hblocks
  exact AllOf.imp (fun n hn => ⟨hn.1, hn.2⟩) ns (AllOf.and ns hp.wellFormed hblocks)

/-- **An inlined sheet is read back**, at other places, if no slash meets a comment. -/
theorem exists_parse_squeezed {source : List Char} {tree : Node} (hd : d ≠ .sass)
    (h : parseChars d source = .ok tree)
    (hclear : d.hasLineComments = true → ∀ ts, tokens d .origin source = .ok ts →
      ∀ p ∈ slashed ts, p ∉ squeezed tree) :
    ∃ again, parseChars d (reshape tree).chars = .ok again ∧
      again.unplace = (reshape tree).unplace := by
  obtain ⟨ts, ns, hp⟩ := parsed_of_parseChars h
  have hcuts := (tokens_eq_ok.1 hp.tokens_eq).cuts
  obtain ⟨ms, hms, heq⟩ := hp.exists_reblocked (walks hd _) (squeezable_of_parsed hp)
  obtain rfl : ms = ns.map (mapBlock inlineBlock) := by rwa [List.forall₂_eq_eq_eq] at heq
  obtain ⟨again, hagain, hsame⟩ := hp.exists_parse_of_reblocked
    ⟨hcuts, fun hline => hclear hline ts hp.tokens_eq⟩ (fun hsass => absurd hsass hd) hms
  have htree : reshape tree = .branch ⟨.stylesheet, d, spanOf ns⟩
      (ns.map (mapBlock inlineBlock)) := by
    rw [hp.tree_eq, reshape, mapBlocks, mapBlocksOf_eq_map]
    rfl
  refine ⟨again, ?_, ?_⟩
  · rw [htree, Node.chars]
    simpa [branchMarks] using hagain
  · rw [hsame, htree, ofChildren, unplace_branch, unplace_branch]
    rfl

theorem process_of_parseChars {source : List Char} {tree : Node} (hd : d ≠ .sass)
    (h : parseChars d source = .ok tree) : rule.process tree = .ok (reshape tree) := by
  obtain ⟨ts, ns, hp⟩ := parsed_of_parseChars h
  apply process_of_ne
  rw [hp.tree_eq]
  exact hd

/-- Whether inlining takes out whitespace between a slash and a comment, in a dialect where two
slashes start a comment. -/
def collides (d : Dialect) (source : String) (tree : Node) : Bool :=
  d.hasLineComments && match tokens d .origin source.toList with
    | .ok ts => (slashed ts).any (squeezed tree).contains
    | .error _ => false

/-- **Inlining keeps what a sheet says**: the inlined text is read into the inlined tree, unless
whitespace has been taken out between a slash and a comment. -/
theorem sameShape_process (d : Dialect) (hd : d ≠ .sass) (source : String) (tree : Node)
    (h : parse d source = .ok tree) :
    ∃ next, rule.process tree = .ok next ∧ (collides d source tree = false →
      ∃ again, parse d next.render = .ok again ∧ again.sameShape next = true) := by
  refine ⟨reshape tree, process_of_parseChars hd h, fun hcollides => ?_⟩
  obtain ⟨again, hagain, hsame⟩ := exists_parse_squeezed hd h fun hline ts hts p hp hmem => by
    rw [collides, hline, hts, Bool.true_and] at hcollides
    rw [List.any_eq_false] at hcollides
    exact hcollides p hp (by simpa using hmem)
  refine ⟨again, ?_, sameShape_of_unplace hsame⟩
  rw [parse, Node.render, String.toList_ofList]
  exact hagain

/-- A sheet where inlining takes whitespace out before comments and behind a slash. -/
def shortenedSheet : String :=
  "a \x7b // x\n b: c/d; e \x7b f: /* g */ h /* i */ ; \x7d\n\x7d\n@j \x7b k /\n\x7d"

/-- A sheet where a slash meets a comment. -/
def slashSheet : String := "a \x7b b: c/ /* x */ \x7d"

theorem sameShape_process_shortened :
    (∃ tree next again, parse .scss shortenedSheet = .ok tree ∧ rule.process tree = .ok next ∧
      next.render ≠ shortenedSheet ∧ parse .scss next.render = .ok again ∧
      again.sameShape next = true) ∧
    ∃ tree next, parse .scss slashSheet = .ok tree ∧ rule.process tree = .ok next ∧
      next.render = "a \x7bb: c//* x */\x7d" ∧ (parse .scss next.render).isOk = false := by
  constructor
  · have hok : (parse .scss shortenedSheet).toOption.map (fun tree =>
        !collides .scss shortenedSheet tree && (reshape tree).render != shortenedSheet) =
          some true := by
      decide +kernel
    cases h : parse .scss shortenedSheet with
    | error e => rw [h] at hok; cases hok
    | ok tree =>
      rw [h] at hok
      simp only [Except.toOption, Option.map_some, Option.some.injEq, Bool.and_eq_true,
        Bool.not_eq_true', bne_iff_ne] at hok
      obtain ⟨next, hnext, hkept⟩ := sameShape_process .scss (by decide) _ tree h
      obtain ⟨again, hagain, hsame⟩ := hkept hok.1
      have hreshape := (process_of_parseChars (by decide) h).symm.trans hnext
      cases hreshape
      exact ⟨tree, _, again, rfl, hnext, hok.2, hagain, hsame⟩
  · have hbad : (parse .scss slashSheet).toOption.map (fun tree => (reshape tree).render) =
        some "a \x7bb: c//* x */\x7d" := by
      decide +kernel
    have herror : (parse .scss "a \x7bb: c//* x */\x7d").isOk = false := by decide +kernel
    cases h : parse .scss slashSheet with
    | error e => rw [h] at hbad; cases hbad
    | ok tree =>
      rw [h] at hbad
      have hrender : (reshape tree).render = _ := Option.some.inj hbad
      exact ⟨tree, _, rfl, process_of_parseChars (by decide) h, hrender, by rw [hrender, herror]⟩

end TidySheet.Inlining
