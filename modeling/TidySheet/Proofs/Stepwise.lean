import TidySheet.Proofs.InlinedShapes
import TidySheet.Proofs.SpreadSheets
import TidySheet.Proofs.VendorShapes
import TidySheet.Tidier

/-!
# Rules one at a time

A tidier reads a text once and hands one tree from rule to rule. In that tree whitespace is missing,
stands beside other whitespace or has no place, while a rule that is run alone sees a fresh tree.
The texts that come out are the same.

* `Tidier.exists_of_runRules_cons` — one step of a run;
* `Tidier.stepwise` — rules one at a time, each on the text that the one before it has left;
* `Abreast` — a tree on which rules do what they do on the texts in between; `Abreast.run`;
* `Abreast.inlining`, `Abreast.vendor`, `Abreast.colons` — one rule on both;
* `Registry.exists_runOrder` — the order in which rules run;
* `Tidier.tidy_eq_stepwise` — a tidier does what its rules do one at a time.
-/

set_option autoImplicit false

namespace TidySheet

open Node

/-! ## Runs -/

theorem label_of_parseChars {d : Dialect} {source : List Char} {tree : Node}
    (h : parseChars d source = .ok tree) : tree.kind = .stylesheet ∧ tree.dialect = d := by
  obtain ⟨ts, ns, hp⟩ := parsed_of_parseChars h
  rw [hp.tree_eq]
  exact ⟨rfl, rfl⟩

namespace Tidier

/-- Rules one at a time: each is run alone, on the text that the one before it has left. -/
def stepwise (d : Dialect) (rules : List Rule) (source : String) : Except RuleError String :=
  rules.foldlM (fun text r => do
    let tidied ← (Tidier.mk [r]).tidy d text
    return tidied.output) source

/-- Rules that are not for the dialect are passed over. -/
theorem runRules_filter (d : Dialect) (rules : List Rule) (tree : Node) :
    runRules d (rules.filter (·.supports d)) tree = runRules d rules tree := by
  induction rules generalizing tree with
  | nil => rfl
  | cons r rules ih =>
    by_cases hr : r.supports d = true
    · rw [List.filter_cons, if_pos hr, runRules, runRules, if_pos hr, if_pos hr]
      cases r.process tree with
      | error e => rfl
      | ok next =>
        dsimp only
        rw [ih]
    · rw [List.filter_cons, if_neg hr, runRules, if_neg hr, ih]

variable {d : Dialect} {source : String} {tree next last : Node} {r : Rule} {rules : List Rule}
  {names : List String}

theorem eq_of_runRules_nil (h : runRules d [] tree = (last, .ok names)) :
    last = tree ∧ names = [] := by
  obtain ⟨rfl, hnames⟩ := Prod.mk.inj h
  exact ⟨rfl, (Except.ok.inj hnames).symm⟩

/-- **One step of a run.** -/
theorem exists_of_runRules_cons (hr : r.supports d = true)
    (h : runRules d (r :: rules) tree = (last, .ok names)) :
    ∃ next rest, r.process tree = .ok next ∧ runRules d rules next = (last, .ok rest) ∧
      names = if next.chars = tree.chars then rest else r.name :: rest := by
  rw [runRules, if_pos hr] at h
  split at h
  · cases h
  rename_i next hnext
  split at h
  · cases h
  rename_i last' rest hrest
  obtain ⟨rfl, hnames⟩ := Prod.mk.inj h
  exact ⟨next, rest, hnext, hrest, (Except.ok.inj hnames).symm⟩

theorem tidy_of_runRules {t : Tidier} (h : parse d source = .ok tree)
    (hrun : runRules d t.rules tree = (last, .ok names)) :
    t.tidy d source = .ok ⟨last.render, names⟩ := by
  rw [tidy, h]
  dsimp only
  rw [processTree, (label_of_parseChars h).2, hrun]

theorem exists_run_of_tidy {t : Tidier} {tidied : Tidied}
    (h : t.tidy d source = .ok tidied) :
    ∃ tree last, parse d source = .ok tree ∧
      runRules d t.rules tree = (last, .ok tidied.changedBy) ∧ tidied.output = last.render := by
  unfold tidy at h
  split at h
  · cases h
  rename_i tree htree
  split at h
  · cases h
  rename_i last names hrun
  obtain rfl := Except.ok.inj h
  rw [processTree, (label_of_parseChars htree).2] at hrun
  exact ⟨tree, last, htree, hrun, rfl⟩

theorem stepwise_cons (h : parse d source = .ok tree) (hr : r.supports d = true)
    (hn : r.process tree = .ok next) :
    stepwise d (r :: rules) source = stepwise d rules next.render := by
  obtain ⟨names, hrun⟩ : ∃ names, runRules d [r] tree = (next, .ok names) := by
    rw [runRules, if_pos hr, hn]
    exact ⟨_, rfl⟩
  have htidy : (Tidier.mk [r]).tidy d source = .ok ⟨next.render, names⟩ := tidy_of_runRules h hrun
  rw [stepwise, List.foldlM_cons, htidy]
  rfl

end Tidier

/-- **Rules do on the tree `a` what they do one at a time**, the first of them on the tree `b` that
a text is read into. Each text in between can be read. -/
inductive Abreast (d : Dialect) : List Rule → Node → Node → Prop
  | nil {a b : Node} (h : a.chars = b.chars) : Abreast d [] a b
  | cons {r : Rule} {rs : List Rule} {a b a' b' c : Node} (hr : r.supports d = true)
      (ha : r.process a = .ok a') (hb : r.process b = .ok b')
      (hc : parseChars d b'.chars = .ok c) (h : Abreast d rs a' c) : Abreast d (r :: rs) a b

namespace Abreast

variable {d : Dialect} {rs : List Rule} {a b : Node}

theorem run (h : Abreast d rs a b) {source : String} (hb : parse d source = .ok b) :
    ∃ last names, Tidier.runRules d rs a = (last, .ok names) ∧
      Tidier.stepwise d rs source = .ok last.render := by
  induction h generalizing source with
  | @nil a b h =>
    refine ⟨a, [], rfl, ?_⟩
    have htext : source = a.render := by
      rw [render, h, chars_of_parseChars hb, String.ofList_toList]
    rw [htext]
    rfl
  | @cons r rs a b a' b' c hr ha hb' hc _ ih =>
    have hfresh : parse d b'.render = .ok c := by
      rw [parse, render, String.toList_ofList]
      exact hc
    obtain ⟨last, names, hrun, hstep⟩ := ih hfresh
    rw [Tidier.stepwise_cons hb hr hb', hstep, Tidier.runRules, if_pos hr, ha]
    dsimp only
    rw [hrun]
    exact ⟨last, _, rfl, rfl⟩

end Abreast

/-! ## Rules -/

theorem Node.label_mapBlocks (f : Node → Node) (n : Node) : (n.mapBlocks f).label = n.label := by
  cases n <;> rfl

/-- What is read again depends on the text alone. -/
theorem Colons.process_congr {a b : Node} (hk : a.kind = b.kind) (hd : a.dialect = b.dialect)
    (hc : a.chars = b.chars) : rule.process a = rule.process b := by
  have hlabel : ∀ s, { a.label with span := s } = { b.label with span := s } := by
    intro s
    rw [Label.mk.injEq]
    exact ⟨hk, hd, rfl⟩
  have hreparse : reparse name a = reparse name b := by
    unfold reparse
    simp only [hd, hc, hlabel]
  rw [Rule.process, Rule.process, hd]
  show (if _ then Colons.reshape a else _) = (if _ then Colons.reshape b else _)
  rw [Colons.reshape, Colons.reshape, hreparse]

namespace Abreast

variable {d : Dialect} {rs : List Rule} {a b : Node} {source : List Char}

/-- **Inlining** reads its own text back, at other places. -/
theorem inlining (hb : parseChars .css source = .ok b) (ha : a.dialect = .css)
    (h : ∀ c, parseChars .css (Inlining.reshape b).chars = .ok c →
      c.unplace = (Inlining.reshape b).unplace → Abreast .css rs (Inlining.reshape a) c) :
    Abreast .css (Inlining.rule :: rs) a b := by
  obtain ⟨c, hc, hsame⟩ := Inlining.exists_parse_squeezed (by decide) hb fun h => by cases h
  have hprocess : ∀ n : Node, n.dialect = .css →
      Inlining.rule.process n = .ok (Inlining.reshape n) := by
    intro n hn
    rw [Rule.process, hn]
    rfl
  exact .cons rfl (hprocess a ha) (hprocess b (label_of_parseChars hb).2) hc (h c hc hsame)

/-- **Vendor alignment** makes the same text of trees that differ in their places alone. -/
theorem vendor (hb : parseChars d source = .ok b) (hab : a.unplace = b.unplace)
    (h : ∀ c, parseChars d (VendorAlign.reshape b).chars = .ok c →
      c.chars = (VendorAlign.reshape a).chars → Abreast d rs (VendorAlign.reshape a) c) :
    Abreast d (VendorAlign.rule :: rs) a b := by
  obtain ⟨c, hc, -⟩ := VendorAlign.exists_parse_reshape hb
  have hchars : (VendorAlign.reshape b).chars = (VendorAlign.reshape a).chars := by
    rw [← chars_unplace, VendorAlign.reshape_unplace, ← hab, ← VendorAlign.reshape_unplace,
      chars_unplace]
  refine .cons (by cases d <;> rfl) (VendorAlign.process_eq_reshape a)
    (VendorAlign.process_eq_reshape b) hc (h c hc ?_)
  rw [chars_of_parseChars hc, hchars]

/-- **Colon alignment** reads the text of its tree again, and so sees what it sees alone. -/
theorem colons (hb : parseChars d source = .ok b) (hk : a.kind = .stylesheet) (hd : a.dialect = d)
    (hab : a.chars = b.chars)
    (h : ∀ c, parseChars d (b.mapBlocks Colons.alignBlock).chars = .ok c →
      Abreast d rs (b.mapBlocks Colons.alignBlock) c) : Abreast d (Colons.rule :: rs) a b := by
  obtain ⟨ts, ns, hp⟩ := parsed_of_parseChars hb
  obtain ⟨c, -, -, hc, -⟩ := Colons.exists_parse_aligned hp
  have hprocess := Colons.process_of_parseChars hb
  obtain ⟨hkb, hdb⟩ := label_of_parseChars hb
  have hsupports : Colons.rule.supports d = true := by cases d <;> rfl
  refine .cons hsupports ?_ hprocess hc (h c hc)
  rw [Colons.process_congr (hk.trans hkb.symm) (hd.trans hdb.symm) hab, hprocess]

end Abreast

/-! ## Orders -/

/-- The rules that are on, in the order in which they run. -/
def runOrder (colons inlining vendor : Bool) : List Rule :=
  let before := if inlining then [Inlining.rule] else []
  let behind := if colons then [Colons.rule] else []
  if vendor then before ++ VendorAlign.rule :: behind else behind ++ before

theorem arrange_nil : arrange [] = .ok [] := by
  rw [arrange]
  rfl

theorem arrange_of_takeFirst {rs rest : List Rule} {r : Rule}
    (h : takeFirst? (fun r => !isBlocked rs r) rs = some (r, rest)) :
    arrange rs = (arrange rest >>= fun placed => pure (r :: placed)) := by
  rw [arrange]
  split
  · rename_i s others hs
    rw [h] at hs
    cases hs
    rfl
  · rename_i hs
    rw [h] at hs
    cases hs

theorem arrange_of_none {rs : List Rule}
    (h : takeFirst? (fun r => !isBlocked rs r) rs = none) :
    arrange rs = if rs.isEmpty then .ok [] else .error (.cycle (rs.map Rule.name)) := by
  rw [arrange]
  split
  · rename_i hs
    rw [h] at hs
    cases hs
  · rfl

theorem arrange_cons {rs rest placed : List Rule} {r : Rule}
    (h : takeFirst? (fun r => !isBlocked rs r) rs = some (r, rest))
    (hrest : arrange rest = .ok placed) : arrange rs = .ok (r :: placed) := by
  rw [arrange_of_takeFirst h, hrest]
  rfl

/-- Inlining comes before vendor alignment, and colon alignment behind it. -/
theorem arrange_filter (on : Rule → Bool) :
    arrange ([Colons.rule, Inlining.rule, VendorAlign.rule].filter on) =
      .ok (runOrder (on Colons.rule) (on Inlining.rule) (on VendorAlign.rule)) := by
  simp only [List.filter_cons, List.filter_nil]
  match on Colons.rule, on Inlining.rule, on VendorAlign.rule with
  | false, false, false => exact arrange_nil
  | true, false, false => exact arrange_cons rfl arrange_nil
  | false, true, false => exact arrange_cons rfl arrange_nil
  | false, false, true => exact arrange_cons rfl arrange_nil
  | true, true, false => exact arrange_cons rfl (arrange_cons rfl arrange_nil)
  | true, false, true => exact arrange_cons rfl (arrange_cons rfl arrange_nil)
  | false, true, true => exact arrange_cons rfl (arrange_cons rfl arrange_nil)
  | true, true, true => exact arrange_cons rfl (arrange_cons rfl (arrange_cons rfl arrange_nil))

/-- **The order in which rules run.** -/
theorem Registry.runOrder_of_ordered {names : List String} {rules : List Rule}
    (h : builtIn.ordered names = .ok rules) :
    ∃ colons inlining vendor, rules = runOrder colons inlining vendor := by
  unfold ordered at h
  split at h
  · cases h
  have hrules : builtIn.rules = [Colons.rule, Inlining.rule, VendorAlign.rule] := rfl
  rw [hrules, arrange_filter] at h
  exact ⟨_, _, _, (Except.ok.inj h).symm⟩

theorem Registry.exists_runOrder {settings : Settings} {rules : List Rule}
    (h : builtIn.configure settings = .ok rules) :
    ∃ colons inlining vendor, rules = runOrder colons inlining vendor := by
  obtain ⟨names, -, h⟩ := bind_eq_ok.1 h
  exact runOrder_of_ordered h

/-! ## Tidying -/

namespace Abreast

variable {d : Dialect} {source : List Char} {a b tree : Node}

/-- Vendor alignment first, and colon alignment behind it. -/
theorem vendor_first (hb : parseChars d source = .ok b) (hab : a.unplace = b.unplace) (on : Bool) :
    Abreast d (VendorAlign.rule :: if on then [Colons.rule] else []) a b := by
  obtain ⟨hk, hdialect⟩ := label_of_parseChars hb
  rw [← kind_unplace, ← hab, kind_unplace] at hk
  rw [← dialect_unplace, ← hab, dialect_unplace] at hdialect
  refine .vendor hb hab fun c hc hchars => ?_
  cases on with
  | false => exact .nil hchars.symm
  | true =>
    have hlabel : (VendorAlign.reshape a).label = a.label := label_mapBlocks _ a
    refine .colons hc ?_ ?_ hchars.symm fun e he => .nil (chars_of_parseChars he).symm
    · rw [Node.kind, hlabel]
      exact hk
    · rw [dialect, hlabel]
      exact hdialect

/-- Without vendor alignment inlining comes last. -/
theorem colons_first (h : parseChars .css source = .ok tree) :
    Abreast .css [Colons.rule, Inlining.rule] tree tree := by
  obtain ⟨hk, hd⟩ := label_of_parseChars h
  obtain ⟨again, hagain, hinlined⟩ := Inlining.exists_parse_aligned h
  refine .colons h hk hd rfl fun c hc => ?_
  rw [hagain] at hc
  cases hc
  refine .inlining hagain ?_ fun e _ hsame => .nil ?_
  · rw [dialect, label_mapBlocks]
    exact hd
  · rw [← chars_unplace e, hsame, chars_unplace, hinlined]

/-- **The rules of a tidier do on one tree what they do one at a time.** -/
theorem of_runOrder (h : parseChars d source = .ok tree) (colons inlining vendor : Bool)
    (hi : inlining = true → d = .css) :
    Abreast d (runOrder colons inlining vendor) tree tree := by
  obtain ⟨hk, hdialect⟩ := label_of_parseChars h
  cases inlining with
  | false =>
    cases vendor with
    | true => exact vendor_first h rfl colons
    | false =>
      cases colons with
      | false => exact .nil rfl
      | true => exact .colons h hk hdialect rfl fun c hc => .nil (chars_of_parseChars hc).symm
  | true =>
    obtain rfl := hi rfl
    cases vendor with
    | true => exact .inlining h hdialect fun c hc hsame => vendor_first hc hsame.symm colons
    | false =>
      cases colons with
      | false => exact .inlining h hdialect fun c hc _ => .nil (chars_of_parseChars hc).symm
      | true => exact colons_first h

end Abreast

/-- The rules that are for a dialect. -/
theorem filter_runOrder_supports (d : Dialect) (colons inlining vendor : Bool) :
    (runOrder colons inlining vendor).filter (·.supports d) =
      runOrder colons (inlining && d != .sass) vendor := by
  cases d <;> cases colons <;> cases inlining <;> cases vendor <;> rfl

theorem filter_runOrder {d : Dialect} (hd : d = .css ∨ d = .sass) (colons inlining vendor : Bool) :
    (runOrder colons inlining vendor).filter (·.supports d) =
      runOrder colons (inlining && d == .css) vendor := by
  rw [filter_runOrder_supports]
  rcases hd with rfl | rfl <;> rfl

/-- **A tidier does what its rules do one at a time**: on each css or sass text that can be read it
succeeds, and what it writes is what its rules write when each is run alone on the text that the one
before it has left. -/
theorem Tidier.tidy_eq_stepwise (settings : Settings) (t : Tidier)
    (ht : Tidier.ofSettings settings = .ok t) (d : Dialect) (hd : d = .css ∨ d = .sass)
    (source : String) (tree : Node) (h : parse d source = .ok tree) :
    ∃ tidied, t.tidy d source = .ok tidied ∧
      stepwise d (t.rules.filter (·.supports d)) source = .ok tidied.output := by
  obtain ⟨rules, hrules, ht⟩ := bind_eq_ok.1 ht
  cases ht
  obtain ⟨colons, inlining, vendor, rfl⟩ := Registry.exists_runOrder hrules
  have habreast := Abreast.of_runOrder h colons (inlining && d == .css) vendor (by simp)
  rw [← filter_runOrder hd] at habreast
  obtain ⟨last, names, hrun, hstep⟩ := habreast.run h
  rw [runRules_filter] at hrun
  exact ⟨_, tidy_of_runRules h hrun, hstep⟩

/-- A sheet that all three rules change. -/
def raggedSheet : String :=
  "a \x7b\n b:c\n\x7d\nd\x7b\n -moz-e:f;\n e:f;\n ggg : h\n\x7d"

theorem Tidier.tidy_eq_stepwise_ragged : ∃ t tree tidied,
    ofSettings (.enabling Registry.builtIn.names) = .ok t ∧ parse .css raggedSheet = .ok tree ∧
      t.tidy .css raggedSheet = .ok tidied ∧ tidied.changedBy.length = 3 ∧
      stepwise .css (t.rules.filter (·.supports .css)) raggedSheet = .ok tidied.output := by
  have hrun : ((ofSettings (.enabling Registry.builtIn.names)).toOption.bind fun t =>
      (t.tidy .css raggedSheet).toOption).map (fun tidied => tidied.changedBy.length) = some 3 := by
    decide +kernel
  cases ht : ofSettings (.enabling Registry.builtIn.names) with
  | error e => rw [ht] at hrun; cases hrun
  | ok t =>
    rw [ht] at hrun
    cases hp : parse .css raggedSheet with
    | error e =>
      have herror : t.tidy .css raggedSheet = .error (.parse e) := by rw [tidy, hp]
      simp [Except.toOption, herror] at hrun
    | ok tree =>
      obtain ⟨tidied, htidy, hstep⟩ := tidy_eq_stepwise _ t ht .css (.inl rfl) raggedSheet tree hp
      simp only [Except.toOption, htidy, Option.bind_some, Option.map_some,
        Option.some.injEq] at hrun
      exact ⟨t, tree, tidied, rfl, rfl, htidy, hrun, hstep⟩

end TidySheet
