import TidySheet.Proofs.ColonMoves
import TidySheet.Proofs.Realignment

/-!
# What a block holds matters to this block alone

Vendor alignment and inlining read off the children of a block what kind they are, their text if
they are leaves, and the parts of declarations. No block stands in a declaration, so what an inner
block holds is not seen from around it: if the children of one block of a parsed tree are exchanged,
the result changes inside this block and nowhere else.

* `Node.Outer` — an edit of blocks that does not look into other branches than declarations;
* `outer_alignBlock`, `outer_inlineBlock` — the two rules edit blocks so;
* `Outer.exists_path` — one step down a path is one step down in the result;
* `confined_process` — exchanging the children of a block.
-/

set_option autoImplicit false

namespace TidySheet

namespace Node

/-- An edit of blocks that keeps their labels and passes over branches among their children, but for
declarations: the same is put around such a branch, whatever it holds. -/
structure Outer (f : Node → Node) : Prop where
  branch : ∀ l cs, ∃ ds, f (.branch l cs) = .branch l ds
  around : ∀ (l m : Label) (before behind : List Node), m.kind.isLeaf = false →
    m.kind ≠ .declaration → ∃ before' behind', ∀ cs,
      f (.branch l (before ++ .branch m cs :: behind)) =
        .branch l (before' ++ .branch m cs :: behind')

/-! ## Paths -/

theorem at?_cons_append {i : Nat} {path : List Nat} {l : Label} {before behind : List Node}
    {c : Node} (hi : before.length = i) :
    (Node.branch l (before ++ c :: behind)).at? (i :: path) = c.at? path := by
  simp [at?, children, ← hi]

theorem modifyAt?_cons_append {g : Node → Node} {i : Nat} {path : List Nat} {l : Label}
    {before behind : List Node} {c : Node} (hi : before.length = i) :
    (Node.branch l (before ++ c :: behind)).modifyAt? g (i :: path) =
      (c.modifyAt? g path).map fun c => .branch l (before ++ c :: behind) := by
  simp [modifyAt?, children, withChildren, ← hi]

/-- A path that leads somewhere leads through a child. -/
theorem exists_child_of_at? {i : Nat} {path : List Nat} {n m : Node}
    (h : n.at? (i :: path) = some m) :
    ∃ l before c behind, n = .branch l (before ++ c :: behind) ∧ before.length = i ∧
      c.at? path = some m := by
  obtain ⟨c, hc, hm⟩ := Option.bind_eq_some_iff.1 h
  cases n with
  | leaf l t => cases hc
  | branch l cs =>
    have hc : cs[i]? = some c := hc
    obtain ⟨hi, rfl⟩ := List.getElem?_eq_some_iff.1 hc
    refine ⟨l, cs.take i, cs[i], cs.drop (i + 1), ?_, List.length_take_of_le (Nat.le_of_lt hi), hm⟩
    rw [← List.drop_eq_getElem_cons hi, List.take_append_drop]

theorem all_at? {P : Node → Prop} : ∀ (path : List Nat) {n m : Node}, n.All P →
    n.at? path = some m → m.All P
  | [], _, _, h, hm => Option.some.inj hm ▸ h
  | i :: path, _, _, h, hm => by
    obtain ⟨l, before, c, behind, rfl, -, hm⟩ := exists_child_of_at? hm
    exact all_at? path ((allOf_iff _).1 h.children c (List.mem_append_right _ List.mem_cons_self)) hm

/-- What is changed somewhere in a branch by other children is a branch with the label it had. -/
theorem exists_modifyAt? (cs : List Node) : ∀ (path : List Nat) {l : Label} {ds : List Node}
    {n : Node}, (Node.branch l ds).modifyAt? (withChildren cs) path = some n →
      ∃ es, n = .branch l es
  | [], _, _, _, h => ⟨cs, (Option.some.inj h).symm⟩
  | _ :: _, _, _, _, h => by
    obtain ⟨c, -, hc⟩ := Option.bind_eq_some_iff.1 h
    obtain ⟨c', -, hn⟩ := Option.map_eq_some_iff.1 hc
    exact ⟨_, hn.symm⟩

/-! ## Walks over blocks -/

namespace Outer

variable {f : Node → Node} {d : Dialect}

theorem exists_mapBlock (hf : Outer f) (l : Label) (cs : List Node) :
    ∃ ds, (Node.branch l cs).mapBlock f = .branch l ds := by
  rw [mapBlock]
  split
  · exact hf.branch l _
  · exact ⟨_, rfl⟩

/-- The children of a branch around one of them, after a walk: they are the same whatever this one
becomes in the walk. -/
theorem exists_around (hf : Outer f) (l m : Label) (before behind : List Node)
    (hleaf : m.kind.isLeaf = false) (hdecl : m.kind ≠ .declaration) :
    ∃ before' behind', ∀ cs ds, (Node.branch m cs).mapBlock f = .branch m ds →
      (Node.branch l (before ++ .branch m cs :: behind)).mapBlock f =
        .branch l (before' ++ .branch m ds :: behind') := by
  by_cases hl : l.kind = .block
  · obtain ⟨before', behind', h⟩ :=
      hf.around l m (before.map (mapBlock f)) (behind.map (mapBlock f)) hleaf hdecl
    refine ⟨before', behind', fun cs ds hds => ?_⟩
    rw [mapBlock, if_pos hl, mapBlocksOf_eq_map, List.map_append, List.map_cons, hds, h]
  · refine ⟨before.map (mapBlock f), behind.map (mapBlock f), fun cs ds hds => ?_⟩
    rw [mapBlock, if_neg hl, mapBlocksOf_eq_map, List.map_append, List.map_cons, hds]

/-- **Down a path to a block.** After a walk, another path leads to what became of the block, and
what becomes of it with other children is put in at the end of the same path. -/
theorem exists_path (hf : Outer f) : ∀ (path : List Nat) {n block : Node}, n.All (Sound d) →
    n.at? path = some block → block.kind = .block →
    ∃ path', path'.length = path.length ∧ (n.mapBlock f).at? path' = some (block.mapBlock f) ∧
      ∀ cs n', n.modifyAt? (withChildren cs) path = some n' →
        (n.mapBlock f).modifyAt?
          (withChildren ((block.withChildren cs).mapBlock f).children) path' =
            some (n'.mapBlock f)
  | [], n, block, hn, hb, hk => by
    obtain rfl := Option.some.inj hb
    obtain ⟨l, ds, rfl⟩ := hn.self.kindFits.eq_branch (by rw [hk]; rfl)
    refine ⟨[], rfl, rfl, fun cs n' hn' => ?_⟩
    obtain rfl := Option.some.inj hn'
    obtain ⟨es, hes⟩ := hf.exists_mapBlock l ds
    obtain ⟨es', hes'⟩ := hf.exists_mapBlock l cs
    simp only [withChildren, hes, hes', modifyAt?, children]
  | i :: path, n, block, hn, hb, hk => by
    obtain ⟨l, before, c, behind, rfl, hi, hc⟩ := exists_child_of_at? hb
    have hsound : c.All (Sound d) :=
      (allOf_iff _).1 hn.children c (List.mem_append_right _ List.mem_cons_self)
    have hblock := all_at? path hsound hc
    -- no path leads to a block from a leaf or a declaration
    have hdecl : c.kind ≠ .declaration := fun h =>
      (all_at? path ((formed_of_sound hsound).no_block h) hc).self hk
    obtain ⟨m, xs, rfl⟩ : ∃ m xs, c = .branch m xs := by
      cases c with
      | branch m xs => exact ⟨m, xs, rfl⟩
      | leaf m t =>
        cases path with
        | nil =>
          obtain rfl := Option.some.inj hc
          exact hsound.self.kindFits.eq_branch (by rw [hk]; rfl)
        | cons j path => cases hc
    obtain ⟨path', hlength, hat, hmodify⟩ := exists_path hf path hsound hc hk
    obtain ⟨before', behind', haround⟩ :=
      hf.exists_around l m before behind hsound.self.kindFits hdecl
    obtain ⟨ys, hys⟩ := hf.exists_mapBlock m xs
    rw [hys] at hat hmodify
    rw [haround xs ys hys]
    refine ⟨before'.length :: path', by simp [hlength], by rw [at?_cons_append rfl, hat], ?_⟩
    intro cs n' hn'
    rw [modifyAt?_cons_append hi] at hn'
    obtain ⟨c', hc', rfl⟩ := Option.map_eq_some_iff.1 hn'
    obtain ⟨zs, rfl⟩ := exists_modifyAt? cs path hc'
    obtain ⟨ws, hws⟩ := hf.exists_mapBlock m zs
    rw [modifyAt?_cons_append rfl, hmodify cs _ hc', hws, Option.map_some, haround zs ws hws]

end Outer

end Node

/-! ## Inlining -/

namespace Inlining

open Node Braces

/-- Inlining looks at the kinds of nodes alone. -/
theorem isInlinable_congr (l : Label) {cs ds : List Node} (h : cs.map Node.kind = ds.map Node.kind) :
    isInlinable (.branch l cs) = isInlinable (.branch l ds) := by
  have hstatements : ∀ ns : List Node, statements ns =
      ((ns.map Node.kind).filter fun k => k == .declaration || k == .ruleset).length := by
    intro ns
    rw [statements, List.filter_map, List.length_map]
    rfl
  have hcomments : ∀ ns : List Node, (ns.all fun n => n.kind != .singlelineComment) =
      (ns.map Node.kind).all fun k => k != .singlelineComment := by
    intro ns
    rw [List.all_map]
    rfl
  rw [isInlinable_branch, isInlinable_branch, hstatements, hstatements, hcomments, hcomments, h]

theorem outer_inlineBlock : Outer inlineBlock where
  branch l cs := ⟨_, inlineBlock_branch l cs⟩
  around l m before behind hleaf _ := by
    have hspace : m.kind ≠ .space := by
      intro h
      rw [h] at hleaf
      cases hleaf
    let dense := isInlinable (.branch l (before ++ .branch m [] :: behind))
    refine ⟨squeeze dense before, squeeze dense behind, fun cs => ?_⟩
    have hdense : isInlinable (.branch l (before ++ .branch m cs :: behind)) = dense :=
      isInlinable_congr l (by simp [Node.kind, Node.label])
    rw [inlineBlock_branch, hdense, squeeze_append, squeeze_cons (n := .branch m cs) hspace]

end Inlining

/-! ## Vendor alignment -/

namespace VendorBlock

open Node

variable {m : Label} {before behind : List Node}

/-- Branches have no width. -/
theorem measureBack_append_branch (ms ns : List Node) (m : Label) (cs : List Node) :
    Indent.measureBack (ms ++ .branch m cs :: ns) = Indent.measureBack (ms ++ ns) := by
  induction ms with
  | nil => rw [List.nil_append, Indent.measureBack, List.nil_append]
  | cons n ms ih =>
    cases n with
    | leaf l t => simp only [List.cons_append, Indent.measureBack, ih]
    | branch l ds => simp only [List.cons_append, Indent.measureBack, ih]

/-- A branch among the siblings before a list changes none of its properties. -/
theorem propertiesFrom_append_branch (ms ns bs : List Node) (m : Label) (cs : List Node) :
    propertiesFrom (ms ++ .branch m cs :: ns) bs = propertiesFrom (ms ++ ns) bs := by
  induction bs generalizing ms with
  | nil => rfl
  | cons n bs ih =>
    rw [propertiesFrom_cons, propertiesFrom_cons, propertyOccurrence?, propertyOccurrence?,
      measureBack_append_branch, leadPast, leadPast]
    split
    · rfl
    · exact congrArg _ (ih (n :: ms))

theorem oneLineFrom_append_branch (ms ns bs : List Node) (m : Label) (cs : List Node) :
    oneLineFrom (ms ++ .branch m cs :: ns) bs = oneLineFrom (ms ++ ns) bs := by
  induction bs generalizing ms with
  | nil => rfl
  | cons n bs ih =>
    have hbreak : (ms ++ .branch m cs :: ns).any hasBreak = (ms ++ ns).any hasBreak := by
      simp [hasBreak]
    rw [oneLineFrom_cons, oneLineFrom_cons, hbreak, leadPast, leadPast]
    split
    · rfl
    · rw [← List.cons_append, ih (n :: ms), List.cons_append]

variable (hleaf : m.kind.isLeaf = false) (hdecl : m.kind ≠ .declaration)
include hleaf

theorem leadPast_branch (ms cs : List Node) :
    leadPast ms (.branch m cs) = .branch m cs :: ms := by
  apply VendorAlign.leadPast_of_kind_ne
  intro (h : m.kind = .declarationDelimiter)
  rw [h] at hleaf
  cases hleaf

theorem oneLineFrom_around (lead cs ds : List Node) :
    oneLineFrom lead (before ++ .branch m cs :: behind) =
      oneLineFrom lead (before ++ .branch m ds :: behind) := by
  induction before generalizing lead with
  | nil =>
    rw [List.nil_append, List.nil_append, oneLineFrom_cons, oneLineFrom_cons,
      leadPast_branch hleaf, leadPast_branch hleaf]
    exact congrArg _ ((oneLineFrom_append_branch [] lead behind m cs).trans
      (oneLineFrom_append_branch [] lead behind m ds).symm)
  | cons n before ih =>
    rw [List.cons_append, List.cons_append, oneLineFrom_cons, oneLineFrom_cons, ih]

include hdecl

/-- The properties of a block, around a branch among its children. -/
theorem properties_around (cs : List Node) :
    properties (before ++ .branch m cs :: behind) =
      propertiesFrom [] before ++ none :: propertiesFrom (before.foldl leadPast []) behind := by
  rw [properties_eq, propertiesFrom_append, propertiesFrom_cons,
    propertyOccurrence?_of_kind_ne (n := .branch m cs) hdecl, leadPast_branch hleaf]
  exact congrArg (_ ++ none :: ·) (propertiesFrom_append_branch [] _ behind m cs)

theorem occurrences_around (cs ds : List Node) :
    occurrences (before ++ .branch m cs :: behind) =
      occurrences (before ++ .branch m ds :: behind) := by
  have hvalue : ∀ cs, valueOccurrence? (.branch m cs) = none := fun cs =>
    VendorAlign.valueOccurrence?_of_kind_ne hdecl
  rw [occurrences, occurrences, properties_around hleaf hdecl, properties_around hleaf hdecl,
    values, values, List.map_append, List.map_append, List.map_cons, List.map_cons, hvalue, hvalue]

theorem isOneLine_around (cs ds : List Node) :
    isOneLine (before ++ .branch m cs :: behind) =
      isOneLine (before ++ .branch m ds :: behind) := by
  have hvalue : ∀ cs, isOneLineValue (.branch m cs) = true := by
    intro cs
    have hk : (Node.branch m cs).kind ≠ .declaration := hdecl
    rw [isOneLineValue, is_eq_false.2 hk]
    rfl
  rw [isOneLine_eq, isOneLine_eq, oneLineFrom_around hleaf [] cs ds, List.all_append,
    List.all_append, List.all_cons, List.all_cons, hvalue, hvalue]

end VendorBlock

namespace VendorAlign

open Node VendorBlock

variable {os : List Occurrence} {d k : Dialect} {m : Label}

/-- The padding around a branch that has no property. -/
theorem exists_padProperties (hleaf : m.kind.isLeaf = false)
    (ps qs : List (Node × Option Occurrence)) :
    ∃ before' behind', ∀ cs, padProperties os k (ps ++ (.branch m cs, none) :: qs) =
      before' ++ .branch m cs :: behind' := by
  induction ps with
  | nil =>
    cases qs with
    | nil => exact ⟨[], [], fun cs => rfl⟩
    | cons q qs =>
      obtain ⟨n, o⟩ := q
      cases o with
      | none => exact ⟨[], padProperties os k ((n, none) :: qs), fun cs => rfl⟩
      | some o =>
        refine ⟨[], gapNodes os o k ++ padProperties os k ((n, some o) :: qs), fun cs => ?_⟩
        have hne : ∀ kind : Kind, kind.isLeaf = true → ¬(Node.branch m cs).is kind = true := by
          intro kind hkind h
          have h : m.kind = kind := is_eq_true.1 h
          rw [h, hkind] at hleaf
          cases hleaf
        rw [List.nil_append, padProperties, padSibling_eq, if_neg (hne .space rfl),
          if_neg (hne .multilineComment rfl), List.cons_append, List.nil_append]
  | cons p ps ih =>
    obtain ⟨before', behind', h⟩ := ih
    obtain ⟨n, o⟩ := p
    cases ps with
    | nil =>
      refine ⟨n :: before', behind', fun cs => ?_⟩
      have hcs := h cs
      rw [List.nil_append] at hcs
      rw [List.cons_append, List.nil_append, padProperties, hcs, List.singleton_append,
        List.cons_append]
    | cons q ps =>
      obtain ⟨n', o'⟩ := q
      refine ⟨emit os k o' n ++ before', behind', fun cs => ?_⟩
      rw [List.append_assoc, ← h cs]
      cases o' <;> rfl

theorem outer_alignBlock (d : Dialect) : Outer (alignBlock d) where
  branch l cs := ⟨_, alignBlock_branch l cs⟩
  around l m before behind hleaf hdecl := by
    let os := occurrences (before ++ .branch m [] :: behind)
    have hpadded : ∀ cs, padValues os (before ++ .branch m cs :: behind) =
        padValues os before ++ .branch m cs :: padValues os behind := by
      intro cs
      simp only [padValues_eq_map, List.map_append, List.map_cons]
      rw [padOwn_of_kind_ne (n := .branch m cs) hdecl]
    have halign : ∃ before' behind', ∀ cs,
        alignChildren d l.dialect (before ++ .branch m cs :: behind) =
          before' ++ .branch m cs :: behind' := by
      simp only [alignChildren, isOneLine_around hleaf hdecl _ [],
        occurrences_around hleaf hdecl _ []]
      by_cases hl : (isOneLine (before ++ .branch m [] :: behind) && d != .sass) = true
      · exact ⟨before, behind, fun cs => if_pos hl⟩
      by_cases hd : d = .sass
      · exact ⟨padValues os before, padValues os behind, fun cs => by
          rw [if_neg hl, if_pos hd, hpadded]⟩
      · obtain ⟨before', behind', h⟩ := @exists_padProperties os l.dialect m hleaf
          ((padValues os before).zip (propertiesFrom [] before))
          ((padValues os behind).zip (propertiesFrom (before.foldl leadPast []) behind))
        refine ⟨before', behind', fun cs => ?_⟩
        rw [if_neg hl, if_neg hd, hpadded, properties_around hleaf hdecl, List.zip_append ?_,
          List.zip_cons_cons, h]
        simp [padValues, propertiesFrom]
    obtain ⟨before', behind', h⟩ := halign
    exact ⟨before', behind', fun cs => by rw [alignBlock_branch, h]⟩

end VendorAlign

/-! ## Trees -/

open Node

/-- **What a rule makes of a tree changes with the children of a block only inside this block.** One
path leads to what `edit` makes of the block. If other children are put into the block, then what
`edit` makes of the block with these is at the end of that path, and the rest is as it was. -/
def Rule.Confined (r : Rule) (edit : Node → Node) (tree block : Node) (path : List Nat) : Prop :=
  (edit block).label = block.label ∧ ∃ once path', r.process tree = .ok once ∧
    path'.length = path.length ∧ once.at? path' = some (edit block) ∧
    ∀ cs tree', tree.modifyAt? (withChildren cs) path = some tree' →
      ∃ once', r.process tree' = .ok once' ∧
        once.modifyAt? (withChildren (edit (block.withChildren cs)).children) path' = some once'

/-- A rule that walks over the blocks of trees with the label `l`. -/
theorem Node.Outer.confined {f : Node → Node} {r : Rule} {l : Label} {ns : List Node} {d : Dialect}
    {path : List Nat} {block : Node} (hf : Outer f)
    (hr : ∀ cs, r.process (.branch l cs) = .ok ((Node.branch l cs).mapBlock f))
    (hn : (Node.branch l ns).All (Sound d)) (hb : (Node.branch l ns).at? path = some block)
    (hk : block.kind = .block) : r.Confined (mapBlock f) (.branch l ns) block path := by
  obtain ⟨path', hlength, hat, hmodify⟩ := hf.exists_path path hn hb hk
  refine ⟨?_, _, path', hr ns, hlength, hat, fun cs tree' htree' => ?_⟩
  · obtain ⟨m, cs, rfl⟩ := (all_at? path hn hb).self.kindFits.eq_branch (by rw [hk]; rfl)
    obtain ⟨ds, hds⟩ := hf.exists_mapBlock m cs
    rw [hds]
    rfl
  · obtain ⟨es, rfl⟩ := exists_modifyAt? cs path htree'
    exact ⟨_, hr es, hmodify cs _ htree'⟩

/-- **Rewriting is local to a block**: exchanging the children of a block of a parsed tree changes
what vendor alignment and inlining make of the tree inside this block alone. (Inlining is not for
sass.) -/
theorem confined_process (d : Dialect) (source : String) (tree block : Node) (path : List Nat)
    (h : parse d source = .ok tree) (hb : tree.at? path = some block) (hk : block.kind = .block) :
    VendorAlign.rule.Confined (mapBlock (VendorAlign.alignBlock d)) tree block path ∧
      if d = .sass then
        ∀ cs tree', tree.modifyAt? (withChildren cs) path = some tree' →
          Inlining.rule.process tree' = Inlining.rule.process tree
      else Inlining.rule.Confined (mapBlock Inlining.inlineBlock) tree block path := by
  obtain ⟨ts, ns, hp⟩ := parsed_of_parseChars h
  have hsound := sound_of_parseChars h
  rw [hp.tree_eq] at hsound hb ⊢
  let l : Label := ⟨.stylesheet, d, spanOf ns⟩
  have hwalk : ∀ (f : Node → Node) (cs : List Node),
      (Node.branch l cs).mapBlock f = (Node.branch l cs).mapBlocks f := by
    intro f cs
    have hl : Kind.stylesheet ≠ .block := by decide
    rw [mapBlock, if_neg hl]
    rfl
  constructor
  · refine (VendorAlign.outer_alignBlock d).confined (fun cs => ?_) hsound hb hk
    rw [hwalk]
    cases d <;> rfl
  split
  · intro cs tree' htree'
    obtain ⟨es, rfl⟩ := exists_modifyAt? cs path htree'
    subst d
    rfl
  · rename_i hd
    refine Inlining.outer_inlineBlock.confined (fun cs => ?_) hsound hb hk
    rw [hwalk]
    cases d <;> first | rfl | exact absurd rfl hd

/-- A block in a block, which itself is not on one line. -/
def outerSheet : String := "a \x7b\n  -moz-x: 1;\n  b \x7b y: 1 \x7d x: 2\n\x7d"

/-- What stands before and behind the inner block is moved as it was before, and what is put into
the block goes along. -/
theorem confined_process_outer : ∃ tree block, parse .css outerSheet = .ok tree ∧
    tree.at? [0, 2, 4, 2] = some block ∧ block.kind = .block ∧
    VendorAlign.rule.Confined (mapBlock (VendorAlign.alignBlock .css)) tree block [0, 2, 4, 2] ∧
      Inlining.rule.Confined (mapBlock Inlining.inlineBlock) tree block [0, 2, 4, 2] := by
  have hread : ((parse .css outerSheet).toOption.bind (at? [0, 2, 4, 2])).map Node.kind =
      some .block := by
    decide +kernel
  cases h : parse .css outerSheet with
  | error e => rw [h] at hread; cases hread
  | ok tree =>
    rw [h] at hread
    obtain ⟨block, hb, hk⟩ := Option.map_eq_some_iff.1 hread
    have hconfined := confined_process .css _ tree block _ h hb hk
    exact ⟨tree, block, rfl, hb, hk, hconfined.1, hconfined.2⟩

end TidySheet
