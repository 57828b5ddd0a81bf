import TidySheet.Proofs.BlockLengths
import TidySheet.Proofs.CommandRuns

/-!
# Changes and the rules that report them

A run names the rules that changed the text. If it names none, the text comes out as it was. The
other way round a run may name rules and still end with the text that it began with: if inlining
takes whitespace out of blocks, and vendor alignment puts it back. That needs a value in each of these
blocks that is a bare vendor mark, which has the id of its own property.

* `VendorAlign.exists_bareMark` — in a block with one declaration, what is moved is a bare mark;
* `Tidier.Undoes` — the runs that undo what inlining does;
* `Tidier.changes_iff` — the rules that a run names and the text that it ends with.
-/

set_option autoImplicit false

namespace TidySheet

open Node

/-! ## Bare vendor marks -/

theorem eq_of_length_le_one {α : Type} {xs : List α} {x y : α} (h : xs.length ≤ 1) (hx : x ∈ xs)
    (hy : y ∈ xs) : x = y := by
  match xs, h with
  | [a], _ => rw [List.mem_singleton.1 hx, List.mem_singleton.1 hy]

namespace VendorBlock

/-- A declaration whose value starts with a vendor mark and no name behind it. -/
def HasBareMark (n : Node) : Prop := ∃ name, valueName? n = some name ∧ (stripVendor name).1 = []

theorem kind_of_valueName? {n : Node} {name : List Char} (h : valueName? n = some name) :
    n.kind = .declaration := by
  unfold valueName? at h
  split at h
  · exact is_eq_true.1 ‹_›
  · cases h

theorem statements_cons (n : Node) (ns : List Node) :
    Inlining.statements (n :: ns) = Inlining.statements [n] + Inlining.statements ns :=
  Inlining.statements_append [n] ns

theorem statements_declaration {n : Node} (h : n.kind = .declaration) :
    Inlining.statements [n] = 1 := by
  simp [Inlining.statements, is_eq_true.2 h]

theorem length_propertiesFrom_le (before ns : List Node) :
    ((propertiesFrom before ns).filterMap id).length ≤ Inlining.statements ns := by
  induction ns generalizing before with
  | nil => exact Nat.le_refl _
  | cons n ns ih =>
    have hrest := ih (leadPast before n)
    rw [VendorAlign.filterMap_propertiesFrom_cons, List.length_append, statements_cons]
    cases ho : propertyOccurrence? before n with
    | none => exact Nat.le_trans (by simpa using hrest) (Nat.le_add_left _ _)
    | some o =>
      rw [statements_declaration (kind_of_propertyOccurrence? ho)]
      exact Nat.add_le_add_left hrest 1

theorem length_values_le (ns : List Node) :
    (ns.filterMap valueOccurrence?).length ≤ Inlining.statements ns := by
  induction ns with
  | nil => exact Nat.le_refl _
  | cons n ns ih =>
    rw [List.filterMap_cons, statements_cons]
    cases ho : valueOccurrence? n with
    | none => exact Nat.le_trans ih (Nat.le_add_left _ _)
    | some o =>
      obtain ⟨name, hname, -⟩ := Option.map_eq_some_iff.1 ho
      rw [statements_declaration (kind_of_valueName? hname), List.length_cons]
      omega

/-- The declarations of a block with one statement are one. -/
theorem eq_of_statements_le {cs : List Node} {m n : Node} (h : Inlining.statements cs ≤ 1)
    (hm : m ∈ cs) (hmk : m.kind = .declaration) (hn : n ∈ cs) (hnk : n.kind = .declaration) :
    m = n := by
  have hmem : ∀ k ∈ cs, k.kind = .declaration →
      k ∈ cs.filter fun c => c.is .declaration || c.is .ruleset :=
    fun k hk hd => List.mem_filter.2 ⟨hk, by rw [is_eq_true.2 hd, Bool.true_or]⟩
  exact eq_of_length_le_one h (hmem m hm hmk) (hmem n hn hnk)

end VendorBlock

namespace VendorAlign

open VendorBlock

variable {d : Dialect} {cs : List Node}

/-- A property and a value of one declaration share their id only if the value is a bare mark. -/
theorem hasBareMark_of_id_eq {n : Node} {before : List Node} {o o' : Occurrence}
    (ho : propertyOccurrence? before n = some o) (ho' : valueOccurrence? n = some o')
    (hid : o.id = o'.id) : HasBareMark n := by
  obtain ⟨property, hp, rfl⟩ := Option.map_eq_some_iff.1 ho
  obtain ⟨name, hv, rfl⟩ := Option.map_eq_some_iff.1 ho'
  refine ⟨name, hv, ?_⟩
  rw [hp] at hid
  simpa [Occurrence.ofName] using hid

/-- What is moved falls short of another name with its id. -/
theorem exists_lack (h : 0 < shortfall d cs) : ∃ o ∈ occurrences cs, ∃ o' ∈ occurrences cs,
    o'.id = o.id ∧ o.total < o'.total := by
  have hlack : ∃ o ∈ occurrences cs, 0 < lack (occurrences cs) o := by
    unfold shortfall at h
    split at h
    · cases h
    rcases Nat.add_pos_iff_pos_or_pos.1 h with h | h
    · obtain ⟨k, hk, hpos⟩ := List.sum_pos_iff_exists_pos_nat.1 h
      obtain ⟨o, ho, rfl⟩ := List.mem_map.1 hk
      exact ⟨o, List.mem_append_right _ ho, hpos⟩
    · split at h
      · cases h
      obtain ⟨k, hk, hpos⟩ := List.sum_pos_iff_exists_pos_nat.1 h
      obtain ⟨o, ho, rfl⟩ := List.mem_map.1 hk
      refine ⟨o, List.mem_append_left _ ?_, hpos⟩
      exact ((List.drop_sublist 1 (properties cs)).filterMap id).subset ho
  obtain ⟨o, ho, hpos⟩ := hlack
  unfold lack at hpos
  have hreach : reach (occurrences cs) o.id ≠ 0 := by omega
  obtain ⟨o', ho', hid, htotal⟩ := exists_total_eq_reach hreach
  exact ⟨o, ho, o', ho', hid, by omega⟩

theorem exists_of_mem_propertiesFrom {before ns : List Node} {o : Occurrence}
    (h : o ∈ (propertiesFrom before ns).filterMap id) :
    ∃ n ∈ ns, ∃ lead, propertyOccurrence? lead n = some o := by
  induction ns generalizing before with
  | nil => cases h
  | cons n ns ih =>
    rw [filterMap_propertiesFrom_cons, List.mem_append, Option.mem_toList] at h
    rcases h with h | h
    · exact ⟨n, List.mem_cons_self, before, h⟩
    · obtain ⟨m, hm, hlead⟩ := ih h
      exact ⟨m, List.mem_cons_of_mem n hm, hlead⟩

/-- **In a block with one declaration only a bare vendor mark is moved.** -/
theorem exists_bareMark (hone : Inlining.statements cs ≤ 1) (hpos : 0 < shortfall d cs) :
    ∃ n ∈ cs, HasBareMark n := by
  -- a property and a value with one id
  have hmixed : ∃ o ∈ (properties cs).filterMap id, ∃ o' ∈ cs.filterMap valueOccurrence?,
      o.id = o'.id := by
    obtain ⟨o, ho, o', ho', hid, hlt⟩ := exists_lack hpos
    have hp := Nat.le_trans (length_propertiesFrom_le [] cs) hone
    have hv := Nat.le_trans (length_values_le cs) hone
    rw [occurrences, filterMap_values, List.mem_append] at ho ho'
    rcases ho with ho | ho <;> rcases ho' with ho' | ho'
    · rw [eq_of_length_le_one hp ho ho'] at hlt
      omega
    · exact ⟨o, ho, o', ho', hid.symm⟩
    · exact ⟨o', ho', o, ho, hid⟩
    · rw [eq_of_length_le_one hv ho ho'] at hlt
      omega
  obtain ⟨o, ho, o', ho', hid⟩ := hmixed
  obtain ⟨n, hn, before, hno⟩ := exists_of_mem_propertiesFrom ho
  obtain ⟨m, hm, hmo⟩ := List.mem_filterMap.1 ho'
  obtain ⟨name, hname, -⟩ := Option.map_eq_some_iff.1 hmo
  obtain rfl := eq_of_statements_le hone hm (kind_of_valueName? hname) hn
    (kind_of_propertyOccurrence? hno)
  exact ⟨m, hm, hasBareMark_of_id_eq hno hmo hid⟩

end VendorAlign

/-! ## Squeezed blocks -/

namespace Inlining

/-- Whether inlining takes whitespace out of a block. -/
def Squeezes (block : Node) : Prop :=
  isInlinable block = true ∧ ∃ s ∈ block.children, s.kind = .space

variable {d : Dialect} {source : List Char} {tree : Node} {ts : List Token} {ns : List Node}

/-- What stands in a squeezed block gets shorter. -/
theorem ownLength_lt {l : Label} {cs : List Node} (hl : l.kind = .block) (hf : AllOf Formed cs)
    (hb : AllOf Blank cs) (ht : AllOf (fun m => m.kind = .space → m.text? ≠ some []) cs)
    (hs : Squeezes (.branch l cs)) :
    ownLength ((Node.branch l cs).mapBlock inlineBlock) < ownLength (.branch l cs) := by
  obtain ⟨hinlinable, s, hs, hk⟩ := hs
  have hpos : 0 < outside s := by
    obtain ⟨m, t, rfl⟩ := ((allOf_iff cs).1 hf s hs).self.fits.eq_leaf (by rw [hk]; rfl)
    rw [weight_outside.space m t hk, List.length_pos_iff]
    rintro rfl
    exact ((allOf_iff cs).1 ht _ hs).self hk rfl
  rw [ownLength_mapBlock hl hf hb, hinlinable, ownLength, outsideOf_eq]
  exact weigh_squeeze_lt hs hk hpos

/-- A block that is not squeezed stays as it is. -/
theorem inlineBlock_eq_self {block : Node} (h : ¬ Squeezes block) : inlineBlock block = block := by
  unfold inlineBlock
  split
  · rename_i hinlinable
    cases block with
    | leaf l t => rfl
    | branch l cs =>
      have hfilter : cs.filter (fun c => !c.is .space) = cs := by
        rw [List.filter_eq_self]
        intro c hc
        rw [is_eq_false.2 fun hk => h ⟨hinlinable, c, hc, hk⟩, Bool.not_false]
      rw [filterChildren, children, withChildren, hfilter]
  · rfl

theorem eq_of_process {next : Node} (hd : tree.dialect ≠ .sass) (h : rule.process tree = .ok next) :
    next = reshape tree := by
  rw [process_of_ne hd] at h
  exact (Except.ok.inj h).symm

theorem space_ne_nil (hp : Parsed d source tree ts ns) :
    AllOf (fun m => m.kind = .space → m.text? ≠ some []) ns :=
  hp.reading.space_ne_nil (lexes_of_tokens ts hp.tokens_eq).text_ne_nil

/-- What stands in the blocks of an inlined sheet. -/
theorem exists_of_mem_blocks (hd : d ≠ .sass) (hp : Parsed d source tree ts ns) {block : Node}
    (h : block ∈ tree.blocks) :
    ∃ l cs, block = .branch l cs ∧ l.kind = .block ∧ AllOf Formed cs ∧ AllOf Blank cs ∧
      (Squeezes block → ownLength (block.mapBlock inlineBlock) < ownLength block) := by
  have htree := hp.retraced (Dialect.usesBraces_of_ne hd)
  rw [hp.blocks_eq] at h
  obtain ⟨l, cs, rfl, hl, hf, hb⟩ := exists_of_mem_withBlocks htree.formed htree.blank h
  obtain ⟨_, _, he, -, -, ht⟩ := exists_of_mem_withBlocks htree.formed (space_ne_nil hp) h
  cases he
  exact ⟨l, cs, rfl, hl, hf, hb, ownLength_lt hl hf hb ht⟩

/-- **Inlining changes a text exactly if it squeezes a block.** -/
theorem chars_reshape_eq_iff (hd : d ≠ .sass) (hp : Parsed d source tree ts ns) :
    (reshape tree).chars = source ↔ ∀ block ∈ tree.blocks, ¬ Squeezes block := by
  constructor
  · intro h block hblock hs
    have htree := hp.retraced (Dialect.usesBraces_of_ne hd)
    obtain ⟨-, -, -, -, -, -, hlt⟩ := exists_of_mem_blocks hd hp hblock
    rw [reshape, hp.chars_mapBlocks, ← hp.charsOf_eq] at h
    have hlengths := (htree.map shifts_inlineBlock).map_ownLength_eq htree h
    rw [(shifts_inlineBlock.allKept ns htree.formed htree.blank).blocks_eq, List.map_map] at hlengths
    rw [hp.blocks_eq] at hblock
    have hsame := List.map_inj_left.1 hlengths block hblock
    exact absurd (hlt hs) (by rw [← hsame]; exact Nat.lt_irrefl _)
  · intro h
    rw [hp.blocks_eq, forall_mem_withBlocks] at h
    rw [reshape, hp.chars_mapBlocks, ← mapBlocksOf_eq_map, mapBlocksOf_eq_self ns, hp.charsOf_eq]
    exact AllOf.imp (fun _ hblock hk => inlineBlock_eq_self (hblock hk)) ns h

end Inlining

/-! ## Vendor alignment behind inlining -/

namespace VendorAlign

open Inlining

variable {d : Dialect} {source : List Char} {tree : Node} {ts : List Token} {ns : List Node}

theorem length_reshape (hp : Parsed d source tree ts ns) :
    source.length ≤ (reshape tree).chars.length := by
  have hsound := hp.reading.sound hp.spelled
  rw [reshape, hp.chars_mapBlocks, ← hp.charsOf_eq]
  exact length_charsOf_le ns (AllOf.imp (fun _ => formed_of_sound) ns (AllOf.below ns hsound))
    (AllOf.imp (fun _ => Sound.blank) ns hsound)

/-- The length of what stands in a block behind inlining and vendor alignment. -/
def restoredLength (d : Dialect) (block : Node) : Nat :=
  ownLength (block.mapBlock inlineBlock) + shortfall d (block.mapBlock inlineBlock).children

/-- The sheet behind inlining and vendor alignment. -/
theorem exists_restored (hd : d ≠ .sass) (hp : Parsed d source tree ts ns) :
    ∃ qs, (reshape (Inlining.reshape tree)).chars = charsOf qs ∧ Retraced ns qs ∧
      (qs.flatMap withBlocks).map ownLength = tree.blocks.map (restoredLength d) := by
  have htree := hp.retraced (Dialect.usesBraces_of_ne hd)
  have hinlined := htree.map shifts_inlineBlock
  have hkept := shifts_inlineBlock.allKept ns htree.formed htree.blank
  refine ⟨_, ?_, hinlined.map (shifts_alignBlock d), ?_⟩
  · rw [hp.tree_eq, ofChildren, Inlining.reshape, mapBlocks_branch, reshape, mapBlocks_branch]
    exact chars_of_stylesheet rfl _
  · rw [map_ownLength_withBlocks hinlined.formed hinlined.blank, hkept.blocks_eq, List.map_map,
      hp.blocks_eq]
    rfl

/-- **Colon alignment behind inlining and vendor alignment that ends in the source** has done
nothing. -/
theorem restores_of_aligned (hd : d ≠ .sass) (hp : Parsed d source tree ts ns) {again : Node}
    (hagain : parseChars d (reshape (Inlining.reshape tree)).chars = .ok again)
    (h : (again.mapBlocks Colons.alignBlock).chars = source) :
    (reshape (Inlining.reshape tree)).chars = source := by
  obtain ⟨us, ms, hp'⟩ := parsed_of_parseChars hagain
  obtain ⟨qs, hchars, hq, hlengths⟩ := exists_restored hd hp
  refine Colons.eq_of_aligned hd hp hp' h hq hchars.symm hlengths ?_
  intro block hblock hcolons
  obtain ⟨l, cs, rfl, hl, hf, hb, -⟩ := exists_of_mem_blocks hd hp hblock
  have hown := Inlining.ownLength_mapBlock hl hf hb
  have hinlinable : isInlinable (.branch l cs) = false := Colons.not_isInlinable hcolons
  rw [hinlinable] at hown
  have hlength : ownLength (.branch l cs) = weigh outside (squeeze false cs) := outsideOf_eq cs
  unfold restoredLength
  omega

/-- **Vendor alignment that restores what inlining took out of a block** has moved a bare mark. -/
theorem exists_bareMark_of_restores (hd : d ≠ .sass) (hp : Parsed d source tree ts ns)
    (h : (reshape (Inlining.reshape tree)).chars = source) {block : Node}
    (hblock : block ∈ tree.blocks) (hs : Squeezes block) :
    ∃ n ∈ block.children, VendorBlock.HasBareMark n := by
  obtain ⟨qs, hchars, hq, hlengths⟩ := exists_restored hd hp
  have htree := hp.retraced (Dialect.usesBraces_of_ne hd)
  have hsame := hq.map_ownLength_eq htree ((hchars.symm.trans h).trans hp.charsOf_eq.symm)
  rw [hlengths, ← hp.blocks_eq] at hsame
  have hrestored := List.map_inj_left.1 hsame block hblock
  obtain ⟨l, cs, rfl, hl, hf, hb, hlt⟩ := exists_of_mem_blocks hd hp hblock
  have hlt := hlt hs
  unfold restoredLength at hrestored
  have hpos : 0 < shortfall d ((Node.branch l cs).mapBlock inlineBlock).children := by omega
  rw [mapBlock_of_block hl] at hpos
  -- inlining leaves the statements of the block as they are
  have hsub := squeeze_sublist (isInlinable (.branch l cs)) cs
  have hone : statements ((squeeze (isInlinable (.branch l cs)) cs).map (mapBlock inlineBlock)) ≤
      1 := by
    have hinlinable := hs.1
    rw [isInlinable_branch, Bool.and_eq_true, decide_eq_true_eq] at hinlinable
    rw [statements_map fun n _ => kind_mapBlock_inlineBlock n]
    exact Nat.le_trans (hsub.filter _).length_le hinlinable.1
  obtain ⟨n, hn, name, hname, hbare⟩ := exists_bareMark hone hpos
  obtain ⟨m, hm, rfl⟩ := List.mem_map.1 hn
  have hk := VendorBlock.kind_of_valueName? hname
  rw [kind_mapBlock_inlineBlock] at hk
  have hmem := hsub.subset hm
  rw [mapBlock_declaration ((allOf_iff cs).1 hf m hmem).self hk] at hname
  exact ⟨m, hmem, name, hname, hbare⟩

end VendorAlign

/-! ## Runs that undo inlining -/

namespace Tidier

/-- **Runs that undo what inlining does**: vendor alignment puts back what inlining takes out, and
the colons are aligned. -/
structure Undoes (t : Tidier) (d : Dialect) (tree : Node) : Prop where
  inlining : Inlining.rule.name ∈ t.ruleNames ∧ Inlining.rule.supports d = true
  vendor : VendorAlign.rule.name ∈ t.ruleNames
  squeezes : ∃ block ∈ tree.blocks, Inlining.Squeezes block
  restores : (VendorAlign.reshape (Inlining.reshape tree)).chars = tree.chars
  aligned : Colons.rule.name ∈ t.ruleNames → ∀ block ∈ tree.blocks, Colons.isAligned block = true

end Tidier

/-- Colon alignment of a tree is that of its text. -/
theorem Colons.exists_of_process {d : Dialect} {tree next : Node} (hk : tree.kind = .stylesheet)
    (hd : tree.dialect = d) (h : rule.process tree = .ok next) :
    ∃ again, parseChars d tree.chars = .ok again ∧ next = again.mapBlocks alignBlock := by
  have hparse : ∃ again, parseChars d tree.chars = .ok again := by
    cases hp : parseChars d tree.chars with
    | ok again => exact ⟨again, rfl⟩
    | error e =>
      have hreparse : reparse name tree = .error (.reparse name e) := by rw [reparse, hd, hp]
      rw [Rule.process] at h
      split at h
      · have hnext : Colons.reshape tree = .ok next := h
        rw [Colons.reshape, hreparse] at hnext
        cases hnext
      · cases h
  obtain ⟨again, hagain⟩ := hparse
  obtain ⟨hk', hd'⟩ := label_of_parseChars hagain
  refine ⟨again, hagain, ?_⟩
  rw [process_congr (hk.trans hk'.symm) (hd.trans hd'.symm) (chars_of_parseChars hagain).symm,
    process_of_parseChars hagain] at h
  exact (Except.ok.inj h).symm

namespace Tidier

variable {d : Dialect} {source : List Char} {tree last next : Node} {ts : List Token}
  {ns : List Node} {names : List String} {r : Rule} {rs : List Rule}

/-- The last two rules of a run with vendor alignment, if it ends in the source: colon alignment has
done nothing, provided that it does nothing when it ends in the source. -/
theorem vendor_of_source {on : Bool} (hp : parseChars d source = .ok tree)
    (hk : next.kind = .stylesheet) (hd : next.dialect = d)
    (h : runRules d (VendorAlign.rule :: if on then [Colons.rule] else []) next = (last, .ok names))
    (hlast : last.chars = source)
    (hcolons : ∀ again, parseChars d (VendorAlign.reshape next).chars = .ok again →
      (again.mapBlocks Colons.alignBlock).chars = source →
        (VendorAlign.reshape next).chars = source) :
    (VendorAlign.reshape next).chars = source ∧
      (on = true → ∀ block ∈ tree.blocks, Colons.isAligned block = true) ∧
      (next.chars = source → names = []) := by
  obtain ⟨mid, rest, hmid, hrest, rfl⟩ := exists_of_runRules_cons (by cases d <;> rfl) h
  obtain rfl : mid = VendorAlign.reshape next := by
    rw [Rule.process, if_pos (by cases next.dialect <;> rfl)] at hmid
    exact (Except.ok.inj hmid).symm
  cases on with
  | false =>
    obtain ⟨rfl, rfl⟩ := eq_of_runRules_nil hrest
    exact ⟨hlast, fun hon => (by cases hon), fun hnext => if_pos (hlast.trans hnext.symm)⟩
  | true =>
    have hlabel : (VendorAlign.reshape next).label = next.label := label_mapBlocks _ next
    have hk' : (VendorAlign.reshape next).kind = .stylesheet := by
      rw [Node.kind, hlabel]
      exact hk
    have hd' : (VendorAlign.reshape next).dialect = d := by
      rw [dialect, hlabel]
      exact hd
    obtain ⟨final, rest', hfinal, hend, rfl⟩ := exists_of_runRules_cons (by cases d <;> rfl) hrest
    obtain ⟨rfl, rfl⟩ := eq_of_runRules_nil hend
    obtain ⟨again, hagain, rfl⟩ := Colons.exists_of_process hk' hd' hfinal
    have hsource := hcolons again hagain hlast
    refine ⟨hsource, fun _ => ?_, fun hnext => ?_⟩
    · rw [hsource, hp] at hagain
      obtain rfl := Except.ok.inj hagain
      obtain ⟨ts, ns, hparsed⟩ := parsed_of_parseChars hp
      exact (Colons.aligned_eq_iff hparsed).1 hlast
    · rw [if_pos (hsource.trans hnext.symm), if_pos (hlast.trans hsource.symm)]

/-- One rule that ends in the text that it began with is not named. -/
theorem names_of_single (hr : r.supports d = true) (h : runRules d [r] tree = (last, .ok names))
    (hlast : last.chars = tree.chars) : names = [] := by
  obtain ⟨next, rest, -, hend, rfl⟩ := exists_of_runRules_cons hr h
  obtain ⟨rfl, rfl⟩ := eq_of_runRules_nil hend
  exact if_pos hlast

/-- Colon alignment and then inlining, if they end in the source: neither has done anything. -/
theorem names_of_colons_inlining (hd : d ≠ .sass) (hparse : parseChars d source = .ok tree)
    (h : runRules d [Colons.rule, Inlining.rule] tree = (last, .ok names))
    (hlast : last.chars = source) : names = [] := by
  obtain ⟨ts, ns, hp⟩ := parsed_of_parseChars hparse
  have hsource : tree.chars = source := chars_of_parseChars hparse
  obtain ⟨-, hdialect⟩ := label_of_parseChars hparse
  obtain ⟨next, rest, hnext, hrest, rfl⟩ := exists_of_runRules_cons (by cases d <;> rfl) h
  rw [Colons.process_of_parseChars hparse] at hnext
  obtain rfl := Except.ok.inj hnext
  obtain ⟨final, rest', hfinal, hend, rfl⟩ :=
    exists_of_runRules_cons (Inlining.supports_of_ne hd) hrest
  obtain ⟨rfl, rfl⟩ := eq_of_runRules_nil hend
  have hfinal := Inlining.eq_of_process
    (by rw [dialect, label_mapBlocks]; rwa [← hdialect] at hd) hfinal
  rw [hfinal] at hlast
  have haligned := Colons.eq_of_inlined hd hp hlast
  rw [if_pos (haligned.trans hsource.symm), hfinal, if_pos (hlast.trans haligned.symm)]

/-- Inlining and then vendor alignment, if the run ends in the source and names a rule: vendor
alignment has put back what inlining took out. -/
theorem restored_of_source {colons : Bool} (hd : d ≠ .sass)
    (hparse : parseChars d source = .ok tree)
    (h : runRules d (Inlining.rule :: VendorAlign.rule :: if colons then [Colons.rule] else []) tree =
      (last, .ok names))
    (hlast : last.chars = source) (hnames : names ≠ []) :
    (∃ block ∈ tree.blocks, Inlining.Squeezes block) ∧
      (VendorAlign.reshape (Inlining.reshape tree)).chars = source ∧
      (colons = true → ∀ block ∈ tree.blocks, Colons.isAligned block = true) := by
  obtain ⟨ts, ns, hp⟩ := parsed_of_parseChars hparse
  have hsource : tree.chars = source := chars_of_parseChars hparse
  obtain ⟨hkind, hdialect⟩ := label_of_parseChars hparse
  obtain ⟨next, rest, hnext, hrest, hfirst⟩ :=
    exists_of_runRules_cons (Inlining.supports_of_ne hd) h
  obtain rfl := Inlining.eq_of_process (by rwa [hdialect]) hnext
  have hlabel : (Inlining.reshape tree).label = tree.label := label_mapBlocks _ tree
  obtain ⟨hrestores, haligned, hnone⟩ := vendor_of_source hparse
    (by rw [Node.kind, hlabel]; exact hkind) (by rw [dialect, hlabel]; exact hdialect) hrest hlast
    fun again hagain halign => VendorAlign.restores_of_aligned hd hp hagain halign
  refine ⟨?_, hrestores, haligned⟩
  by_contra hno
  have hsame : (Inlining.reshape tree).chars = source :=
    (Inlining.chars_reshape_eq_iff hd hp).2 fun block hblock hs => hno ⟨block, hblock, hs⟩
  rw [hfirst, if_pos (hsame.trans hsource.symm)] at hnames
  exact hnames (hnone hsame)

/-- **Runs that end with the text that they began with**: no rule is named, or vendor alignment puts
back what inlining takes out. -/
theorem runOrder_of_source {colons inlining vendor : Bool}
    (hparse : parseChars d source = .ok tree) (hi : inlining = true → d ≠ .sass)
    (h : runRules d (runOrder colons inlining vendor) tree = (last, .ok names))
    (hlast : last.chars = source) (hnames : names ≠ []) :
    (inlining = true ∧ vendor = true) ∧ (∃ block ∈ tree.blocks, Inlining.Squeezes block) ∧
      (VendorAlign.reshape (Inlining.reshape tree)).chars = source ∧
      (colons = true → ∀ block ∈ tree.blocks, Colons.isAligned block = true) := by
  obtain ⟨ts, ns, hp⟩ := parsed_of_parseChars hparse
  have hsource : tree.chars = source := chars_of_parseChars hparse
  obtain ⟨hkind, hdialect⟩ := label_of_parseChars hparse
  cases inlining with
  | false =>
    refine absurd ?_ hnames
    cases vendor with
    | false =>
      cases colons with
      | false => exact (eq_of_runRules_nil h).2
      | true => exact names_of_single (by cases d <;> rfl) h (hlast.trans hsource.symm)
    | true =>
      have hrun : runRules d (VendorAlign.rule :: if colons then [Colons.rule] else []) tree =
          (last, .ok names) := h
      refine (vendor_of_source hparse hkind hdialect hrun hlast ?_).2.2 hsource
      intro again hagain haligned
      obtain ⟨us, ms, hp'⟩ := parsed_of_parseChars hagain
      exact Colons.eq_of_aligned_of_le hp' haligned (VendorAlign.length_reshape hp)
  | true =>
    have hd := hi rfl
    cases vendor with
    | false =>
      refine absurd ?_ hnames
      cases colons with
      | false =>
        exact names_of_single (Inlining.supports_of_ne hd) h (hlast.trans hsource.symm)
      | true => exact names_of_colons_inlining hd hparse h hlast
    | true => exact ⟨⟨rfl, rfl⟩, restored_of_source hd hparse h hlast hnames⟩

/-! ## Reported changes -/

/-- The rules of a tidier. -/
theorem exists_runOrder {t : Tidier}
    (ht : (∃ settings, Tidier.ofSettings settings = .ok t) ∨ Tidier.full = .ok t) :
    ∃ colons inlining vendor, t.rules = runOrder colons inlining vendor := by
  rcases ht with ⟨settings, ht⟩ | ht
  · obtain ⟨rules, hrules, ht⟩ := bind_eq_ok.1 ht
    cases ht
    exact Registry.exists_runOrder hrules
  · obtain ⟨rules, hrules, ht⟩ := bind_eq_ok.1 ht
    cases ht
    exact Registry.runOrder_of_ordered hrules

theorem mem_names_runOrder (colons inlining vendor : Bool) :
    (Colons.rule.name ∈ (runOrder colons inlining vendor).map Rule.name ↔ colons = true) ∧
      (Inlining.rule.name ∈ (runOrder colons inlining vendor).map Rule.name ↔ inlining = true) ∧
      (VendorAlign.rule.name ∈ (runOrder colons inlining vendor).map Rule.name ↔ vendor = true) := by
  cases colons <;> cases inlining <;> cases vendor <;> decide

/-- A run that squeezes a block first names inlining. -/
theorem names_ne_nil_of_squeezes {colons : Bool} (hd : d ≠ .sass)
    (hparse : parseChars d source = .ok tree)
    (h : runRules d (runOrder colons true true) tree = (last, .ok names))
    (hs : ∃ block ∈ tree.blocks, Inlining.Squeezes block) : names ≠ [] := by
  obtain ⟨ts, ns, hp⟩ := parsed_of_parseChars hparse
  obtain ⟨next, rest, hnext, -, rfl⟩ := exists_of_runRules_cons (Inlining.supports_of_ne hd) h
  obtain rfl := Inlining.eq_of_process (by rwa [(label_of_parseChars hparse).2]) hnext
  obtain ⟨block, hblock, hs⟩ := hs
  rw [chars_of_parseChars hparse,
    if_neg fun h => (Inlining.chars_reshape_eq_iff hd hp).1 h block hblock hs]
  exact List.cons_ne_nil _ _

/-- **Which runs report a change.** Every run of a tidier that ends with another text names a rule
that changed it. A run that names one and ends with the text that it began with undoes what inlining
does; and then each block that inlining takes whitespace out of holds a bare vendor mark. -/
theorem changes_iff (t : Tidier)
    (ht : (∃ settings, Tidier.ofSettings settings = .ok t) ∨ Tidier.full = .ok t)
    (d : Dialect) (source : String) (tidied : Tidied) (h : t.tidy d source = .ok tidied) :
    ∃ tree, parse d source = .ok tree ∧
      (tidied.changedBy ≠ [] ↔ tidied.output ≠ source ∨ t.Undoes d tree) ∧
      (t.Undoes d tree → ∀ block ∈ tree.blocks, Inlining.Squeezes block →
        ∃ n ∈ block.children, VendorBlock.HasBareMark n) := by
  obtain ⟨tree, last, hparse, hrun, houtput⟩ := exists_run_of_tidy h
  obtain ⟨colons, inlining, vendor, hrules⟩ := exists_runOrder ht
  obtain ⟨hcolons, hinlining, hvendor⟩ := mem_names_runOrder colons inlining vendor
  have hsource : tree.chars = source.toList := chars_of_parseChars hparse
  have hsass : Inlining.rule.supports d = true → d ≠ .sass := by
    rintro hsupports rfl
    cases hsupports
  rw [hrules, ← runRules_filter, filter_runOrder_supports] at hrun
  refine ⟨tree, hparse, ⟨fun hne => ?_, ?_⟩, fun hundoes block hblock hs => ?_⟩
  · rw [or_iff_not_imp_left, not_not]
    intro hout
    have hlast : last.chars = source.toList := by
      rw [← hout, houtput, Node.render, String.toList_ofList]
    obtain ⟨⟨hi, hv⟩, hsqueezes, hrestores, haligned⟩ :=
      runOrder_of_source hparse (fun hi => by simpa using (Bool.and_eq_true_iff.1 hi).2) hrun hlast hne
    obtain ⟨hi, hd⟩ := Bool.and_eq_true_iff.1 hi
    refine ⟨⟨?_, Inlining.supports_of_ne (by simpa using hd)⟩, ?_, hsqueezes,
      hrestores.trans hsource.symm, fun hc => haligned ?_⟩
    · rw [ruleNames, hrules]
      exact hinlining.2 hi
    · rw [ruleNames, hrules]
      exact hvendor.2 hv
    · rw [ruleNames, hrules] at hc
      exact hcolons.1 hc
  · rintro (hout | hundoes)
    · exact fun hc => hout (output_of_no_changes h hc)
    · have hi := hundoes.inlining.1
      have hv := hundoes.vendor
      have hd := hsass hundoes.inlining.2
      rw [ruleNames, hrules] at hi hv
      rw [hinlining.1 hi, hvendor.1 hv, Bool.true_and, bne_iff_ne.2 hd] at hrun
      exact names_ne_nil_of_squeezes hd hparse hrun hundoes.squeezes
  · obtain ⟨ts, ns, hp⟩ := parsed_of_parseChars hparse
    exact VendorAlign.exists_bareMark_of_restores (hsass hundoes.inlining.2) hp
      (hundoes.restores.trans hsource) hblock hs

/-- A sheet with a bare vendor mark behind eight blanks, which inlining takes out and vendor
alignment puts back. -/
def bareSheet : String := "a\x7b;        x:\n-webkit-\x7d"

theorem changes_iff_bare : ∃ t tidied tree, Tidier.full = .ok t ∧
    t.tidy .css bareSheet = .ok tidied ∧ tidied.output = bareSheet ∧
    tidied.changedBy = [Inlining.rule.name, VendorAlign.rule.name] ∧
    parse .css bareSheet = .ok tree ∧ t.Undoes .css tree := by
  have hrun : (Tidier.full.toOption.bind fun t => (t.tidy .css bareSheet).toOption) =
      some ⟨bareSheet, [Inlining.rule.name, VendorAlign.rule.name]⟩ := by
    decide +kernel
  cases ht : Tidier.full with
  | error e => rw [ht] at hrun; cases hrun
  | ok t =>
    rw [ht] at hrun
    cases htidy : t.tidy .css bareSheet with
    | error e => simp [Except.toOption, htidy] at hrun
    | ok tidied =>
      simp only [Except.toOption, htidy, Option.bind_some, Option.some.injEq] at hrun
      obtain rfl := hrun
      obtain ⟨tree, hparse, hiff, -⟩ := changes_iff t (.inr ht) .css bareSheet _ htidy
      refine ⟨t, _, tree, rfl, htidy, rfl, rfl, hparse, ?_⟩
      exact (hiff.1 (List.cons_ne_nil _ _)).resolve_left fun hne => hne rfl

end Tidier

end TidySheet
