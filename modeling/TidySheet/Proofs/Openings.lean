import TidySheet.Proofs.Forms
import TidySheet.Proofs.Renesting

/-!
# Blocks and the lines that open them

* `Node.places` — where the leaves of a tree stand;
* `Node.openings` — the blocks of a tree, each with the place where its statement starts;
* `Statement.Opener.exists_init` — what a statement with a block consists of;
* `Lines.openers_append` — which lines open a block does not depend on less deep lines behind them;
* `Lines.Nested.map_openings` — the statements with a block are those of the lines that open one.
-/

set_option autoImplicit false

namespace TidySheet

variable {d : Dialect}

namespace Node

/-! ## Places and blocks of a tree -/

mutual

/-- Where the leaves of a tree start, in document order. -/
def places : Node → List Position
  | .leaf l _ => [l.span.first]
  | .branch _ cs => placesOf cs

def placesOf : List Node → List Position
  | [] => []
  | n :: ns => places n ++ placesOf ns

end

@[simp] theorem places_leaf (l : Label) (t : List Char) : places (.leaf l t) = [l.span.first] := by
  rw [places]

@[simp] theorem places_branch (l : Label) (cs : List Node) :
    places (.branch l cs) = placesOf cs := by
  rw [places]

@[simp] theorem placesOf_nil : placesOf [] = [] := by
  rw [placesOf]

@[simp] theorem placesOf_cons (n : Node) (ns : List Node) :
    placesOf (n :: ns) = places n ++ placesOf ns := by
  rw [placesOf]

@[simp] theorem placesOf_append (ms ns : List Node) :
    placesOf (ms ++ ns) = placesOf ms ++ placesOf ns := by
  induction ms with
  | nil => simp
  | cons m ms ih => simp [ih]

mutual

/-- The blocks below a node, each behind the place where its parent starts. -/
def openings : Node → List (Position × Node)
  | .leaf _ _ => []
  | .branch l cs => openingsFrom l.span.first cs

def openingsFrom (start : Position) : List Node → List (Position × Node)
  | [] => []
  | n :: ns =>
    (if n.is .block then [(start, n)] else []) ++ (openings n ++ openingsFrom start ns)

end

theorem openingsFrom_append (start : Position) (ms ns : List Node) :
    openingsFrom start (ms ++ ns) = openingsFrom start ms ++ openingsFrom start ns := by
  induction ms with
  | nil => rw [openingsFrom, List.nil_append, List.nil_append]
  | cons m ms ih => simp only [List.cons_append, openingsFrom, ih, List.append_assoc]

mutual

theorem openings_of_no_block : ∀ n : Node, n.All (fun m => m.kind ≠ .block) → openings n = []
  | .leaf _ _, _ => by rw [openings]
  | .branch l cs, h => by rw [openings, openingsFrom_of_no_block _ cs h.children]

theorem openingsFrom_of_no_block (start : Position) :
    ∀ ns : List Node, AllOf (fun m => m.kind ≠ .block) ns → openingsFrom start ns = []
  | [], _ => by rw [openingsFrom]
  | n :: ns, h => by
    rw [allOf_cons] at h
    have hn : ¬ n.is .block = true := fun hk => h.1.self (is_eq_true.1 hk)
    rw [openingsFrom, if_neg hn, openings_of_no_block n h.1, openingsFrom_of_no_block start ns h.2]
    rfl

end

theorem openings_eq (n : Node) : openings n = openingsFrom n.span.first n.children := by
  cases n with
  | leaf l t => rw [openings, children, openingsFrom]
  | branch l cs =>
    rw [openings]
    rfl

/-- The openings are the blocks that a walk meets. -/
theorem map_visits_block (n : Node) : (n.visitsOfKind .block).map
    (fun v => (v.parent.span.first, v.node)) = openings n := by
  rw [openings_eq]
  refine map_visitsOfKind (fun parent ns => openingsFrom parent.span.first ns) ?_ ?_ n
  · exact fun _ => by rw [openingsFrom]
  · intro _ _ n ns
    rw [openingsFrom, openings_eq]

theorem mem_openings {n : Node} {v : Visit} (hv : v ∈ n.visits) (hk : v.node.is .block = true) :
    (v.parent.span.first, v.node) ∈ n.openings := by
  rw [← map_visits_block]
  exact List.mem_map.2 ⟨v, List.mem_filter.2 ⟨hv, hk⟩, rfl⟩

theorem exists_visit {n : Node} {e : Position × Node} (h : e ∈ n.openings) :
    ∃ v ∈ n.visits, v.node.is .block = true ∧ v.parent.span.first = e.1 ∧ v.node = e.2 := by
  rw [← map_visits_block] at h
  obtain ⟨v, hv, rfl⟩ := List.mem_map.1 h
  obtain ⟨hmem, hk⟩ := List.mem_filter.1 hv
  exact ⟨v, hmem, hk, rfl, rfl⟩

end Node

open Node

/-! ## Where readings stand -/

theorem Token.placesOf_leaves (ts : List Token) :
    placesOf (Token.leaves d ts) = ts.map fun t => t.span.first := by
  induction ts with
  | nil => exact placesOf_nil
  | cons t ts ih => simpa [Token.leaves, Token.leaf] using ih

/-- Leaves stand where tokens stand, but for leaves without any token. -/
theorem Reading.mem_places {ts : List Token} {ns : List Node} (h : Reading d ts ns) {p : Position}
    (hp : p ∈ placesOf ns) : p = .unplaced ∨ p ∈ ts.map fun t => t.span.first := by
  induction h with
  | nil => simp at hp
  | @token t n ts ns hn _ ih =>
    obtain ⟨l, text, rfl, hl⟩ := hn.eq_leaf
    rw [placesOf_cons, places_leaf, hl, List.singleton_append] at hp
    rcases List.mem_cons.1 hp with rfl | hp
    · exact .inr (by simp)
    · rcases ih hp with h | h
      · exact .inl h
      · exact .inr (List.mem_cons_of_mem _ h)
  | @run k run ts ns _ _ _ ih =>
    rw [placesOf_cons, Token.joined, places_leaf, List.singleton_append] at hp
    rcases List.mem_cons.1 hp with rfl | hp
    · cases run with
      | nil => exact .inl rfl
      | cons t run => exact .inr (by simp [Token.spanOf])
    · rcases ih hp with h | h
      · exact .inl h
      · exact .inr (by simpa using .inr (by simpa using h))
  | @branch l opening inner closing ts cs ns _ _ _ _ ihi ih =>
    rw [placesOf_cons, places_branch] at hp
    simp only [List.map_append, List.mem_append]
    rcases List.mem_append.1 hp with hp | hp
    · rcases ihi hp with h | h
      · exact .inl h
      · exact .inr (.inr (.inl h))
    · rcases ih hp with h | h
      · exact .inl h
      · exact .inr (.inr (.inr (.inr h)))

namespace Statement

open Token

theorem trimEnd_cons {t : Token} (ts : List Token) (h : t.isTrivia = false) :
    (trimEnd (t :: ts)).1 = t :: (trimEnd ts).1 := by
  rw [trimEnd]
  split
  · rename_i trivia hts
    rw [h, hts]
    rfl
  · rename_i kept trivia _ hts
    rw [hts]

/-- **The parts of a statement with a block**: what its head is read into, then the block. -/
theorem Opener.exists_init {head : List Token} {block n : Node} (h : Opener d block head n) :
    ∃ k init, n = .ofChildren k d (init ++ [block]) ∧ Reading d head init ∧
      AllOf (fun m => m.kind ≠ .block) init ∧
        ∀ t ts, head = t :: ts → t.isTrivia = false →
          t.span.first ∈ placesOf init ∧ (spanOf (init ++ [block])).first = t.span.first := by
  have hleaves := fun ts => no_block_inline (leaves_inline (d := d) ts)
  cases h with
  | ruleset =>
    refine ⟨_, .ofChildren .selector d (leaves d (trimEnd head).1) :: leaves d (trimEnd head).2,
      rfl, ?_, ?_, ?_⟩
    · have hr : Reading d (trimEnd head).1 [.ofChildren .selector d (leaves d (trimEnd head).1)] :=
        Reading.ofChildren rfl (Node.sound_ofChildren rfl (by decide) (by decide)
          (leaves_kind_ne _)) (reading_leaves _)
      have happ := hr.append (reading_leaves (d := d) (trimEnd head).2)
      rwa [trimEnd_append] at happ
    · rw [allOf_cons, Node.ofChildren, all_branch]
      exact ⟨⟨Kind.noConfusion, hleaves _⟩, hleaves _⟩
    · rintro t ts rfl ht
      rw [trimEnd_cons ts ht]
      constructor
      · simp [Node.ofChildren, placesOf_leaves]
      · rfl
  | @atrule keyword params value hk hv =>
    have hi := Value.inlineReading_nodes hv
    refine ⟨.atrule, keyword.leaf d :: (value ++ leaves d (trimEnd params).2), by simp, ?_, ?_, ?_⟩
    · have hr := hi.reading.append (reading_leaves (d := d) (trimEnd params).2)
      rw [trimEnd_append] at hr
      exact .token .plain hr
    · have hkeyword := hleaves [keyword]
      exact (allOf_append [keyword.leaf d] _).2
        ⟨hkeyword, (allOf_append _ _).2 ⟨no_block_inline hi.inline, hleaves _⟩⟩
    · rintro t ts hh -
      cases hh
      exact ⟨by simp [Token.leaf], rfl⟩

theorem placesOf_property (ts : List Token) :
    placesOf (ts.map (propertyLeaf d)) = ts.map fun t => t.span.first := by
  induction ts with
  | nil => exact placesOf_nil
  | cons t ts ih =>
    obtain ⟨l, text, hn, hl⟩ := (leafOf_propertyLeaf (d := d) t).eq_leaf
    simp [hn, hl, ih]

theorem Core.first_mem {t : Token} {ts : List Token} {own : List Node}
    (h : Core d (t :: ts) own) : t.span.first ∈ placesOf own := by
  cases h with
  | raw => simp [joined, Token.spanOf]
  | @declaration _ before behind colon n hcut hn =>
    obtain ⟨hts, -⟩ := cutColon?_eq 0 hcut
    obtain ⟨value, -, rfl⟩ := declaration_eq_ok.1 hn
    have hmem : t ∈ (trimEnd before).1 ++ ((trimEnd before).2 ++ [colon]) := by
      rw [← List.append_assoc, trimEnd_append]
      cases before with
      | nil =>
        cases hts
        simp
      | cons u us =>
        cases hts
        simp
    simp only [declarationChildren, Node.ofChildren, placesOf_cons, placesOf_append,
      places_branch, places_leaf, placesOf_leaves, placesOf_property, List.mem_append]
    simp only [List.mem_append] at hmem
    rcases hmem with hm | hm | hm
    · exact .inl (.inl (List.mem_map_of_mem hm))
    · exact .inl (.inr (.inl (List.mem_map_of_mem hm)))
    · rw [List.mem_singleton.1 hm]
      exact .inl (.inr (.inr (.inl (by simp))))

/-- A statement without a block stands where its first token stands. -/
theorem Plain.first_mem {t : Token} {ts : List Token} {own : List Node}
    (h : Plain d (t :: ts) own) : t.span.first ∈ placesOf own := by
  cases h with
  | atrule => simp [Node.ofChildren, Token.leaf]
  | @other _ _ own hk hc =>
    have hparts : (trimStart (t :: ts)).1 ++ ((trimEnd (trimStart (t :: ts)).2).1 ++
        (trimEnd (trimStart (t :: ts)).2).2) = t :: ts := by
      rw [trimEnd_append, trimStart_append]
    generalize (trimStart (t :: ts)).1 = leading at hparts ⊢
    generalize (trimEnd (trimStart (t :: ts)).2).2 = trailing at hparts ⊢
    generalize (trimEnd (trimStart (t :: ts)).2).1 = core at hc hparts
    simp only [placesOf_append, placesOf_leaves, List.mem_append]
    cases leading with
    | cons u us =>
      cases hparts
      exact .inl (by simp)
    | nil =>
      cases core with
      | cons u us =>
        cases hparts
        exact .inr (.inl hc.first_mem)
      | nil =>
        rw [List.nil_append, List.nil_append] at hparts
        rw [hparts]
        exact .inr (.inr (by simp))

end Statement

namespace Lines

open Token Statement

/-! ## Lines that open a block -/

namespace Line

/-- Where the tokens of a line stand, its newline and its indent included. -/
def places (l : Line) : List Position := l.tokens.map fun t => t.span.first

/-- Where the body of a line starts. -/
def start? (l : Line) : Option Position := l.body.head?.map fun t => t.span.first

/-- Whether a block belongs to the statement that starts where the line's body does. -/
def opens (l : Line) (v : Visit) : Bool :=
  v.node.is .block && l.start? == some v.parent.span.first

/-- What tells the lines in the block of a line from those behind it. -/
structure Over (l : Line) (inner after : List Line) : Prop where
  isBlank : l.isBlank = false
  startsWithComment : l.startsWithComment = false
  inner : ∀ m ∈ inner, m.isBlank = false → l.width < m.width
  after : ∀ m, after.find? (fun k => !k.isBlank) = some m → m.width ≤ l.width

theorem start?_mem {l : Line} {p : Position} (h : l.start? = some p) : p ∈ l.places := by
  obtain ⟨t, ht, rfl⟩ := Option.map_eq_some_iff.1 h
  have hbody : t ∈ l.body := List.mem_of_mem_head? ht
  exact List.mem_map_of_mem (by simp [tokens, hbody])

theorem exists_start? {l : Line} (h : l.isBlank = false) :
    ∃ t ts, l.body = t :: ts ∧ l.start? = some t.span.first := by
  cases hb : l.body with
  | nil => simp [isBlank, hb] at h
  | cons t ts => exact ⟨t, ts, rfl, by simp [start?, hb]⟩

theorem Over.append {l : Line} {inner after ms : List Line} {width : Nat} (h : l.Over inner after)
    (hl : width < l.width)
    (hms : ∀ m, ms.find? (fun k => !k.isBlank) = some m → m.width ≤ width) :
    l.Over inner (after ++ ms) := by
  refine ⟨h.isBlank, h.startsWithComment, h.inner, fun m hm => ?_⟩
  rw [List.find?_append] at hm
  cases hf : after.find? fun k => !k.isBlank with
  | some k =>
    rw [hf] at hm
    cases hm
    exact h.after _ hf
  | none =>
    rw [hf, Option.none_or] at hm
    have := hms m hm
    omega

end Line

theorem over_of_cutBlock {l : Line} {ls inner outer : List Line} (hb : l.isBlank = false)
    (hc : cutBlock l ls = (inner, outer)) (hne : inner ≠ []) : l.Over inner outer := by
  have hopens : l.OpensOver ls := cutBlock_ne_nil.1 (by rw [hc]; exact hne)
  rw [cutBlock, if_neg (by simp [hopens.1])] at hc
  refine ⟨hb, hopens.1, fun m hm => ?_, fun m hm => ?_⟩
  · exact width_lt_of_mem_cutNested m (by rw [hc]; exact hm)
  · exact width_le_of_cutNested (by rw [hc]; exact hm)

/-- The lines that open a block. -/
def openers : List Line → List Line
  | [] => []
  | l :: ls =>
    if l.isBlank = false ∧ (cutBlock l ls).1 ≠ [] then l :: openers ls else openers ls

/-- **Less deep lines behind** change nothing about which lines open a block. -/
theorem openers_append {width : Nat} {ls ms : List Line}
    (hls : ∀ l ∈ ls, l.isBlank = false → width < l.width)
    (hms : ∀ m, ms.find? (fun k => !k.isBlank) = some m → m.width ≤ width) :
    openers (ls ++ ms) = openers ls ++ openers ms := by
  induction ls with
  | nil => rfl
  | cons l ls ih =>
    have hcond : (l.isBlank = false ∧ (cutBlock l (ls ++ ms)).1 ≠ []) ↔
        (l.isBlank = false ∧ (cutBlock l ls).1 ≠ []) := by
      rw [cutBlock_ne_nil, cutBlock_ne_nil]
      exact and_congr_right fun hb =>
        ⟨fun h => h.left (hls l (by simp) hb) hms, fun h => h.append ms⟩
    have hih := ih fun m hm => hls m (by simp [hm])
    simp only [List.cons_append, openers, hcond, hih]
    split <;> rfl

theorem mem_of_mem_openers {l : Line} {ls : List Line} (h : l ∈ openers ls) : l ∈ ls := by
  induction ls with
  | nil => exact h
  | cons m ls ih =>
    rw [openers] at h
    split at h
    · rcases List.mem_cons.1 h with rfl | h
      · simp
      · exact List.mem_cons_of_mem _ (ih h)
    · exact List.mem_cons_of_mem _ (ih h)

theorem mem_openers {l : Line} (before : List Line) {rest : List Line} (hb : l.isBlank = false)
    (ho : l.OpensOver rest) : l ∈ openers (before ++ l :: rest) := by
  induction before with
  | nil =>
    rw [List.nil_append, openers, if_pos ⟨hb, cutBlock_ne_nil.2 ho⟩]
    simp
  | cons m before ih =>
    rw [List.cons_append, openers]
    split
    · exact List.mem_cons_of_mem _ ih
    · exact ih

/-! ## The blocks of lines -/

theorem no_block_lead (l : Line) : AllOf (fun m => m.kind ≠ .block) l.lead := by
  refine (allOf_iff _).2 fun n hn => ?_
  simp only [Line.lead, List.mem_append, Option.mem_toList, Option.map_eq_some_iff] at hn
  rcases hn with ⟨t, -, rfl⟩ | ⟨t, -, rfl⟩ <;> exact (all_leaf _ _).2 Kind.noConfusion

/-- No line's body starts with whitespace. -/
def Flush (ls : List Line) : Prop := ∀ l ∈ ls, ∀ t ∈ l.body.head?, t.kind ≠ .whitespace

/-- A line that opens a block starts with what is neither whitespace nor a comment. -/
theorem isTrivia_head {l : Line} {t : Token} {ts : List Token} (hl : l.body = t :: ts)
    (hf : t.kind ≠ .whitespace) (hc : l.startsWithComment = false) : t.isTrivia = false := by
  simp only [Line.startsWithComment, hl, Bool.or_eq_false_iff, beq_eq_false_iff_ne] at hc
  unfold Token.isTrivia
  split <;> simp_all

/-- A statement with its block: the block stands at the place of its line. -/
theorem exists_opener {l : Line} {inner outer : List Line} {block n : Node}
    (hn : Opener .sass block l.body n) (ho : l.Over inner outer) (hk : block.kind = .block)
    (hf : ∀ t ∈ l.body.head?, t.kind ≠ .whitespace) : ∃ init start,
      Reading .sass l.body init ∧ l.start? = some start ∧ start ∈ placesOf init ∧
        n.kind ≠ .block ∧ n.places = placesOf init ++ block.places ∧
          openings n = (start, block) :: openings block := by
  obtain ⟨t, ts, hbody, hstart⟩ := Line.exists_start? ho.isBlank
  have ht := isTrivia_head hbody (hf t (by rw [hbody]; rfl)) ho.startsWithComment
  obtain ⟨k, init, rfl, hr, hb, hspan⟩ := hn.exists_init
  obtain ⟨hmem, hfirst⟩ := hspan t ts hbody ht
  refine ⟨init, t.span.first, hr, hstart, hmem, ?_, ?_, ?_⟩
  · rcases hn.kind_mem with hk | hk <;> rw [hk] <;> exact Kind.noConfusion
  · rw [Node.ofChildren, places_branch, placesOf_append, placesOf_cons, placesOf_nil,
      List.append_nil]
  · rw [Node.ofChildren, openings, openingsFrom_append, openingsFrom_of_no_block _ init hb,
      openingsFrom, if_pos (is_eq_true.2 hk), openingsFrom, hfirst]
    simp

variable {ls : List Line} {ns : List Node}

/-- **The statements with a block are those of the lines that open one.** -/
theorem Nested.map_openings (h : Nested ls ns) (hf : Flush ls) : ∀ start,
    (openingsFrom start ns).map (fun e => some e.1) = (openers ls).map Line.start? := by
  induction h with
  | nil =>
    intro start
    simp [openingsFrom, openers]
  | @blank l ls ns hb _ ih =>
    intro start
    rw [openingsFrom_append, openingsFrom_of_no_block _ _ (no_block_lead l), openers,
      if_neg (by simp [hb])]
    exact ih (fun m hm => hf m (by simp [hm])) start
  | @statement l ls own ns hb hc ho _ ih =>
    intro start
    rw [openingsFrom_append, openingsFrom_append, openingsFrom_of_no_block _ _ (no_block_lead l),
      openingsFrom_of_no_block _ own ho.no_block, openers, if_neg (by simp [hc])]
    exact ih (fun m hm => hf m (by simp [hm])) start
  | @block l ls inner outer cs ns n hb hc hne hi hn _ ihi ih =>
    intro start
    have hls : inner ++ outer = ls := append_of_cutBlock hc
    have hover := over_of_cutBlock hb hc hne
    obtain ⟨init, place, -, hplace, -, hk, -, hopen⟩ := exists_opener hn hover rfl (hf l (by simp))
    have hin := ihi (fun m hm => hf m (by simp [← hls, hm])) (spanOf cs).first
    have hout := ih (fun m hm => hf m (by simp [← hls, hm])) start
    have hopeners : openers (l :: ls) = l :: (openers inner ++ openers outer) := by
      rw [openers, if_pos ⟨hb, by rw [hc]; exact hne⟩, ← hls,
        openers_append hover.inner hover.after]
    rw [openingsFrom_append, openingsFrom_of_no_block _ _ (no_block_lead l), openingsFrom,
      if_neg (fun h => hk (is_eq_true.1 h)), hopen, hopeners]
    simp only [List.nil_append, List.cons_append, List.map_cons, List.map_append, hplace, hout,
      ← hin]
    rfl

end Lines

end TidySheet
