import TidySheet.Node.Walk
import TidySheet.Parse.Sheet
import TidySheet.Proofs.Items
import TidySheet.Proofs.Nesting

/-!
# Parsing loses nothing

* `parsed_of_parseChars` — what a parsed tree was made from: tokens that spell the text, and nodes
  read from them;
* `chars_of_parseChars` — a parsed tree prints its text;
* `sound_of_parseChars` — every node of a parsed tree has the form of its kind.
-/

set_option autoImplicit false

namespace TidySheet

variable {d : Dialect}

/-- What a parsed tree was made from. -/
structure Parsed (d : Dialect) (source : List Char) (tree : Node) (ts : List Token)
    (ns : List Node) : Prop where
  tokens_eq : tokens d .origin source = .ok ts
  nodes_eq : sheetNodes d ts = .ok ns
  tree_eq : tree = .ofChildren .stylesheet d ns
  spelled : ∀ t ∈ ts, t.Spelled
  reading : Reading d ts ns

theorem reading_sheetNodes {ts : List Token} {ns : List Node} (h : sheetNodes d ts = .ok ns) :
    Reading d ts ns := by
  unfold sheetNodes at h
  split at h
  · rename_i hd
    exact Braces.reading_nodes hd h
  · rename_i hd
    have hsass : d = .sass := by simpa [Dialect.usesBraces] using hd
    rw [hsass]
    exact Lines.reading_nodes h

theorem kind_ne_of_sheetNodes {ts : List Token} {ns : List Node} (h : sheetNodes d ts = .ok ns) :
    ∀ n ∈ ns, n.kind ≠ .propertyDelimiter := by
  unfold sheetNodes at h
  split at h
  · cases Braces.nodes_eq_ok.1 h with
    | intro hi _ ho =>
      intro n hn
      rcases List.mem_append.1 hn with hn | hn
      · exact hi.kind_ne n hn
      · exact ho.kind_ne n hn
  · exact (Lines.nodesOf_eq_ok.1 h).kind_ne

theorem parsed_of_parseChars {source : List Char} {tree : Node}
    (h : parseChars d source = .ok tree) : ∃ ts ns, Parsed d source tree ts ns := by
  obtain ⟨ts, ht, h⟩ := bind_eq_ok.1 h
  obtain ⟨ns, hn, h⟩ := bind_eq_ok.1 h
  cases h
  exact ⟨ts, ns, ht, hn, rfl, tokens_spelled ts ht, reading_sheetNodes hn⟩

namespace Node

theorem chars_of_stylesheet {l : Label} (hl : l.kind = .stylesheet) (ns : List Node) :
    (branch l ns).chars = charsOf ns := by
  simp [chars, branchMarks, hl]

theorem mapBlocks_branch (f : Node → Node) (l : Label) (ns : List Node) :
    (branch l ns).mapBlocks f = .branch l (ns.map (mapBlock f)) := by
  rw [mapBlocks, withChildren, children, mapBlocksOf_eq_map]

end Node

namespace Parsed

variable {source : List Char} {tree : Node} {ts : List Token} {ns : List Node}

theorem charsOf_eq (hp : Parsed d source tree ts ns) : Node.charsOf ns = source := by
  rw [hp.reading.charsOf_eq hp.spelled, textOf_tokens d .origin source ts hp.tokens_eq]

theorem chars_mapBlocks (hp : Parsed d source tree ts ns) (f : Node → Node) :
    (tree.mapBlocks f).chars = Node.charsOf (ns.map (Node.mapBlock f)) := by
  rw [hp.tree_eq, Node.ofChildren, Node.mapBlocks_branch]
  exact Node.chars_of_stylesheet rfl _

end Parsed

/-- A parsed tree prints the text that it was parsed from. -/
theorem chars_of_parseChars {source : List Char} {tree : Node}
    (h : parseChars d source = .ok tree) : tree.chars = source := by
  obtain ⟨ts, ns, hp⟩ := parsed_of_parseChars h
  rw [hp.tree_eq, Node.ofChildren, Node.chars_of_stylesheet rfl, hp.charsOf_eq]

/-- Every node of a parsed tree has the form of its kind. -/
theorem sound_of_parseChars {source : List Char} {tree : Node}
    (h : parseChars d source = .ok tree) : tree.All (Node.Sound d) := by
  obtain ⟨ts, ns, hp⟩ := parsed_of_parseChars h
  rw [hp.tree_eq]
  exact (Node.all_branch _ _).2 ⟨Node.sound_ofChildren rfl (by decide) (by decide)
    (kind_ne_of_sheetNodes hp.nodes_eq), hp.reading.sound hp.spelled⟩

/-- **Parsing is lossless**: whatever the dialect, a parsed tree is written back as the text that
it was parsed from, character for character. -/
theorem render_of_parse (d : Dialect) (source : String) (tree : Node)
    (h : parse d source = .ok tree) : tree.render = source := by
  rw [Node.render, chars_of_parseChars h, String.ofList_toList]

/-- A sheet with trivia at every joint, a nested block and a group in a value. -/
def nestedSheet : String := "a /*b*/\x7b &:c\x7b d :f( (1) )! important ;\x7d // e\n\x7d"

theorem render_of_parse_nested :
    ∃ tree, parse .scss nestedSheet = .ok tree ∧ tree.render = nestedSheet := by
  have hok : ((parse .scss nestedSheet).toOption).isSome := by decide +kernel
  cases h : parse .scss nestedSheet with
  | error e => rw [h] at hok; cases hok
  | ok tree => exact ⟨tree, rfl, render_of_parse _ _ _ h⟩

end TidySheet
