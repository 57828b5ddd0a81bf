import Mathlib.Data.List.Forall2
import TidySheet.Proofs.Verdicts

/-!
# Walks that splice what they visit

A visitor may take children out of the node that it gets and put others in. As long as it puts in no
node of the kind that it is called for, the walk ends: the visitor has then been called for the nodes
of that kind in the tree that is left, in their order and with their indices.

* `Node.Spliced`, `Node.SplicedBelow` — siblings and nodes after such a change;
* `Node.Call`, `Node.noting` — calls of a visitor, and the visitor that notes its calls;
* `Node.Walks` — walks with their calls, without a bound on the levels;
* `Node.reshapeWithin_visits` — a walk that changes a tree calls for what a walk that looks at the
  changed tree meets.
-/

set_option autoImplicit false

namespace TidySheet.Node

variable {σ : Type} {k : Kind} {visit : Visitor σ} {n m : Node} {ns cs : List Node}

/-! ## Splicing -/

/-- `Spliced k ns cs`: the siblings `cs` are `ns` with some of them taken out, and with new ones put
in which neither are of kind `k` nor hold a node of it. -/
inductive Spliced (k : Kind) : List Node → List Node → Prop
  | nil : Spliced k [] []
  | keep {n : Node} {ns cs : List Node} (h : Spliced k ns cs) : Spliced k (n :: ns) (n :: cs)
  | remove {n : Node} {ns cs : List Node} (h : Spliced k ns cs) : Spliced k (n :: ns) cs
  | insert {n : Node} {ns cs : List Node} (hn : n.All fun m => m.kind ≠ k)
      (h : Spliced k ns cs) : Spliced k ns (n :: cs)

/-- The node `m` is `n` with its children spliced. -/
structure SplicedBelow (k : Kind) (n m : Node) : Prop where
  kind_eq : m.kind = n.kind
  children : Spliced k n.children m.children

/-- A visitor that splices the children of the nodes of kind `k`. -/
def Splices (k : Kind) (visit : Visitor σ) : Prop :=
  ∀ i n s, n.kind = k → SplicedBelow k n (visit i n s).1

namespace Spliced

theorem refl (ns : List Node) : Spliced k ns ns := by
  induction ns with
  | nil => exact .nil
  | cons _ _ ih => exact .keep ih

theorem trans {ns cs ds : List Node} (h : Spliced k ns cs) (h' : Spliced k cs ds) :
    Spliced k ns ds := by
  induction h generalizing ds with
  | nil => exact h'
  | @keep n ns cs _ ih =>
    generalize hl : n :: cs = l at h'
    induction h' with
    | nil => cases hl
    | keep h' => cases hl; exact .keep (ih h')
    | remove h' => cases hl; exact .remove (ih h')
    | insert hn _ ih' => exact .insert hn (ih' hl)
  | remove _ ih => exact .remove (ih h')
  | @insert n ns cs hn _ ih =>
    generalize hl : n :: cs = l at h'
    induction h' with
    | nil => cases hl
    | keep h' => cases hl; exact .insert hn (ih h')
    | remove h' => cases hl; exact ih h'
    | insert hn' _ ih' => exact .insert hn' (ih' hl)

theorem of_sublist (h : cs.Sublist ns) : Spliced k ns cs := by
  induction h with
  | slnil => exact .nil
  | cons n _ ih => exact .remove ih
  | cons_cons n _ ih => exact .keep ih

theorem insert_at (hn : n.All fun n => n.kind ≠ k) :
    ∀ (i : Nat) (ns : List Node), Spliced k ns (ns.take i ++ n :: ns.drop i)
  | 0, ns => .insert hn (refl ns)
  | _ + 1, [] => .insert hn .nil
  | i + 1, _ :: ns => .keep (insert_at hn i ns)

end Spliced

theorem withChildren_children (n : Node) : n.withChildren n.children = n := by
  cases n <;> rfl

@[simp] theorem label_withChildren (n : Node) (cs : List Node) :
    (n.withChildren cs).label = n.label := by
  cases n <;> rfl

/-- New children come under a branch. A leaf takes none. -/
theorem children_withChildren (h : n.children = [] → cs = []) :
    (n.withChildren cs).children = cs := by
  cases n with
  | leaf l t => exact (h rfl).symm
  | branch l ns => rfl

namespace SplicedBelow

theorem trans {n m o : Node} (h : SplicedBelow k n m) (h' : SplicedBelow k m o) :
    SplicedBelow k n o :=
  ⟨h'.kind_eq.trans h.kind_eq, h.children.trans h'.children⟩

theorem withChildren (h : Spliced k n.children cs) : SplicedBelow k n (n.withChildren cs) := by
  cases n with
  | leaf l t => exact ⟨rfl, .nil⟩
  | branch l ns => exact ⟨rfl, h⟩

theorem filterChildren (p : Node → Bool) (n : Node) : SplicedBelow k n (n.filterChildren p) :=
  withChildren (.of_sublist List.filter_sublist)

theorem erase (i : Nat) (n : Node) : SplicedBelow k n (n.erase i) :=
  withChildren (.of_sublist (List.eraseIdx_sublist ..))

theorem insert (hm : m.All fun m => m.kind ≠ k) (i : Nat) (n : Node) :
    SplicedBelow k n (n.insert i m) :=
  withChildren (.insert_at hm i n.children)

end SplicedBelow

/-! ## Calls -/

/-- A call of a visitor: the index that it got, and the node and the state that it left. -/
structure Call (σ : Type) where
  index : Nat
  node : Node
  state : σ

/-- The visitor, with a note of each call behind the notes so far. -/
def noting (visit : Visitor σ) : Visitor (σ × List (Call σ)) := fun i n noted =>
  let (m, s) := visit i n noted.1
  (m, s, noted.2 ++ [⟨i, m, s⟩])

/-- What a walk goes on with at a node: what the visitor left if it was called, or the node. -/
def called (k : Kind) (visit : Visitor σ) (i : Nat) (n : Node) (s : σ) : Node × σ :=
  if n.is k then visit i n s else (n, s)

theorem called_noting (i : Nat) (n : Node) (noted : σ × List (Call σ)) :
    ((called k (noting visit) i n noted).1, (called k (noting visit) i n noted).2.1) =
      called k visit i n noted.1 := by
  unfold called
  split <;> rfl

theorem reshapeAll_nil (levels i : Nat) (s : σ) :
    reshapeAll k visit levels i [] s = some ([], s) := by
  rw [reshapeAll]

/-- One node of a walk that ends: the walk goes on below what is left of it, and then beside it. -/
theorem reshapeAll_cons_eq_some {levels i : Nat} {s s' : σ} :
    reshapeAll k visit (levels + 1) i (n :: ns) s = some (cs, s') ↔
      ∃ m s₀ below s₁ rest, called k visit i n s = (m, s₀) ∧
        reshapeAll k visit levels 0 m.children s₀ = some (below, s₁) ∧
        reshapeAll k visit (levels + 1) (i + 1) ns s₁ = some (rest, s') ∧
        cs = m.withChildren below :: rest := by
  rw [reshapeAll, ← called]
  obtain ⟨m, s₀⟩ := called k visit i n s
  constructor
  · intro h
    dsimp only at h
    split at h
    · cases h
    · next below s₁ hbelow =>
      split at h
      · cases h
      · next rest s₂ hrest =>
        cases h
        exact ⟨m, s₀, below, s₁, rest, rfl, hbelow, hrest, rfl⟩
  · rintro ⟨_, _, below, s₁, rest, ⟨rfl, rfl⟩, hbelow, hrest, rfl⟩
    simp only [hbelow, hrest]

/-- A walk that notes its calls does what it does without the notes. -/
theorem reshapeAll_of_noting {levels i : Nat} {noted noted' : σ × List (Call σ)}
    (h : reshapeAll k (noting visit) levels i ns noted = some (cs, noted')) :
    reshapeAll k visit levels i ns noted.1 = some (cs, noted'.1) := by
  induction levels generalizing i ns noted cs noted' with
  | zero =>
    cases ns with
    | nil =>
      rw [reshapeAll_nil] at h ⊢
      cases h
      rfl
    | cons n ns => simp [reshapeAll] at h
  | succ levels ih =>
    induction ns generalizing i noted cs noted' with
    | nil =>
      rw [reshapeAll_nil] at h ⊢
      cases h
      rfl
    | cons n ns ihns =>
      obtain ⟨m, noted₀, below, noted₁, rest, hm, hbelow, hrest, rfl⟩ :=
        reshapeAll_cons_eq_some.1 h
      have hcalled : called k visit i n noted.1 = (m, noted₀.1) := by
        rw [← called_noting, hm]
      exact reshapeAll_cons_eq_some.2
        ⟨m, noted₀.1, below, noted₁.1, rest, hcalled, ih hbelow, ihns hrest, rfl⟩

/-! ## Walks -/

/-- `Walks k visit i ns s cs calls s'`: a walk through the siblings `ns` and below them, the first of
which has index `i`, makes the calls and leaves `cs`, while the state goes from `s` to `s'`. -/
inductive Walks (k : Kind) (visit : Visitor σ) :
    Nat → List Node → σ → List Node → List (Call σ) → σ → Prop
  | nil {i : Nat} {s : σ} : Walks k visit i [] s [] [] s
  | call {i : Nat} {n m : Node} {ns below cs : List Node} {calls calls' : List (Call σ)}
      {s s₀ s₁ s' : σ} (hn : n.kind = k) (hm : visit i n s = (m, s₀))
      (inner : Walks k visit 0 m.children s₀ below calls s₁)
      (rest : Walks k visit (i + 1) ns s₁ cs calls' s') :
      Walks k visit i (n :: ns) s (m.withChildren below :: cs) (⟨i, m, s₀⟩ :: (calls ++ calls')) s'
  | pass {i : Nat} {n : Node} {ns below cs : List Node} {calls calls' : List (Call σ)}
      {s s₁ s' : σ} (hn : n.kind ≠ k) (inner : Walks k visit 0 n.children s below calls s₁)
      (rest : Walks k visit (i + 1) ns s₁ cs calls' s') :
      Walks k visit i (n :: ns) s (n.withChildren below :: cs) (calls ++ calls') s'

/-- The walk from `tree` and `s` ends, and it ends with `tree'` and `s'`. It goes down no more levels
than `tree'` has. -/
def Reshapes (k : Kind) (visit : Visitor σ) (tree : Node) (s : σ) (tree' : Node) (s' : σ) : Prop :=
  ∀ levels, tree'.depth ≤ levels → reshapeWithin k visit levels tree s = some (tree', s')

namespace Walks

mutual

theorem of_free_below (s : σ) : ∀ n : Node, (n.All fun m => m.kind ≠ k) →
    Walks k visit 0 n.children s n.children [] s
  | .leaf _ _, _ => .nil
  | .branch _ cs, h => of_free s 0 cs h.children

/-- A walk through trees without a node of the kind leaves them alone and makes no call. -/
theorem of_free (s : σ) (i : Nat) : ∀ ns : List Node, AllOf (fun m => m.kind ≠ k) ns →
    Walks k visit i ns s ns [] s
  | [], _ => .nil
  | n :: ns, h => by
    obtain ⟨hn, hns⟩ := (allOf_cons n ns).1 h
    have hwalk := Walks.pass hn.self (of_free_below s n hn) (of_free s (i + 1) ns hns)
    rwa [withChildren_children] at hwalk

end

/-- A walk ends among spliced siblings, if it ends below each of those that were there before: what
was put in it passes. -/
theorem total {i : Nat} {s : σ} (h : Spliced k ns cs)
    (hns : ∀ n ∈ ns, ∀ ds, Spliced k n.children ds → ∀ s, ∃ ds' calls s',
      Walks k visit 0 ds s ds' calls s')
    (hv : Splices k visit) : ∃ cs' calls s', Walks k visit i cs s cs' calls s' := by
  induction h generalizing i s with
  | nil => exact ⟨[], [], s, .nil⟩
  | @keep n ns cs _ ih =>
    obtain ⟨hn, hns⟩ := List.forall_mem_cons.1 hns
    by_cases hk : n.kind = k
    · obtain ⟨below, calls, s₁, hbelow⟩ := hn _ (hv i n s hk).children (visit i n s).2
      obtain ⟨rest, calls', s', hrest⟩ := @ih (i + 1) s₁ hns
      exact ⟨_, _, s', .call hk rfl hbelow hrest⟩
    · obtain ⟨below, calls, s₁, hbelow⟩ := hn _ (.refl n.children) s
      obtain ⟨rest, calls', s', hrest⟩ := @ih (i + 1) s₁ hns
      exact ⟨_, _, s', .pass hk hbelow hrest⟩
  | remove _ ih => exact ih (List.forall_mem_cons.1 hns).2
  | @insert m ns cs hm _ ih =>
    obtain ⟨rest, calls, s', hrest⟩ := @ih (i + 1) s hns
    exact ⟨_, _, s', .pass hm.self (of_free_below s m hm) hrest⟩

/-- **A walk of a visitor that splices ends.** A visitor may be given what another call has left, but
the nodes it is called for have all been in the tree, so the induction is on the tree as it was. -/
theorem total_below (hv : Splices k visit) (n : Node) : ∀ cs, Spliced k n.children cs → ∀ s,
    ∃ cs' calls s', Walks k visit 0 cs s cs' calls s' := by
  induction n using inductionOnChildren with
  | leaf l t => exact fun cs h s => total h (fun _ hn => by cases hn) hv
  | branch l ns ih => exact fun cs h s => total h ih hv

theorem children_withChildren {calls : List (Call σ)} {s s' : σ}
    (h : Walks k visit 0 n.children s cs calls s') : (n.withChildren cs).children = cs := by
  apply Node.children_withChildren
  intro hn
  rw [hn] at h
  cases h
  rfl

theorem depth_withChildren {calls : List (Call σ)} {s s' : σ}
    (h : Walks k visit 0 n.children s cs calls s') : (n.withChildren cs).depth = depthOf cs := by
  rw [depth_eq, h.children_withChildren]

/-- **A walk that notes its calls** needs no more levels than what it leaves has. -/
theorem reshapeAll_eq {i levels : Nat} {calls : List (Call σ)} {s s' : σ}
    (h : Walks k visit i ns s cs calls s') (log : List (Call σ)) (hlevels : depthOf cs ≤ levels) :
    reshapeAll k (noting visit) levels i ns (s, log) = some (cs, s', log ++ calls) := by
  induction h generalizing levels log with
  | nil => rw [reshapeAll_nil, List.append_nil]
  | @call i n m ns below cs calls calls' s s₀ s₁ s' hn hm inner rest ihinner ihrest =>
    rw [depthOf, inner.depth_withChildren] at hlevels
    obtain ⟨levels, rfl⟩ : ∃ l, levels = l + 1 := ⟨levels - 1, by omega⟩
    have hbelow := ihinner (log ++ [⟨i, m, s₀⟩]) (by omega : depthOf below ≤ levels)
    have hrest := ihrest (log ++ [⟨i, m, s₀⟩] ++ calls) (by omega : depthOf cs ≤ levels + 1)
    refine reshapeAll_cons_eq_some.2 ⟨m, _, below, _, cs, ?_, hbelow, ?_, rfl⟩
    · rw [called, if_pos (is_eq_true.2 hn), noting, hm]
    · rw [hrest, List.append_assoc, List.append_assoc, List.singleton_append]
  | @pass i n ns below cs calls calls' s s₁ s' hn inner rest ihinner ihrest =>
    rw [depthOf, inner.depth_withChildren] at hlevels
    obtain ⟨levels, rfl⟩ : ∃ l, levels = l + 1 := ⟨levels - 1, by omega⟩
    have hbelow := ihinner log (by omega : depthOf below ≤ levels)
    have hrest := ihrest (log ++ calls) (by omega : depthOf cs ≤ levels + 1)
    refine reshapeAll_cons_eq_some.2 ⟨n, _, below, _, cs, ?_, hbelow, ?_, rfl⟩
    · rw [called, if_neg fun h => hn (is_eq_true.1 h)]
    · rw [hrest, List.append_assoc]

theorem reshapes_noting {calls : List (Call σ)} {s s' : σ}
    (h : Walks k visit 0 n.children s cs calls s') (log : List (Call σ)) :
    Reshapes k (noting visit) n (s, log) (n.withChildren cs) (s', log ++ calls) := by
  intro levels hlevels
  rw [h.depth_withChildren] at hlevels
  rw [reshapeWithin, h.reshapeAll_eq log hlevels]
  rfl

theorem reshapes {calls : List (Call σ)} {s s' : σ}
    (h : Walks k visit 0 n.children s cs calls s') :
    Reshapes k visit n s (n.withChildren cs) s' := by
  intro levels hlevels
  rw [h.depth_withChildren] at hlevels
  rw [reshapeWithin, reshapeAll_of_noting (h.reshapeAll_eq [] hlevels)]
  rfl

/-- **The calls of a walk** are for the nodes of the kind that it leaves. -/
theorem forall₂_visits (hv : Splices k visit) {i : Nat} {calls : List (Call σ)} {s s' : σ}
    (h : Walks k visit i ns s cs calls s') (parent : Node) :
    List.Forall₂ (fun call v => call.index = v.index ∧
      ∃ s', Reshapes k visit call.node call.state v.node s') calls
        ((visitsFrom parent i cs).filter (·.node.is k)) := by
  induction h generalizing parent with
  | nil =>
    rw [visitsFrom]
    exact .nil
  | @call i n m ns below cs calls calls' s s₀ s₁ s' hn hm inner rest ihinner ihrest =>
    have hkind : m.kind = k := by
      have hspliced := hv i n s hn
      rw [hm] at hspliced
      exact hspliced.kind_eq.trans hn
    rw [visitsFrom, List.filter_cons_of_pos, List.filter_append, visits_eq,
      inner.children_withChildren]
    · exact .cons ⟨rfl, s₁, inner.reshapes⟩ (List.rel_append (ihinner _) (ihrest parent))
    · rw [is_eq_true, kind, label_withChildren]
      exact hkind
  | @pass i n ns below cs calls calls' s s₁ s' hn inner rest ihinner ihrest =>
    rw [visitsFrom, List.filter_cons_of_neg, List.filter_append, visits_eq,
      inner.children_withChildren]
    · exact List.rel_append (ihinner _) (ihrest parent)
    · rw [is_eq_true, kind, label_withChildren]
      exact hn

theorem forall₂_visitsOfKind (hv : Splices k visit) {calls : List (Call σ)} {s s' : σ}
    (h : Walks k visit 0 n.children s cs calls s') :
    List.Forall₂ (fun call v => call.index = v.index ∧
      ∃ s', Reshapes k visit call.node call.state v.node s') calls
        ((n.withChildren cs).visitsOfKind k) := by
  rw [visitsOfKind, visits_eq, h.children_withChildren]
  exact h.forall₂_visits hv _

end Walks

/-- **Changing and looking agree.** The walk of a visitor that splices what it is called for ends. It
has called the visitor for the nodes of the kind in the tree that it leaves, in the order in which a
walk that looks at that tree meets them and with the same indices; and what is met is what the
visitor left, with the walk gone on below it. -/
theorem reshapeWithin_visits (hv : Splices k visit) (tree : Node) (s : σ) :
    ∃ tree' s' calls, Reshapes k visit tree s tree' s' ∧
      Reshapes k (noting visit) tree (s, []) tree' (s', calls) ∧
      calls.map Call.index = (tree'.visitsOfKind k).map Visit.index ∧
      List.Forall₂ (fun call v => ∃ s', Reshapes k visit call.node call.state v.node s')
        calls (tree'.visitsOfKind k) := by
  obtain ⟨cs, calls, s', hwalk⟩ := Walks.total_below hv tree tree.children (.refl _) s
  have hvisits := hwalk.forall₂_visitsOfKind hv
  refine ⟨tree.withChildren cs, s', calls, hwalk.reshapes, hwalk.reshapes_noting [], ?_, ?_⟩
  · rw [← List.forall₂_eq_eq_eq, List.forall₂_map_left_iff, List.forall₂_map_right_iff]
    exact hvisits.imp fun _ _ h => h.1
  · exact hvisits.imp fun _ _ h => h.2

/-- Puts a line break in place of the whitespace in a block, and counts the blocks. -/
def breakInside : Visitor Nat := fun _ block count =>
  ((block.filterChildren (!·.is .space)).insert 0 (ofSpace block.dialect ['\n']), count + 1)

theorem splices_breakInside : Splices .block breakInside := by
  intro i n s _
  have hspace : (ofSpace n.dialect ['\n']).All fun m => m.kind ≠ .block :=
    (all_leaf _ _).2 fun h : Kind.space = .block => by cases h
  exact (SplicedBelow.filterChildren _ n).trans (.insert hspace 0 _)

/-- A block in a block, with whitespace in both. -/
def nestedBlocks : Node :=
  .ofChildren .stylesheet .css [.ofChildren .block .css [.ofText .ident .css ['a'],
    .ofChildren .block .css [.ofSpace .css [' '], .ofText .ident .css ['b']],
    .ofSpace .css ['\n']]]

example : (nestedBlocks.reshapeWithin .block breakInside 3 0).map (fun r => (r.1.chars, r.2)) =
    some ("\x7b\na\x7b\nb\x7d\x7d".toList, 2) := by
  cbv

theorem reshapeWithin_visits_breakInside : Splices .block breakInside ∧
    ∃ tree' s' calls, Reshapes .block breakInside nestedBlocks 0 tree' s' ∧
      Reshapes .block (noting breakInside) nestedBlocks (0, []) tree' (s', calls) ∧
      calls.map Call.index = (tree'.visitsOfKind .block).map Visit.index ∧
      List.Forall₂ (fun call v => ∃ s', Reshapes .block breakInside call.node call.state v.node s')
        calls (tree'.visitsOfKind .block) :=
  ⟨splices_breakInside, reshapeWithin_visits splices_breakInside nestedBlocks 0⟩

end TidySheet.Node
