import TidySheet.Node.Basic

/-!
# Finding and changing children

Direct children by kind and by index, and nodes by their path of indices from the root. Leaves have
no child list: looking finds nothing there and changes leave them alone.
-/

set_option autoImplicit false

namespace TidySheet.Node

/-! ## Direct children -/

/-- The children of a kind, each with its index. -/
def childrenOfKind (k : Kind) (n : Node) : List (Nat × Node) :=
  n.children.zipIdx.filterMap fun (c, i) => if c.is k then some (i, c) else none

def first? (k : Kind) (n : Node) : Option Node :=
  n.children.find? (·.is k)

def firstIndex? (k : Kind) (n : Node) : Option Nat :=
  n.children.findIdx? (·.is k)

def lastIndex? (k : Kind) (n : Node) : Option Nat :=
  (n.childrenOfKind k).getLast?.map (·.1)

/-- Puts a child before the one at `index`, or behind all of them if there is none. -/
def insert (n : Node) (index : Nat) (child : Node) : Node :=
  n.withChildren (n.children.take index ++ child :: n.children.drop index)

/-- Takes the child at `index` out. -/
def erase (index : Nat) (n : Node) : Node :=
  n.withChildren (n.children.eraseIdx index)

def filterChildren (p : Node → Bool) (n : Node) : Node :=
  n.withChildren (n.children.filter p)

def setText (text : List Char) : Node → Node
  | .leaf l _ => .leaf l text
  | .branch l cs => .branch l cs

def appendText (more : List Char) : Node → Node
  | .leaf l t => .leaf l (t ++ more)
  | .branch l cs => .branch l cs

def setDialect (d : Dialect) (n : Node) : Node :=
  n.withLabel { n.label with dialect := d }

def setSpan (s : Span) (n : Node) : Node :=
  n.withLabel { n.label with span := s }

@[simp] theorem charsOf_insert (index : Nat) (l : Label) (child : Node) (cs : List Node) :
    charsOf (insert (.branch l cs) index child).children =
      charsOf (cs.take index) ++ child.chars ++ charsOf (cs.drop index) := by
  simp [insert, withChildren, children]

/-! ## Cutting a child list at a child -/

/-- The children before the first one that satisfies `p`, that child, and the ones behind it. -/
def cutFirst? (p : Node → Bool) : List Node → Option (List Node × Node × List Node)
  | [] => none
  | n :: ns =>
    if p n then some ([], n, ns)
    else (cutFirst? p ns).map fun (before, found, behind) => (n :: before, found, behind)

/-- The children before the last one that satisfies `p`, that child, and the ones behind it. -/
def cutLast? (p : Node → Bool) : List Node → Option (List Node × Node × List Node)
  | [] => none
  | n :: ns =>
    match cutLast? p ns with
    | some (before, found, behind) => some (n :: before, found, behind)
    | none => if p n then some ([], n, ns) else none

theorem eq_of_cutFirst? {p : Node → Bool} {ns before behind : List Node} {found : Node}
    (h : cutFirst? p ns = some (before, found, behind)) : ns = before ++ found :: behind := by
  induction ns generalizing before with
  | nil => simp [cutFirst?] at h
  | cons n ns ih =>
    simp only [cutFirst?] at h
    split at h
    · simp only [Option.some.injEq, Prod.mk.injEq] at h
      obtain ⟨rfl, rfl, rfl⟩ := h
      rfl
    · obtain ⟨⟨b, f, a⟩, hc, he⟩ := Option.map_eq_some_iff.1 h
      simp only [Prod.mk.injEq] at he
      obtain ⟨rfl, rfl, rfl⟩ := he
      simp [ih hc]

theorem eq_of_cutLast? {p : Node → Bool} {ns before behind : List Node} {found : Node}
    (h : cutLast? p ns = some (before, found, behind)) : ns = before ++ found :: behind := by
  induction ns generalizing before with
  | nil => simp [cutLast?] at h
  | cons n ns ih =>
    simp only [cutLast?] at h
    split at h
    · next b f a hc =>
      simp only [Option.some.injEq, Prod.mk.injEq] at h
      obtain ⟨rfl, rfl, rfl⟩ := h
      simp [ih hc]
    · split at h
      · simp only [Option.some.injEq, Prod.mk.injEq] at h
        obtain ⟨rfl, rfl, rfl⟩ := h
        rfl
      · cases h

/-! ## Nodes by path -/

/-- The node that a path of child indices leads to. -/
def at? : List Nat → Node → Option Node
  | [], n => some n
  | i :: path, n => n.children[i]?.bind (at? path)

/-- Changes the node that a path leads to. -/
def modifyAt? (f : Node → Node) : List Nat → Node → Option Node
  | [], n => some (f n)
  | i :: path, n =>
    n.children[i]?.bind fun c =>
      (modifyAt? f path c).map fun c => n.withChildren (n.children.set i c)

end TidySheet.Node
