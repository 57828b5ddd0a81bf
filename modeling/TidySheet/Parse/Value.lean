import TidySheet.ParseError
import TidySheet.Parse.Leaf

/-!
# Values

A value is a sequence of leaves, functions and groups in parentheses. Tokens become pieces first: a
name that a parenthesis follows opens a function, and an exclamation mark with `important` behind it
is one leaf. Then a fold over the pieces keeps the groups that are still open on a stack.
-/

set_option autoImplicit false

namespace TidySheet

namespace Token

def isImportantWord (t : Token) : Bool :=
  t.kind == .ident && t.text.map Char.toLower == "important".toList

def unexpected (t : Token) : ParseError := .unexpected t.text t.span.first

def unclosed (what : Enclosure) (t : Token) : ParseError := .unclosed what t.span.first

end Token

namespace Value

inductive Piece where
  | leaf (node : Node)
  /-- A parenthesis, with the name before it if it opens a function. -/
  | opening (name : Option Token) (paren : Token)
  | closing (paren : Token)

def pieces (d : Dialect) : List Token → List Piece
  | [] => []
  | t :: ts =>
    match t.kind with
    | .leftParen => .opening none t :: pieces d ts
    | .rightParen => .closing t :: pieces d ts
    | .ident =>
      match ts with
      | u :: us =>
        if u.kind = .leftParen then .opening (some t) u :: pieces d us
        else .leaf (t.leaf d) :: pieces d (u :: us)
      | [] => [.leaf (t.leaf d)]
    | .delim '!' =>
      match ts with
      | u :: us =>
        if u.isImportantWord then .leaf (Token.joined .important d [t, u]) :: pieces d us
        else if u.kind = .whitespace then
          match us with
          | v :: vs =>
            if v.isImportantWord then .leaf (Token.joined .important d [t, u, v]) :: pieces d vs
            else .leaf (t.leaf d) :: pieces d (u :: v :: vs)
          | [] => .leaf (t.leaf d) :: pieces d [u]
        else .leaf (t.leaf d) :: pieces d (u :: us)
      | [] => [.leaf (t.leaf d)]
    | _ => .leaf (t.leaf d) :: pieces d ts

/-- A group whose closing parenthesis is still to come, and the nodes before it, last first. -/
structure Group where
  name : Option Token
  paren : Token
  before : List Node

/-- The node of a group, once its closing parenthesis is there. -/
def Group.close (d : Dialect) (g : Group) (inner : List Node) (paren : Token) : Node :=
  let span := ⟨g.paren.span.first, paren.span.last⟩
  match g.name with
  | none => .branch ⟨.parentheses, d, span⟩ inner
  | some name => .ofChildren .function d [name.leaf d, .branch ⟨.arguments, d, span⟩ inner]

/-- The open groups, innermost first, and the nodes of the innermost one, last first. -/
structure State where
  groups : List Group
  nodes : List Node

def State.start : State := ⟨[], []⟩

def State.step (d : Dialect) (s : State) : Piece → Except ParseError State
  | .leaf n => .ok ⟨s.groups, n :: s.nodes⟩
  | .opening name paren => .ok ⟨⟨name, paren, s.nodes⟩ :: s.groups, []⟩
  | .closing paren =>
    match s.groups with
    | [] => .error paren.unexpected
    | g :: gs => .ok ⟨gs, g.close d s.nodes.reverse paren :: g.before⟩

def State.finish (s : State) : Except ParseError (List Node) :=
  match s.groups with
  | [] => .ok s.nodes.reverse
  | g :: _ => .error (g.paren.unclosed .parentheses)

/-- The nodes of a value. -/
def nodes (d : Dialect) (ts : List Token) : Except ParseError (List Node) := do
  let s ← (pieces d ts).foldlM (State.step d) .start
  s.finish

end Value

end TidySheet
