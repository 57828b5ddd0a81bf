import TidySheet.Rule.Registry

/-!
# Running rules over a stylesheet

A tidier holds rules in the order in which they run. It reads a text once, lets every rule for the
text's dialect reshape the tree, and writes the tree out. Votes of all rules on a text can be turned
into settings that describe the style the text is written in.
-/

set_option autoImplicit false

namespace TidySheet

structure Tidier where
  rules : List Rule

/-- A tidied text, and the rules that changed it in the order in which they ran. -/
structure Tidied where
  output : String
  changedBy : List String
  deriving DecidableEq, Repr

def Tidied.hasChanges (t : Tidied) : Bool := !t.changedBy.isEmpty

namespace Tidier

/-- The rules that settings turn on. -/
def ofSettings (settings : Settings) : Except RuleError Tidier := do
  let rules ← Registry.builtIn.configure settings
  return ⟨rules⟩

/-- All rules of the library. -/
def full : Except RuleError Tidier := do
  let rules ← Registry.builtIn.ordered Registry.builtIn.names
  return ⟨rules⟩

def ruleNames (t : Tidier) : List String := t.rules.map Rule.name

/-- Runs the rules that are for the dialect `d`, one after the other. The result is the tree as the
last rule left it, also when a rule fails, and the names of the rules that changed its text. -/
def runRules (d : Dialect) : List Rule → Node → Node × Except RuleError (List String)
  | [], tree => (tree, .ok [])
  | r :: rs, tree =>
    if r.supports d then
      match r.process tree with
      | .error e => (tree, .error e)
      | .ok next =>
        match runRules d rs next with
        | (last, .error e) => (last, .error e)
        | (last, .ok names) =>
          (last, .ok (if next.chars = tree.chars then names else r.name :: names))
    else runRules d rs tree

def processTree (t : Tidier) (tree : Node) : Node × Except RuleError (List String) :=
  runRules tree.dialect t.rules tree

/-- Reads, tidies and writes a text. -/
def tidy (t : Tidier) (d : Dialect) (source : String) : Except RuleError Tidied :=
  match parse d source with
  | .error cause => .error (.parse cause)
  | .ok tree =>
    match t.processTree tree with
    | (_, .error e) => .error e
    | (tree, .ok names) => .ok ⟨tree.render, names⟩

end Tidier

/-! ## Votes -/

/-- The votes of rules, by their names. -/
abbrev Votes := NameMap (List Bool)

namespace Votes

/-- The votes of those of `rules` that are for the tree's dialect, put into `votes`. -/
def collect (tree : Node) (votes : Votes) : List Rule → Except RuleError Votes
  | [] => .ok votes
  | r :: rs =>
    if r.supports tree.dialect then
      match r.detect tree with
      | .error e => .error e
      | .ok vs => collect tree (votes.insert r.name vs) rs
    else collect tree votes rs

/-- The votes of all rules of the library on a tree. -/
def ofTree (tree : Node) : Except RuleError Votes :=
  collect tree .empty Registry.builtIn.rules

def ofSource (d : Dialect) (source : String) : Except RuleError Votes :=
  match parse d source with
  | .error cause => .error (.parse cause)
  | .ok tree => ofTree tree

/-- Adds votes behind those already cast. -/
def append (votes more : Votes) : Votes :=
  more.entries.foldl (fun votes (name, vs) => votes.insert name ((votes.get? name).getD [] ++ vs))
    votes

/-- Settings that follow the votes: a rule is on if more votes are for it than against it, off if
not, and left out without votes. -/
def settings (votes : Votes) : Settings :=
  .ofList (votes.entries.filterMap fun (name, vs) =>
    if vs.isEmpty then none else some (name, .bool (vs.count false < vs.count true)))

end Votes

end TidySheet
