import TidySheet.Rule.Colons
import TidySheet.Rule.Inlining
import TidySheet.Rule.VendorAlign

/-!
# The rules there are, and the order in which they run

A registry holds rules in the order of their registration, one for each name. `Registry.ordered`
resolves names to rules: a rule comes before the one it names in `runBefore`, and among the rules
that nothing holds back the one registered first goes next.

* `names_putRule` : a rule registered again takes the place of the earlier one.
-/

set_option autoImplicit false

namespace TidySheet

/-- Replaces the rule with the name of `r`, or adds `r` behind all others. -/
def putRule (r : Rule) : List Rule → List Rule
  | [] => [r]
  | s :: rs => if s.name = r.name then r :: rs else s :: putRule r rs

theorem names_putRule (r : Rule) (rs : List Rule) :
    (putRule r rs).map Rule.name =
      if r.name ∈ rs.map Rule.name then rs.map Rule.name else rs.map Rule.name ++ [r.name] := by
  induction rs with
  | nil => simp [putRule]
  | cons s rs ih =>
    simp only [putRule]
    by_cases h : s.name = r.name
    · simp [h]
    · have h' : ¬ r.name = s.name := fun e => h e.symm
      simp only [h, if_false, List.map_cons, ih, List.mem_cons, h', false_or]
      split <;> simp

/-- The first rule that satisfies `p`, and all the others. -/
def takeFirst? (p : Rule → Bool) : List Rule → Option (Rule × List Rule)
  | [] => none
  | r :: rs =>
    if p r then some (r, rs)
    else
      match takeFirst? p rs with
      | some (found, rest) => some (found, r :: rest)
      | none => none

theorem length_takeFirst? {p : Rule → Bool} {rs rest : List Rule} {found : Rule}
    (h : takeFirst? p rs = some (found, rest)) : rest.length + 1 = rs.length := by
  induction rs generalizing rest with
  | nil => cases h
  | cons r rs ih =>
    simp only [takeFirst?] at h
    split at h
    · cases h
      rfl
    · split at h
      · next hc =>
        cases h
        simp [ih hc]
      · cases h

/-- Whether some rule of `rs` has to run before `r`. -/
def isBlocked (rs : List Rule) (r : Rule) : Bool :=
  rs.any fun s => s.runBefore == some r.name

/-- Places rule after rule, each time the first one that no other unplaced rule blocks. -/
def arrange (rs : List Rule) : Except RuleError (List Rule) :=
  match _h : takeFirst? (fun r => !isBlocked rs r) rs with
  | some (r, rest) => do
    let placed ← arrange rest
    return r :: placed
  | none => if rs.isEmpty then .ok [] else .error (.cycle (rs.map Rule.name))
  termination_by rs.length
  decreasing_by
    have := length_takeFirst? _h
    omega

structure Registry where
  rules : List Rule
  nodup : (rules.map Rule.name).Nodup

namespace Registry

def empty : Registry := ⟨[], .nil⟩

/-- Registers a rule; one with the same name makes room for it. -/
def register (g : Registry) (r : Rule) : Registry where
  rules := putRule r g.rules
  nodup := by
    rw [names_putRule]
    split
    · exact g.nodup
    · next h => exact List.nodup_append.2 ⟨g.nodup, by simp, by
        intro a ha b hb e
        rw [List.mem_singleton.1 hb] at e
        exact h (e ▸ ha)⟩

/-- The rules of this library. -/
def builtIn : Registry :=
  ((empty.register Colons.rule).register Inlining.rule).register VendorAlign.rule

def get? (g : Registry) (name : String) : Option Rule :=
  g.rules.find? fun r => r.name == name

def names (g : Registry) : List String := g.rules.map Rule.name

/-- The named rules in an order that keeps to every `runBefore` among them. -/
def ordered (g : Registry) (names : List String) : Except RuleError (List Rule) :=
  match names.find? (fun name => (g.get? name).isNone) with
  | some name => .error (.unknownRule name)
  | none => arrange (g.rules.filter fun r => names.contains r.name)

/-- The names that settings turn on: `false` turns a rule off, any other value has to be one that
the rule accepts. -/
def enabled (g : Registry) : List (String × Setting) → Except RuleError (List String)
  | [] => .ok []
  | (name, value) :: rest =>
    match g.get? name with
    | none => .error (.unknownRule name)
    | some r =>
      if value = .bool false then enabled g rest
      else if r.allows value then do
        let names ← enabled g rest
        return name :: names
      else .error (.invalidValue name value)

/-- The rules that settings turn on, in the order in which they run. -/
def configure (g : Registry) (settings : Settings) : Except RuleError (List Rule) := do
  let names ← g.enabled settings.entries
  g.ordered names

end Registry

end TidySheet
