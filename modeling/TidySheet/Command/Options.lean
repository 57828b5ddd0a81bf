/-!
# Options of the command

What a run is asked to do: its flags, the rules it is to run, the format of its report, where its
configuration is, and the paths that it is about.
-/

set_option autoImplicit false

namespace TidySheet.Args

inductive Flag where
  | check
  | fix
  | detect
  | verbose
  | json
  | noConfig
  | listRules
  deriving DecidableEq, Repr

structure Options where
  flags : List Flag
  rules : List String
  format : Option String
  config : Option String
  paths : List String
  deriving DecidableEq, Repr

def Options.none : Options := ⟨[], [], .none, .none, []⟩

def Options.has (o : Options) (f : Flag) : Bool := o.flags.contains f

end TidySheet.Args
