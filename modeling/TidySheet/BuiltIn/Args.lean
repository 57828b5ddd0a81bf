import TidySheet.Command.Options

/-!
# Arguments of the command

Options may stand before and behind paths, short flags may share a dash, and two dashes end the
options. Each option but `--rule` may be given once. One way to fill in
`Services.arguments`.

* `Args.parse` reads arguments into options, or says what is wrong with them.
-/

set_option autoImplicit false

namespace TidySheet.Args

/-- An option with a value. -/
inductive Setter where
  | rule
  | format
  | config
  deriving DecidableEq, Repr

inductive ArgError where
  | unknown (arg : String)
  | unexpectedValue (arg : String)
  | missingValue (option : Setter)
  | repeatedFlag (flag : Flag)
  | repeatedOption (option : Setter)
  | emptyPath
  | conflict
  | noPaths
  deriving DecidableEq, Repr

def Flag.name : Flag → String
  | .check => "--check"
  | .fix => "--fix"
  | .detect => "--detect"
  | .verbose => "--verbose"
  | .json => "--json"
  | .noConfig => "--no-config"
  | .listRules => "--list-rules"

def Setter.name : Setter → String
  | .rule => "--rule"
  | .format => "--format"
  | .config => "--config"

def ArgError.message : ArgError → String
  | .unknown arg => s!"unexpected argument '{arg}' found"
  | .unexpectedValue arg => s!"unexpected value in '{arg}'"
  | .missingValue option => s!"a value is required for '{option.name}'"
  | .repeatedFlag flag => s!"'{flag.name}' cannot be used multiple times"
  | .repeatedOption option => s!"'{option.name}' cannot be used multiple times"
  | .emptyPath => "a path cannot be empty"
  | .conflict => "these options cannot be used together"
  | .noPaths => "paths are required"

inductive Request where
  | version
  | run (options : Options)
  deriving DecidableEq, Repr

/-! ## One argument -/

/-- What an option asks for behind its flags. -/
inductive Tail where
  | done
  | version
  | value (option : Setter) (value : String)
  /-- The next argument is the value. -/
  | next (option : Setter)
  deriving DecidableEq, Repr

inductive Arg where
  | path (text : String)
  /-- Only paths follow. -/
  | separator
  | options (flags : List Flag) (tail : Tail)
  deriving DecidableEq, Repr

def flagNamed? : String → Option Flag
  | "check" => some .check
  | "fix" => some .fix
  | "detect" => some .detect
  | "verbose" => some .verbose
  | "json" => some .json
  | "no-config" => some .noConfig
  | "list-rules" => some .listRules
  | _ => none

def setterNamed? : String → Option Setter
  | "rule" => some .rule
  | "format" => some .format
  | "config" => some .config
  | _ => none

/-- An option behind two dashes; an equals sign stands before its value. -/
def long (text : List Char) : Except ArgError Arg :=
  let arg := "--" ++ String.ofList text
  let name := String.ofList (text.takeWhile (· != '='))
  let value := text.dropWhile (· != '=')
  match flagNamed? name, setterNamed? name, value with
  | some f, _, [] => .ok (.options [f] .done)
  | some _, _, _ :: _ => .error (.unexpectedValue arg)
  | none, some s, [] => .ok (.options [] (.next s))
  | none, some s, _ :: value => .ok (.options [] (.value s (String.ofList value)))
  | none, none, value =>
    if name = "version" then
      if value.isEmpty then .ok (.options [] .version) else .error (.unexpectedValue arg)
    else .error (.unknown arg)

/-- Options behind one dash, with the flags before them. What follows a letter that takes a value is
the value, an equals sign in front left out. -/
def short (flags : List Flag) : List Char → Except ArgError Arg
  | [] => .ok (.options flags .done)
  | 'v' :: cs => short (flags ++ [.verbose]) cs
  | 'V' :: _ => .ok (.options flags .version)
  | ['r'] => .ok (.options flags (.next .rule))
  | 'r' :: '=' :: cs => .ok (.options flags (.value .rule (String.ofList cs)))
  | 'r' :: cs => .ok (.options flags (.value .rule (String.ofList cs)))
  | c :: _ => .error (.unknown (String.ofList ['-', c]))

def classify (arg : String) : Except ArgError Arg :=
  match arg.toList with
  | ['-', '-'] => .ok .separator
  | '-' :: '-' :: cs => long cs
  | '-' :: c :: cs => short [] (c :: cs)
  | _ => .ok (.path arg)

/-- Whether an argument cannot be the value of the option before it. -/
def looksLikeOption (arg : String) : Bool :=
  match arg.toList with
  | '-' :: _ :: _ => true
  | _ => false

/-! ## All arguments -/

def addFlags (o : Options) : List Flag → Except ArgError Options
  | [] => .ok o
  | f :: fs =>
    if o.has f then .error (.repeatedFlag f) else addFlags { o with flags := o.flags ++ [f] } fs

def setValue (o : Options) (s : Setter) (value : String) : Except ArgError Options :=
  match s with
  | .rule => .ok { o with rules := o.rules ++ [value] }
  | .format =>
    if o.format.isSome then .error (.repeatedOption .format)
    else .ok { o with format := some value }
  | .config =>
    if value.isEmpty then .error .emptyPath
    else if o.config.isSome then .error (.repeatedOption .config)
    else .ok { o with config := some value }

def addPath (o : Options) (path : String) : Except ArgError Options :=
  if path.isEmpty then .error .emptyPath else .ok { o with paths := o.paths ++ [path] }

def addPaths (o : Options) : List String → Except ArgError Options
  | [] => .ok o
  | path :: paths => do addPaths (← addPath o path) paths

/-- What only shows when all arguments are read. -/
def validate (o : Options) : Except ArgError Request :=
  let modes := [o.has .check, o.has .fix, o.has .detect].count true
  if 1 < modes ∨ (o.has .json ∧ o.format.isSome) then .error .conflict
  else if o.paths.isEmpty ∧ ¬ o.has .listRules then .error .noPaths
  else .ok (.run o)

def read (o : Options) : List String → Except ArgError Request
  | [] => validate o
  | arg :: args =>
    match classify arg with
    | .error e => .error e
    | .ok (.path path) =>
      match addPath o path with
      | .error e => .error e
      | .ok o => read o args
    | .ok .separator =>
      match addPaths o args with
      | .error e => .error e
      | .ok o => validate o
    | .ok (.options flags tail) =>
      match addFlags o flags with
      | .error e => .error e
      | .ok o =>
        match tail with
        | .done => read o args
        | .version => .ok .version
        | .value s value =>
          match setValue o s value with
          | .error e => .error e
          | .ok o => read o args
        | .next s =>
          match args with
          | [] => .error (.missingValue s)
          | value :: args =>
            if looksLikeOption value then .error (.missingValue s)
            else
              match setValue o s value with
              | .error e => .error e
              | .ok o => read o args

/-- Reads the arguments of the command. -/
def parse (args : List String) : Except ArgError Request := read .none args

end TidySheet.Args
