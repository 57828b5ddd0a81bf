import TidySheet.Report.Basic
import TidySheet.Tidier

/-!
# The command

A run is a function from services, a workspace and arguments to an exit code, the output, and the
workspace afterwards. Every file is judged by its own content as it was before the run; only then are
fixes written.
-/

set_option autoImplicit false

namespace TidySheet.Command

open Args (Options)

structure Outcome where
  code : Nat
  output : Output
  workspace : Workspace
  deriving DecidableEq, Repr

def configName : String := ".stylecomb.toml"

variable (s : Services)

/-! ## Configuration -/

/-- The configuration in the text read from a path; the error is its message. -/
def configIn (path : String) : Except FileError String → Except String Config
  | .error e => .error s!"Failed to read {path}: {e.message}"
  | .ok text =>
    match s.config text with
    | .ok c => .ok c
    | .error message => .error s!"Failed to parse {path}: {message}"

/-- The nearest place of a configuration's name in a directory or above it, whether it can be read
or not; `above` are the names that lead from the root to the directory, the last one first. -/
def findConfig? (w : Workspace) : (above : List String) → Option Place
  | [] => if w.isThere [configName] then some [configName] else none
  | name :: above =>
    let p := (name :: above).reverse ++ [configName]
    if w.isThere p then some p else findConfig? w above

/-- The configuration of a run, and the path it was read from. -/
def configFor (w : Workspace) (o : Options) : Except String (Config × Option String) :=
  if o.has .noConfig then .ok (.default, none)
  else
    match o.config with
    | some path => do
      let c ← configIn s path (w.read path)
      return (c, some path)
    | none =>
      match findConfig? w w.cwd.reverse with
      | none => .ok (.default, none)
      | some p => do
        let c ← configIn s (w.absolute p) (w.readPlace p)
        return (c, some (w.absolute p))

/-! ## Files -/

/-- The files that a path stands for: itself, or the stylesheets below it that the configuration
does not leave out. `none` if there is nothing at the path. -/
def filesAt? (w : Workspace) (c : Config) (path : String) : Option (List String) :=
  match w.resolve path with
  | .error _ => none
  | .ok p =>
    if (w.file? p).isSome then some [path]
    else
      some (((s.walk w path).filter fun e =>
        e.isFile && (Path.dialect? e.path).isSome && !c.isLeftOut s.globs e.path).map Entry.path)

/-- The files of a run as paths, sorted. -/
def filesOf (w : Workspace) (c : Config) (paths : List String) : List String :=
  (paths.flatMap fun path => (filesAt? s w c path).getD []).mergeSort Path.le

/-- Warnings about paths that lead nowhere. -/
def missing (w : Workspace) (c : Config) (format : Format) (paths : List String) : Output :=
  if format = .json then .none
  else
    .join ((paths.filter fun path => (filesAt? s w c path).isNone).map fun path =>
      .ofErr s!"Warning: Path does not exist: {path}\n")

/-- The dialect and the text of a file; the error is its message. -/
def sourceOf (w : Workspace) (path : String) : Except String (Dialect × String) :=
  match Path.dialect? path with
  | none => .error s!"Unsupported file extension: {path}"
  | some d =>
    match w.read path with
    | .ok text => .ok (d, text)
    | .error e => .error s!"Failed to read file: {path}: {e.message}"

/-- A message and the messages of what caused it. -/
def explained (message : String) (e : RuleError) : String :=
  String.intercalate ": " (message :: e.chain)

/-- A run that ends in an error, behind what it has printed so far. -/
def failure (w : Workspace) (before : Output) (message : String) : Outcome :=
  ⟨1, before ++ .ofErr s!"Error: {message}\n", w⟩

/-! ## Tidying -/

/-- What a tidier has to say about a file. -/
def verdict (tidier : Tidier) (w : Workspace) (path : String) : Verdict :=
  match sourceOf w path with
  | .error message => .failed message
  | .ok (d, source) =>
    match tidier.tidy d source with
    | .error e => .failed (explained s!"Failed to process {path}" e)
    | .ok tidied =>
      if tidied.hasChanges then
        .changed ⟨tidied.changedBy, addedLines (s.lineEdits source tidied.output), source,
          tidied.output⟩
      else .clean

/-- Writes the changes to the files they are for. -/
def applyChanges (w : Workspace) (results : List FileReport) : Workspace :=
  results.foldl (fun w r =>
    match r.verdict with
    | .changed c => w.save r.path c.new
    | _ => w) w

def runTidier (tidier : Tidier) (w : Workspace) (format : Format) (fix verbose : Bool)
    (before : Output) (files : List String) : Outcome :=
  let reports := files.map fun path => FileReport.mk path (verdict s tidier w path)
  let printed := before ++ .join (reports.map (FileReport.output s format fix verbose))
  let after := if fix then applyChanges w reports else w
  match closing s format fix reports with
  | .error message => failure after printed message
  | .ok last => ⟨(Summary.ofReports reports).exitCode fix, printed ++ last, after⟩

/-! ## Detecting -/

/-- The votes on a file; the error is its message. -/
def votesOn (w : Workspace) (path : String) : Except String Votes :=
  match sourceOf w path with
  | .error message => .error message
  | .ok (d, source) =>
    match Votes.ofSource d source with
    | .error e => .error (explained s!"Failed to detect style of {path}" e)
    | .ok votes => .ok votes

def runDetect (w : Workspace) (format : Format) (before : Output) (files : List String) : Outcome :=
  let results := files.map fun path => (path, votesOn w path)
  let votes := results.foldl (fun (all : Votes) (_, r) =>
    match r with
    | .ok votes => all.append votes
    | .error _ => all) .empty
  let warnings := results.filterMap fun (path, r) =>
    match r with
    | .ok _ => none
    | .error message => some (Output.ofErr (FileReport.warning path message))
  let printed := before ++ .join warnings
  match settingsOutput s format votes.settings with
  | .error message => failure w printed message
  | .ok last => ⟨if warnings.isEmpty then 0 else 1, printed ++ last, w⟩

/-! ## Runs -/

def listing : Output :=
  .ofOut ("Available rules:\n" ++ String.join (Registry.builtIn.rules.map fun r =>
    let dialects := String.intercalate ", " (r.dialects.map Dialect.name)
    s!"  {r.name} - {r.description} [{dialects}]\n"))

def formatFor (o : Options) : Except String Format :=
  if o.has .json then .ok .json
  else
    let name := o.format.getD "text"
    match Format.ofName? name with
    | some f => .ok f
    | none => .error s!"Invalid output format '{name}'. Valid options: text, json, diff"

/-- What a talkative run says before it starts. -/
def opening (fix : Bool) (tidier : Tidier) : Output :=
  let mode := if fix then "fix" else "check"
  let rules := String.intercalate ", " tidier.ruleNames
  .ofOut s!"Mode: {mode}\nRules: {rules}\n\n"

/-- A run over files, once format and configuration are known. -/
def runFiles (w : Workspace) (o : Options) (format : Format) (c : Config) (before : Output) :
    Outcome :=
  let chatty := o.has .verbose && format = .text
  let all := Registry.builtIn.names
  match o.rules.find? (fun r => !all.contains r) with
  | some r =>
    failure w before s!"Unknown rule '{r}'. Use --list-rules to see available rules."
  | none =>
    let before := before ++ missing s w c format o.paths
    let files := filesOf s w c o.paths
    if o.has .detect then runDetect s w format before files
    else
      match Tidier.ofSettings (c.effective all o.rules) with
      | .error e => failure w before (explained "Invalid rule configuration" e)
      | .ok tidier =>
        if tidier.rules.isEmpty then failure w before "No rules enabled"
        else
          let fix := o.has .fix
          let before := before ++ if chatty then opening fix tidier else .none
          runTidier s tidier w format fix (o.has .verbose) before files

/-- A run with options. -/
def runOptions (w : Workspace) (o : Options) : Outcome :=
  if o.has .listRules then ⟨0, listing, w⟩
  else
    match formatFor o with
    | .error message => failure w .none message
    | .ok format =>
      match configFor s w o with
      | .error message => failure w .none message
      | .ok (c, path) =>
        let chatty := o.has .verbose && format = .text
        let before :=
          match path with
          | some path => if chatty then Output.ofOut s!"Using config: {path}\n" else .none
          | none => .none
        runFiles s w o format c before

/-- A run with arguments. -/
def runArgs (w : Workspace) (args : List String) : Outcome :=
  match s.arguments args with
  | .error stop => ⟨stop.code, stop.output, w⟩
  | .ok o => runOptions s w o

end TidySheet.Command
