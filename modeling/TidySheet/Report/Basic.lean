import TidySheet.Services

/-!
# Reports

What the command says about each file and about all of them, as text for a terminal, as JSON, or as
a diff. Warnings about files that failed go to the error stream, but for JSON, which holds them.
-/

set_option autoImplicit false

namespace TidySheet

inductive Format where
  | text
  | json
  | diff
  deriving DecidableEq, Repr

/-- The format of a name in any letter case. No letter outside ASCII has a lower-case form among
the letters of these names. -/
def Format.ofName? (name : String) : Option Format :=
  match name.toLower with
  | "text" => some .text
  | "json" => some .json
  | "diff" => some .diff
  | _ => none

def Format.name : Format → String
  | .text => "text"
  | .json => "json"
  | .diff => "diff"

/-- A change to a file: the rules that made it, the number of lines that are new, and the text before
and behind it. -/
structure Change where
  rules : List String
  lines : Nat
  old : String
  new : String
  deriving DecidableEq, Repr

inductive Verdict where
  | clean
  | changed (change : Change)
  | failed (message : String)
  deriving DecidableEq, Repr

structure FileReport where
  path : String
  verdict : Verdict
  deriving DecidableEq, Repr

namespace FileReport

def change? (f : FileReport) : Option Change :=
  match f.verdict with
  | .changed c => some c
  | _ => none

def hasFailed (f : FileReport) : Bool :=
  match f.verdict with
  | .failed _ => true
  | _ => false

/-! ## Text -/

/-- A file with changes that were not made: the lines that go and come, and the rules. -/
def pendingText (s : Services) (path : String) (c : Change) : String :=
  path ++ "\n" ++ String.join ((s.lineEdits c.old c.new).map Edit.text) ++ "\n" ++
    String.join (c.rules.map fun r => s!"  -> {r}\n") ++ "\n"

/-- A file with changes that were made. -/
def fixedText (path : String) (c : Change) : String :=
  let rules := String.intercalate ", " c.rules
  s!"{path}\n  OK Reformatted {c.lines} line(s) with {rules}\n\n"

def warning (path message : String) : String := s!"Warning: {path} - {message}\n"

/-- Lines around a change that are shown with it. -/
def context : Nat := 3

/-- What is printed about a file. -/
def output (s : Services) (format : Format) (fix verbose : Bool) (f : FileReport) : Output :=
  match format, f.verdict with
  | .json, _ => .none
  | _, .failed message => .ofErr (warning f.path message)
  | .text, .clean => if verbose then .ofOut s!"{f.path}: No changes needed\n" else .none
  | .text, .changed c => .ofOut (if fix then fixedText f.path c else pendingText s f.path c)
  | .diff, .clean => .none
  | .diff, .changed c =>
    if fix then .none else .ofOut (unifiedText f.path (s.hunks context c.old c.new))

/-! ## JSON -/

def json (f : FileReport) : Json :=
  .object (("path", .string f.path) ::
    match f.verdict with
    | .clean => []
    | .changed c =>
      [("changes", .object [("rules", .strings c.rules), ("changed_lines", .number c.lines)])]
    | .failed message => [("error", .string message)])

end FileReport

/-! ## All files -/

structure Summary where
  files : Nat
  withChanges : Nat
  changedLines : Nat
  errors : Nat
  deriving DecidableEq, Repr

def Summary.ofReports (fs : List FileReport) : Summary where
  files := fs.length
  withChanges := (fs.filterMap FileReport.change?).length
  changedLines := (fs.filterMap FileReport.change?).foldl (fun n c => n + c.lines) 0
  errors := (fs.filter FileReport.hasFailed).length

namespace Summary

def text (fix : Bool) (s : Summary) : String :=
  s!"Summary\n  Files processed: {s.files}\n  Files with changes: {s.withChanges}\n" ++
    s!"  Changed lines: {s.changedLines}\n" ++
    (if 0 < s.errors then s!"  Errors: {s.errors}\n" else "") ++
    (if !fix && 0 < s.withChanges then "\nRun with --fix to apply changes\n" else "")

def json (s : Summary) : Json :=
  .object [("files_processed", .number s.files), ("files_with_changes", .number s.withChanges),
    ("changed_lines", .number s.changedLines), ("errors", .number s.errors)]

/-- A run fails with an error, and a check also with changes to make. -/
def exitCode (fix : Bool) (s : Summary) : Nat :=
  if 0 < s.errors then 1 else if !fix && 0 < s.withChanges then 2 else 0

end Summary

def version : String := "0.1.0"

/-- All that there is to say about files, as JSON. -/
def reportJson (fs : List FileReport) : Json :=
  .object [("version", .string version), ("summary", (Summary.ofReports fs).json),
    ("files", .array (fs.map FileReport.json))]

/-- What is printed when all files are through; the error says why that cannot be written. -/
def closing (s : Services) (format : Format) (fix : Bool) (fs : List FileReport) :
    Except String Output :=
  match format with
  | .text => .ok (.ofOut ((Summary.ofReports fs).text fix))
  | .diff => .ok .none
  | .json => (s.json (reportJson fs)).map fun text => .ofOut (text ++ "\n")

/-! ## Settings read off files -/

def settingJson : Setting → Json
  | .bool b => .bool b
  | .number n => .number n
  | .text s => .string s
  | .list items => .strings items

def settingsJson (settings : Settings) : Json :=
  .object [("rules", .object (settings.entries.map fun e => (e.1, settingJson e.2)))]

/-- Settings as a configuration, or as JSON. -/
def settingsOutput (s : Services) (format : Format) (settings : Settings) : Except String Output :=
  match format with
  | .json => (s.json (settingsJson settings)).map fun text => .ofOut (text ++ "\n")
  | _ => (s.settingsText settings).map Output.ofOut

end TidySheet
