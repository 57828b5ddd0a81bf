import TidySheet.Proofs.BuiltIn
import TidySheet.Proofs.Collection
import TidySheet.Proofs.Stepwise

/-!
# Runs of the command, file by file

A run judges every file by its own content before the run, and writes fixes behind that. So what a
file holds afterwards, and whether it counts as failed or changed, depends on nothing but its name
and its content: not on other files, nor on the paths that led to it, how often or in which order.

* `Tidier.output_of_no_changes` — a text that no rule changed comes out as it was;
* `judged_verdict` — what is said about a file of a run;
* `file?_applyChanges` — what the files hold when all changes are written;
* `run_perFile` — files and exit code of a run.
-/

set_option autoImplicit false

namespace TidySheet

/-! ## Texts that no rule changed -/

theorem Tidier.chars_of_runRules {d : Dialect} {rs : List Rule} {tree last : Node}
    (h : runRules d rs tree = (last, .ok [])) : last.chars = tree.chars := by
  induction rs generalizing tree with
  | nil => rw [(eq_of_runRules_nil h).1]
  | cons r rs ih =>
    by_cases hr : r.supports d = true
    · obtain ⟨next, rest, -, hrest, hnames⟩ := exists_of_runRules_cons hr h
      split at hnames
      · rename_i hsame
        rw [← hnames] at hrest
        rw [ih hrest, hsame]
      · cases hnames
    · rw [runRules, if_neg hr] at h
      exact ih h

/-- **A text that no rule changed comes out as it was.** -/
theorem Tidier.output_of_no_changes {tidier : Tidier} {d : Dialect} {source : String}
    {tidied : Tidied} (h : tidier.tidy d source = .ok tidied) (hc : tidied.changedBy = []) :
    tidied.output = source := by
  obtain ⟨tree, last, htree, hrun, houtput⟩ := exists_run_of_tidy h
  rw [hc] at hrun
  rw [houtput, Node.render, chars_of_runRules hrun, chars_of_parseChars htree, String.ofList_toList]

namespace Command

open Args (Options)
open Workspace

/-! ## One file -/

/-- What a tidier makes of a file with this content at this place; `none` if it fails. -/
def tidied? (tidier : Tidier) (p : Place) : Content → Option Tidied
  | .text s => (Path.dialect? (fileName p)).bind fun d => (tidier.tidy d s).toOption
  | .binary _ => none

/-- The content that a file gets: what a tidier makes of it, or the content it has if that fails. -/
def fixed (tidier : Tidier) (p : Place) (content : Content) : Content :=
  match tidied? tidier p content with
  | some tidied => .text tidied.output
  | none => content

/-- What a verdict says about a file with this content. -/
inductive Judged (tidier : Tidier) (p : Place) (content : Content) : Verdict → Prop
  | failed (message : String) (h : tidied? tidier p content = none) :
      Judged tidier p content (.failed message)
  | changed {tidied : Tidied} (change : Change) (h : tidied? tidier p content = some tidied)
      (hc : tidied.hasChanges = true) (hnew : change.new = tidied.output) :
      Judged tidier p content (.changed change)
  | clean {tidied : Tidied} (h : tidied? tidier p content = some tidied)
      (hc : tidied.hasChanges = false) (hsame : content = .text tidied.output) :
      Judged tidier p content .clean

variable {s : Services} {tidier : Tidier} {w : Workspace} {c : Config}

/-- **What is said about a file** depends on its name and its content alone. -/
theorem judged_verdict (hw : w.Proper) {path : String} {p : Place} {content : Content}
    (hp : w.resolve path = .ok p) (hcontent : w.file? p = some content) :
    Judged tidier p content (verdict s tidier w path) := by
  have hdialect := dialect?_of_resolve (hw.not_isDirectory (by rw [hcontent]; rfl)) hp
  have hread : w.read path = w.readPlace p := by rw [Workspace.read, hp]; rfl
  rw [verdict, sourceOf, hdialect, hread, readPlace, hcontent]
  cases hd : Path.dialect? (fileName p) with
  | none =>
    refine .failed _ ?_
    cases content <;> simp [tidied?, hd]
  | some d =>
    cases content with
    | binary bytes => exact .failed _ rfl
    | text source =>
      have htidied : tidied? tidier p (.text source) = (tidier.tidy d source).toOption := by
        rw [tidied?, hd, Option.bind_some]
      cases hs : tidier.tidy d source with
      | error e =>
        simp only [hs]
        exact .failed _ (by rw [htidied, hs]; rfl)
      | ok tidied =>
        rw [hs] at htidied
        simp only [hs]
        split
        · rename_i hc
          exact .changed _ htidied hc rfl
        · rename_i hc
          have hc : tidied.hasChanges = false := by simpa using hc
          refine .clean htidied hc ?_
          rw [Tidier.output_of_no_changes hs (by simpa [Tidied.hasChanges] using hc)]

/-! ## All files -/

/-- A report on a file of the workspace: its path leads to the file, and what it says is about what
the file holds. -/
def Reported (tidier : Tidier) (w : Workspace) (r : FileReport) (p : Place) : Prop :=
  w.resolve r.path = .ok p ∧ ∃ content, w.file? p = some content ∧ Judged tidier p content r.verdict

/-- The workspace `v` on the way from `w`: paths lead where they led, and every file holds what it
held or what it gets. -/
structure Underway (tidier : Tidier) (w v : Workspace) : Prop where
  resolve_eq : ∀ path, v.resolve path = w.resolve path
  file?_eq : ∀ p, v.file? p = w.file? p ∨ v.file? p = (w.file? p).map (fixed tidier p)

theorem Underway.refl (w : Workspace) : Underway tidier w w := ⟨fun _ => rfl, fun _ => .inl rfl⟩

/-- **One file**: the change is written to this file, and to no other. -/
theorem file?_applyChange {v : Workspace} {r : FileReport} {q : Place}
    (hr : Reported tidier w r q) (hv : Underway tidier w v) :
    (∀ path, (applyChanges v [r]).resolve path = w.resolve path) ∧
      ∀ p, (applyChanges v [r]).file? p =
        if p = q then (w.file? p).map (fixed tidier p) else v.file? p := by
  obtain ⟨path, verdict⟩ := r
  obtain ⟨hq, content, hc, hj⟩ := hr
  have hkeep : fixed tidier q content = content → ∀ p, v.file? p =
      if p = q then (w.file? p).map (fixed tidier p) else v.file? p := by
    intro hsame p
    split
    · rename_i hp
      subst hp
      rcases hv.file?_eq p with h | h
      · rw [h, hc, Option.map_some, hsame]
      · exact h
    · rfl
  cases hj with
  | failed message h => exact ⟨hv.resolve_eq, hkeep (by rw [fixed, h])⟩
  | clean h _ hsame => exact ⟨hv.resolve_eq, hkeep (by rw [fixed, h]; exact hsame.symm)⟩
  | changed change h _ hnew =>
    have hwrite : applyChanges v [⟨path, .changed change⟩] = v.write q change.new := by
      show v.save path change.new = _
      rw [Workspace.save, hv.resolve_eq, hq]
    rw [hwrite]
    refine ⟨fun path => (resolve_write v q change.new path).trans (hv.resolve_eq path), fun p => ?_⟩
    rw [file?_write]
    split
    · rename_i hp
      subst hp
      have hsome : ∃ x, v.file? p = some x := by
        rcases hv.file?_eq p with h | h <;> rw [h, hc]
        · exact ⟨_, rfl⟩
        · exact ⟨_, rfl⟩
      obtain ⟨x, hx⟩ := hsome
      rw [hx, hc, Option.map_some, Option.map_some, fixed, h, hnew]
    · rfl

/-- **All files**: each holds what it gets, if there is a report on it, or what it held. -/
theorem file?_applyChanges {reports : List FileReport} {v : Workspace}
    (h : ∀ r ∈ reports, ∃ p, Reported tidier w r p) (hv : Underway tidier w v) (p : Place) :
    ((∃ r ∈ reports, w.resolve r.path = .ok p) →
      (applyChanges v reports).file? p = (w.file? p).map (fixed tidier p)) ∧
    ((¬∃ r ∈ reports, w.resolve r.path = .ok p) → (applyChanges v reports).file? p = v.file? p) := by
  induction reports generalizing v with
  | nil => exact ⟨fun ⟨r, hr, _⟩ => (by cases hr), fun _ => rfl⟩
  | cons r reports ih =>
    obtain ⟨q, hq⟩ := h r List.mem_cons_self
    obtain ⟨hresolve, hfile⟩ := file?_applyChange hq hv
    have hv' : Underway tidier w (applyChanges v [r]) := by
      refine ⟨hresolve, fun p => ?_⟩
      rw [hfile p]
      split
      · exact .inr rfl
      · exact hv.file?_eq p
    obtain ⟨hrest, hrest'⟩ := ih (fun r hr => h r (List.mem_cons_of_mem _ hr)) hv'
    have hcons : applyChanges v (r :: reports) = applyChanges (applyChanges v [r]) reports := rfl
    rw [hcons]
    constructor
    · rintro ⟨r', hr', hp⟩
      by_cases hlater : ∃ r ∈ reports, w.resolve r.path = .ok p
      · exact hrest hlater
      · rcases List.mem_cons.1 hr' with rfl | hr'
        · rw [hrest' hlater, hfile, if_pos]
          rw [hq.1] at hp
          exact (Except.ok.inj hp).symm
        · exact absurd ⟨r', hr', hp⟩ hlater
    · intro hnone
      rw [hrest' fun ⟨r', hr', hp⟩ => hnone ⟨r', List.mem_cons_of_mem r hr', hp⟩, hfile, if_neg]
      rintro rfl
      exact hnone ⟨r, List.mem_cons_self, hq.1⟩

/-! ## Exit codes -/

/-- A file fails: it is no text in a known dialect, or a rule fails on it. -/
def Fails (tidier : Tidier) (w : Workspace) (p : Place) : Prop :=
  ∃ content, w.file? p = some content ∧ tidied? tidier p content = none

/-- A file has changes to make. -/
def HasChanges (tidier : Tidier) (w : Workspace) (p : Place) : Prop :=
  ∃ content tidied, w.file? p = some content ∧ tidied? tidier p content = some tidied ∧
    tidied.hasChanges = true

/-- **The exit codes of a run**: 1 if something has failed, otherwise 2 for a check that finds
changes, otherwise 0. -/
inductive Exits (fix : Bool) (failed changes : Prop) : Nat → Prop
  | failed (h : failed) : Exits fix failed changes 1
  | changes (hok : ¬failed) (hfix : fix = false) (h : changes) : Exits fix failed changes 2
  | clean (hok : ¬failed) (h : fix = true ∨ ¬changes) : Exits fix failed changes 0

theorem Reported.hasFailed_iff {r : FileReport} {p : Place} (h : Reported tidier w r p) :
    r.hasFailed = true ↔ Fails tidier w p := by
  obtain ⟨path, verdict⟩ := r
  obtain ⟨-, content, hc, hj⟩ := h
  have hfails : Fails tidier w p ↔ tidied? tidier p content = none := by
    simp only [Fails, hc, Option.some.injEq, exists_eq_left']
  rw [hfails]
  cases hj with
  | failed message h => simp [h, FileReport.hasFailed]
  | changed change h => simp [h, FileReport.hasFailed]
  | clean h => simp [h, FileReport.hasFailed]

theorem Reported.isSome_change?_iff {r : FileReport} {p : Place} (h : Reported tidier w r p) :
    r.change?.isSome = true ↔ HasChanges tidier w p := by
  obtain ⟨path, verdict⟩ := r
  obtain ⟨-, content, hc, hj⟩ := h
  have hchanges : HasChanges tidier w p ↔
      ∃ tidied, tidied? tidier p content = some tidied ∧ tidied.hasChanges = true := by
    simp only [HasChanges, hc, Option.some.injEq, exists_and_left, exists_eq_left']
  rw [hchanges]
  cases hj with
  | failed message h => simp [h, FileReport.change?]
  | changed change h hc => simp [h, hc, FileReport.change?]
  | clean h hc => simp [h, hc, FileReport.change?]

theorem exits_exitCode (fix : Bool) (reports : List FileReport) :
    Exits fix (∃ r ∈ reports, r.hasFailed = true) (∃ r ∈ reports, r.change?.isSome = true)
      ((Summary.ofReports reports).exitCode fix) := by
  have herrors : 0 < (Summary.ofReports reports).errors ↔
      ∃ r ∈ reports, r.hasFailed = true := by
    simp [Summary.ofReports, List.length_pos_iff_exists_mem]
  have hchanges : 0 < (Summary.ofReports reports).withChanges ↔
      ∃ r ∈ reports, r.change?.isSome = true := by
    simp only [Summary.ofReports, List.length_pos_iff_exists_mem, List.mem_filterMap,
      Option.isSome_iff_exists]
    exact ⟨fun ⟨c, f, hf, hc⟩ => ⟨f, hf, c, hc⟩, fun ⟨f, hf, c, hc⟩ => ⟨c, f, hf, hc⟩⟩
  rw [Summary.exitCode]
  split
  · exact .failed (herrors.1 ‹_›)
  rename_i hok
  rw [herrors] at hok
  split
  · rename_i h
    rw [Bool.and_eq_true, Bool.not_eq_true', decide_eq_true_eq, hchanges] at h
    exact .changes hok h.1 h.2
  · rename_i h
    rw [Bool.and_eq_true, Bool.not_eq_true', decide_eq_true_eq, hchanges] at h
    refine .clean hok ?_
    cases fix with
    | true => exact .inl rfl
    | false => exact .inr fun hchanges => h ⟨rfl, hchanges⟩

theorem Exits.congr {fix : Bool} {failed failed' changes changes' : Prop} {code : Nat}
    (hf : failed ↔ failed') (hc : changes ↔ changes') (h : Exits fix failed changes code) :
    Exits fix failed' changes' code := by
  rwa [← propext hf, ← propext hc]

/-- There is one exit code. -/
theorem Exits.unique {fix : Bool} {failed changes : Prop} {code code' : Nat}
    (h : Exits fix failed changes code) (h' : Exits fix failed changes code') : code = code' := by
  cases h <;> cases h' <;> simp_all

/-! ## Runs -/

variable {o : Options}

/-- **Options with which a run gets to its files**, under a configuration and with some rules. -/
structure Reaches (s : Services) (w : Workspace) (o : Options) (c : Config) (tidier : Tidier) :
    Prop where
  listing : o.has .listRules = false
  detect : o.has .detect = false
  format : ∃ format, formatFor o = .ok format
  config : ∃ path, configFor s w o = .ok (c, path)
  known : ∀ r ∈ o.rules, r ∈ Registry.builtIn.names
  settings : Tidier.ofSettings (c.effective Registry.builtIn.names o.rules) = .ok tidier
  enabled : tidier.rules ≠ []

/-- To detect writes nothing. -/
theorem workspace_runDetect (format : Format) (before : Output) (files : List String) :
    (runDetect s w format before files).workspace = w := by
  simp only [runDetect]
  split <;> rfl

/-- A check writes nothing. -/
theorem workspace_runTidier (format : Format) (verbose : Bool) (before : Output)
    (files : List String) :
    (runTidier s tidier w format false verbose before files).workspace = w := by
  simp only [runTidier]
  split <;> rfl

/-- Without `--fix`, and with `--detect`, nothing is written. -/
theorem workspace_runOptions (h : o.has .detect = true ∨ o.has .fix = false) :
    (runOptions s w o).workspace = w := by
  rw [runOptions]
  split
  · rfl
  split
  · rfl
  split
  · rfl
  simp only [runFiles]
  split
  · rfl
  split
  · exact workspace_runDetect _ _ _
  rename_i hdetect
  split
  · rfl
  split
  · rfl
  · rw [h.resolve_left hdetect]
    exact workspace_runTidier _ _ _ _

/-- A run that gets to its files tidies them. -/
theorem exists_runTidier (h : Reaches s w o c tidier) :
    ∃ format before, runOptions s w o = runTidier s tidier w format (o.has .fix) (o.has .verbose)
      before (filesOf s w c o.paths) := by
  obtain ⟨format, hformat⟩ := h.format
  obtain ⟨path, hconfig⟩ := h.config
  have hknown : o.rules.find? (fun r => !Registry.builtIn.names.contains r) = none := by
    rw [List.find?_eq_none]
    intro r hr
    simpa using h.known r hr
  have henabled : tidier.rules.isEmpty = false := by
    simpa [List.isEmpty_iff] using h.enabled
  refine ⟨format, ?_⟩
  simp only [runOptions, h.listing, hformat, hconfig, runFiles, hknown, h.detect, h.settings,
    henabled, Bool.false_eq_true, if_false]
  exact ⟨_, rfl⟩

/-- What a run that tidies says about its files. -/
def reportsOn (s : Services) (tidier : Tidier) (w : Workspace) (files : List String) :
    List FileReport :=
  files.map fun path => ⟨path, verdict s tidier w path⟩

/-- The end of a run that tidies, if its output can be written. -/
theorem runTidier_eq (hs : s.Documented) (format : Format) (fix verbose : Bool) (before : Output)
    (files : List String) :
    (runTidier s tidier w format fix verbose before files).code =
        (Summary.ofReports (reportsOn s tidier w files)).exitCode fix ∧
      (runTidier s tidier w format fix verbose before files).workspace =
        if fix then applyChanges w (reportsOn s tidier w files) else w := by
  have hclosing : ∃ last, closing s format fix (reportsOn s tidier w files) = .ok last := by
    cases format with
    | text => exact ⟨_, rfl⟩
    | diff => exact ⟨_, rfl⟩
    | json =>
      obtain ⟨text, htext⟩ := hs.json (reportJson (reportsOn s tidier w files))
      exact ⟨_, by rw [closing, htext]; rfl⟩
  obtain ⟨last, hlast⟩ := hclosing
  rw [reportsOn] at hlast
  simp only [runTidier, hlast]
  exact ⟨rfl, rfl⟩

theorem reported_reportsOn (hs : s.Documented) (hw : w.Proper) {paths : List String} :
    ∀ r ∈ reportsOn s tidier w (filesOf s w c paths), ∃ p, Reported tidier w r p := by
  intro r hr
  obtain ⟨path, hpath, rfl⟩ := List.mem_map.1 hr
  obtain ⟨p, hp, hfile, -⟩ := exists_of_mem_filesOf hs hw hpath
  obtain ⟨content, hcontent⟩ := Option.isSome_iff_exists.1 hfile
  exact ⟨p, hp, content, hcontent, judged_verdict hw hp hcontent⟩

/-- There are reports on the files of a run, and on no others. -/
theorem exists_reportsOn_iff (hs : s.Documented) (hw : w.Proper) {paths : List String}
    {p : Place} : (∃ r ∈ reportsOn s tidier w (filesOf s w c paths), w.resolve r.path = .ok p) ↔
      Collected s w c paths p := by
  rw [collected_iff hs hw]
  simp only [reportsOn, List.mem_map, exists_exists_and_eq_and]

/-- What holds of a report holds of the file that it is on. -/
theorem exists_report_iff (hs : s.Documented) (hw : w.Proper) {paths : List String}
    {said : FileReport → Prop} {holds : Place → Prop}
    (h : ∀ r p, Reported tidier w r p → (said r ↔ holds p)) :
    (∃ r ∈ reportsOn s tidier w (filesOf s w c paths), said r) ↔
      ∃ p, Collected s w c paths p ∧ holds p := by
  constructor
  · rintro ⟨r, hr, hsaid⟩
    obtain ⟨p, hp⟩ := reported_reportsOn hs hw r hr
    exact ⟨p, (exists_reportsOn_iff hs hw).1 ⟨r, hr, hp.1⟩, (h r p hp).1 hsaid⟩
  · rintro ⟨p, hcollected, hholds⟩
    obtain ⟨r, hr, hp⟩ := (exists_reportsOn_iff hs hw).2 hcollected
    obtain ⟨q, hq⟩ := reported_reportsOn hs hw r hr
    have hpq : p = q := Except.ok.inj (hp.symm.trans hq.1)
    exact ⟨r, hr, (h r p (hpq ▸ hq)).2 hholds⟩

theorem exits_of_reaches (hs : s.Documented) (hw : w.Proper) (h : Reaches s w o c tidier) :
    Exits (o.has .fix) (∃ p, Collected s w c o.paths p ∧ Fails tidier w p)
      (∃ p, Collected s w c o.paths p ∧ HasChanges tidier w p) (runOptions s w o).code := by
  obtain ⟨format, before, hrun⟩ := exists_runTidier h
  rw [hrun, (runTidier_eq hs _ _ _ _ _).1]
  exact (exits_exitCode _ _).congr
    (exists_report_iff hs hw fun _ _ => Reported.hasFailed_iff)
    (exists_report_iff hs hw fun _ _ => Reported.isSome_change?_iff)

theorem file?_of_reaches (hs : s.Documented) (hw : w.Proper) (h : Reaches s w o c tidier)
    (hfix : o.has .fix = true) (p : Place) :
    (Collected s w c o.paths p →
      (runOptions s w o).workspace.file? p = (w.file? p).map (fixed tidier p)) ∧
    (¬Collected s w c o.paths p → (runOptions s w o).workspace.file? p = w.file? p) := by
  obtain ⟨format, before, hrun⟩ := exists_runTidier h
  rw [hrun, (runTidier_eq hs _ _ _ _ _).2, hfix, if_pos rfl, ← exists_reportsOn_iff hs hw]
  exact file?_applyChanges (reported_reportsOn hs hw) (.refl w) p

/-- **Runs go file by file, and write only if they are to fix.** Whatever the services do, as far as
they keep to what they promise:

* To check and to detect changes no file.
* A run with `--fix` that gets to its files gives each of them what its own content becomes, or
  leaves it that content if it fails; all other files stay as they are.
* Its exit code, and that of a check, tells whether one of its files has failed, and for a check
  whether one has changes.
* The same paths in another order, or given more than once, make no difference. -/
theorem run_perFile (s : Services) (hs : s.Documented) (w : Workspace) (hw : w.Proper)
    (args : List String) (o : Options) (h : s.arguments args = .ok o) :
    (o.has .check = true ∨ o.has .detect = true ∨ o.has .fix = false →
      (runArgs s w args).workspace = w) ∧
    ∀ c tidier, Reaches s w o c tidier →
      (o.has .fix = true → ∀ p,
        (Collected s w c o.paths p →
          (runArgs s w args).workspace.file? p = (w.file? p).map (fixed tidier p)) ∧
        (¬Collected s w c o.paths p → (runArgs s w args).workspace.file? p = w.file? p)) ∧
      Exits (o.has .fix) (∃ p, Collected s w c o.paths p ∧ Fails tidier w p)
        (∃ p, Collected s w c o.paths p ∧ HasChanges tidier w p) (runArgs s w args).code ∧
      ∀ args' paths, s.arguments args' = .ok { o with paths := paths } →
        (∀ path, path ∈ paths ↔ path ∈ o.paths) →
        (runArgs s w args').code = (runArgs s w args).code ∧
        ∀ p, (runArgs s w args').workspace.file? p = (runArgs s w args).workspace.file? p := by
  have hrun : ∀ {args o}, s.arguments args = .ok o → runArgs s w args = runOptions s w o :=
    fun h => by rw [runArgs, h]
  rw [hrun h]
  constructor
  · rintro (hcheck | hmode)
    · exact workspace_runOptions (.inr (hs.modes args o h hcheck))
    · exact workspace_runOptions hmode
  intro c tidier hr
  refine ⟨file?_of_reaches hs hw hr, exits_of_reaches hs hw hr, fun args' paths h' hpaths => ?_⟩
  have hr' : Reaches s w { o with paths := paths } c tidier :=
    ⟨hr.listing, hr.detect, hr.format, hr.config, hr.known, hr.settings, hr.enabled⟩
  have hcollected : ∀ p, Collected s w c paths p ↔ Collected s w c o.paths p := fun p =>
    ⟨.congr fun path => (hpaths path).symm, .congr hpaths⟩
  rw [hrun h']
  constructor
  · have hexits := exits_of_reaches hs hw hr'
    simp only [hcollected] at hexits
    exact hexits.unique (exits_of_reaches hs hw hr)
  · intro p
    cases hfix : o.has .fix with
    | false =>
      have hfix' : ({ o with paths := paths } : Options).has .fix = false := hfix
      rw [workspace_runOptions (.inr hfix'), workspace_runOptions (.inr hfix)]
    | true =>
      have hfile := file?_of_reaches hs hw hr' hfix p
      have hfile' := file?_of_reaches hs hw hr hfix p
      by_cases hp : Collected s w c o.paths p
      · rw [hfile.1 ((hcollected p).2 hp), hfile'.1 hp]
      · rw [hfile.2 fun h => hp ((hcollected p).1 h), hfile'.2 hp]

/-- A workspace with a file that gets fixed, one that fails and one that is no stylesheet. -/
def mixedWorkspace : Workspace where
  root := "/r"
  cwd := []
  files := [(["a.css"], .text "a \x7b\n b: c\n\x7d"), (["s", "b.scss"], .text "a \x7b"),
    (["s", "n.txt"], .binary [255])]
  directories := []

def mixedOptions : Options := ⟨[.fix], [], none, none, ["s", "./a.css", "a.css", "s/b.scss"]⟩

/-- The first file is named, the second is below a directory that is named, and the third is below it
as well, but is no stylesheet. -/
theorem collected_mixed {s : Services} :
    Collected s mixedWorkspace .default mixedOptions.paths ["a.css"] ∧
      Collected s mixedWorkspace .default mixedOptions.paths ["s", "b.scss"] ∧
      ¬Collected s mixedWorkspace .default mixedOptions.paths ["s", "n.txt"] := by
  have hcss : mixedWorkspace.resolve "./a.css" = .ok ["a.css"] := by decide +kernel
  have hs : mixedWorkspace.resolve "s" = .ok ["s"] := by decide +kernel
  have hnamed : ∀ path ∈ mixedOptions.paths,
      mixedWorkspace.resolve path ≠ .ok ["s", "n.txt"] := by
    decide +kernel
  have hkept : ∀ path, ¬Config.default.LeftOut s.globs path := by
    intro path h
    cases h <;> contradiction
  have hscss : Collected s mixedWorkspace .default mixedOptions.paths (["s"] ++ ["b.scss"]) :=
    .below (by decide) hs (by decide) (by decide +kernel) (by decide +kernel) (hkept _)
  refine ⟨.named (by decide) hcss (by decide +kernel), hscss, fun h => ?_⟩
  generalize hp : ["s", "n.txt"] = p at h
  cases h with
  | named hpath hresolve => exact hnamed _ hpath (hp ▸ hresolve)
  | below _ _ _ _ hdialect =>
    rw [← hp] at hdialect
    exact absurd hdialect (by decide +kernel)

theorem run_perFile_mixed : ∃ c tidier, Services.builtIn.Documented ∧ mixedWorkspace.Proper ∧
    Services.builtIn.arguments ["s", "./a.css", "--fix", "a.css", "s/b.scss"] = .ok mixedOptions ∧
    Reaches .builtIn mixedWorkspace mixedOptions c tidier ∧
    let after := runArgs .builtIn mixedWorkspace ["s", "./a.css", "--fix", "a.css", "s/b.scss"]
    after.workspace.file? ["a.css"] = some (.text "a \x7bb: c\x7d") ∧
      after.workspace.file? ["s", "b.scss"] = some (.text "a \x7b") ∧
      after.workspace.file? ["s", "n.txt"] = some (.binary [255]) ∧
      after.code = 1 := by
  have hproper : mixedWorkspace.Proper := by decide +kernel
  have hoptions : Services.builtIn.arguments ["s", "./a.css", "--fix", "a.css", "s/b.scss"] =
      .ok mixedOptions := by
    rfl
  have hfixed : ((Tidier.ofSettings (Config.default.effective Registry.builtIn.names [])).toOption.map
      fun t => (t.rules.isEmpty, fixed t ["a.css"] (.text "a \x7b\n b: c\n\x7d"),
        tidied? t ["s", "b.scss"] (.text "a \x7b"))) =
          some (false, .text "a \x7bb: c\x7d", none) := by
    decide +kernel
  cases htidier : Tidier.ofSettings (Config.default.effective Registry.builtIn.names []) with
  | error e => rw [htidier] at hfixed; cases hfixed
  | ok tidier =>
    rw [htidier] at hfixed
    obtain ⟨hempty, hcss, hscss⟩ : tidier.rules.isEmpty = false ∧
        fixed tidier ["a.css"] (.text "a \x7b\n b: c\n\x7d") = .text "a \x7bb: c\x7d" ∧
        tidied? tidier ["s", "b.scss"] (.text "a \x7b") = none := by
      simpa [Except.toOption] using hfixed
    have hreaches : Reaches .builtIn mixedWorkspace mixedOptions .default tidier :=
      ⟨rfl, rfl, ⟨.text, by decide +kernel⟩, ⟨none, by rfl⟩, by simp [mixedOptions], htidier,
        by simpa using hempty⟩
    obtain ⟨hnamed, hbelow, hleft⟩ := @collected_mixed .builtIn
    obtain ⟨-, hrun⟩ := run_perFile .builtIn Services.documented_builtIn mixedWorkspace hproper _
      mixedOptions hoptions
    obtain ⟨hfiles, hcode, -⟩ := hrun .default tidier hreaches
    refine ⟨.default, tidier, Services.documented_builtIn, hproper, hoptions, hreaches, ?_, ?_,
      (hfiles rfl _).2 hleft, hcode.unique (.failed ⟨_, hbelow, .text "a \x7b", rfl, hscss⟩)⟩
    · rw [(hfiles rfl _).1 hnamed]
      exact congrArg some hcss
    · rw [(hfiles rfl _).1 hbelow]
      refine congrArg some ?_
      rw [fixed, hscss]

end Command

end TidySheet
