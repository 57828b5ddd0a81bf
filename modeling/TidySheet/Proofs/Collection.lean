import Mathlib.Data.List.DropRight
import TidySheet.Command.Basic
import TidySheet.Proofs.FileNames

/-!
# The files of a run

A run is about the files that its paths name, whatever they are called, and the stylesheets below the
directories that its paths name, but for those that a pattern of its configuration leaves out.

* `Config.isLeftOut_iff` — what patterns leave out;
* `Services.Documented` — what the command relies on;
* `Command.Collected` — the files of a run, said without a walk;
* `Command.collected_iff` — the command finds these files and no others.
-/

set_option autoImplicit false

namespace TidySheet

/-! ## Paths that are left out -/

namespace Config

variable {globs : Globs} {c : Config} {path : String}

/-- **A path that is left out**: a pattern fits the path or its file name, or the pattern ends in
slashes and names a directory that the path goes through. -/
inductive LeftOut (globs : Globs) (c : Config) (path : String) : Prop
  | whole {pattern : String} {fits : String → Bool} (hmem : pattern ∈ c.exclude)
      (hfits : globs pattern = some fits) (h : fits path = true) : LeftOut globs c path
  | fileName {pattern : String} {fits : String → Bool} {name : String} (hmem : pattern ∈ c.exclude)
      (hfits : globs pattern = some fits) (hname : Path.fileName? path = some name)
      (h : fits name = true) : LeftOut globs c path
  | directory {pattern : String} {before behind : List Char} (hmem : pattern ∈ c.exclude)
      (hslash : pattern.toList.getLast? = some '/')
      (hpath : path.toList = before ++ (pattern.toList.rdropWhile (· == '/') ++ '/' :: behind))
      (hbefore : before = [] ∨ before.getLast? = some '/') : LeftOut globs c path

theorem occursIn_iff {part cs : List Char} : occursIn part cs = true ↔ part <:+: cs := by
  induction cs with
  | nil => rw [occursIn, List.isEmpty_iff, List.infix_nil]
  | cons c cs ih =>
    rw [occursIn, Bool.or_eq_true, List.isPrefixOf_iff_prefix, ih, List.infix_cons_iff]

/-- A directory in a path stands at its start or behind a slash. -/
theorem isInDirectory_iff {pattern : String} : isInDirectory pattern path = true ↔
    pattern.toList.getLast? = some '/' ∧ ∃ before behind,
      path.toList = before ++ (pattern.toList.rdropWhile (· == '/') ++ '/' :: behind) ∧
        (before = [] ∨ before.getLast? = some '/') := by
  have hname : (pattern.toList.reverse.dropWhile (· == '/')).reverse =
      pattern.toList.rdropWhile (· == '/') := rfl
  simp only [isInDirectory, Bool.and_eq_true, Bool.or_eq_true, beq_iff_eq, List.head?_reverse,
    hname, occursIn_iff, List.isPrefixOf_iff_prefix]
  refine and_congr_right fun _ => ⟨?_, ?_⟩
  · rintro (⟨before, behind, h⟩ | ⟨behind, h⟩)
    · exact ⟨before ++ ['/'], behind, by simp [← h], .inr (by simp)⟩
    · exact ⟨[], behind, by simp [← h], .inl rfl⟩
  · rintro ⟨before, behind, h, rfl | hbefore⟩
    · exact .inr ⟨behind, by simp [h]⟩
    · obtain ⟨front, rfl⟩ := List.getLast?_eq_some_iff.1 hbefore
      exact .inl ⟨front, behind, by simp [h]⟩

/-- **The patterns leave out what they are to leave out.** -/
theorem isLeftOut_iff : c.isLeftOut globs path = true ↔ LeftOut globs c path := by
  rw [isLeftOut, List.any_eq_true]
  constructor
  · rintro ⟨pattern, hmem, h⟩
    rw [leavesOut, Bool.or_eq_true, isInDirectory_iff] at h
    rcases h with h | ⟨hslash, before, behind, hpath, hbefore⟩
    · split at h
      · cases h
      · rename_i fits hfits
        rcases Bool.or_eq_true_iff.1 h with h | h
        · exact .whole hmem hfits h
        · obtain ⟨name, hname, h⟩ := (Option.any_eq_true _ _).1 h
          exact .fileName hmem hfits hname h
    · exact .directory hmem hslash hpath hbefore
  · intro h
    cases h with
    | @whole pattern fits hmem hfits h =>
      exact ⟨pattern, hmem, by simp [leavesOut, hfits, h]⟩
    | @fileName pattern fits name hmem hfits hname h =>
      exact ⟨pattern, hmem, by simp [leavesOut, hfits, hname, h]⟩
    | @directory pattern before behind hmem hslash hpath hbefore =>
      refine ⟨pattern, hmem, ?_⟩
      rw [leavesOut, Bool.or_eq_true]
      exact .inr (isInDirectory_iff.2 ⟨hslash, before, behind, hpath, hbefore⟩)

end Config

/-! ## What the command relies on -/

/-- **What services promise.** No more is assumed of them. -/
structure Services.Documented (s : Services) : Prop where
  /-- To check and to fix exclude each other. -/
  modes : ∀ args o, s.arguments args = .ok o → o.has .check = true → o.has .fix = false
  /-- A walk finds the files below a directory, each under the path that is joined from the directory's
  own and the names that lead to the file. -/
  walk : ∀ (w : Workspace) (path : String) (p : Place), w.Proper → w.resolve path = .ok p →
    w.isDirectory p = true → ∀ found, ⟨found, true⟩ ∈ s.walk w path ↔
      ∃ names, names ≠ [] ∧ (w.file? (p ++ names)).isSome = true ∧
        found = Path.join path (String.intercalate "/" names)
  /-- A value without numbers other than integers can be written. -/
  json : ∀ j, ∃ text, s.json j = .ok text

namespace Command

open Workspace

variable {s : Services} {w : Workspace} {c : Config} {paths : List String}

/-! ## The files of a run -/

/-- **The files of a run**: what its paths name, and the stylesheets below the directories that they
name, if no pattern leaves them out. -/
inductive Collected (s : Services) (w : Workspace) (c : Config) (paths : List String) : Place → Prop
  | named {path : String} {p : Place} (hpath : path ∈ paths) (hp : w.resolve path = .ok p)
      (hfile : (w.file? p).isSome = true) : Collected s w c paths p
  | below {path : String} {p names : Place} (hpath : path ∈ paths) (hp : w.resolve path = .ok p)
      (hnames : names ≠ []) (hfile : (w.file? (p ++ names)).isSome = true)
      (hdialect : (Path.dialect? (fileName (p ++ names))).isSome = true)
      (hkept : ¬c.LeftOut s.globs (Path.join path (String.intercalate "/" names))) :
      Collected s w c paths (p ++ names)

theorem mem_filesOf {path : String} : path ∈ filesOf s w c paths ↔
    ∃ given ∈ paths, path ∈ (filesAt? s w c given).getD [] := by
  rw [filesOf, List.mem_mergeSort, List.mem_flatMap]

/-- A path that leads to a file stands for this file. -/
theorem filesAt?_of_file {path : String} {p : Place} (hp : w.resolve path = .ok p)
    (hfile : (w.file? p).isSome = true) : filesAt? s w c path = some [path] := by
  simp only [filesAt?, hp, if_pos hfile]

/-- A path that leads to a directory stands for the stylesheets below it. -/
theorem mem_filesAt? (hs : s.Documented) (hw : w.Proper) {path found : String} {p : Place}
    (hp : w.resolve path = .ok p) (hfile : (w.file? p).isSome = false) :
    found ∈ (filesAt? s w c path).getD [] ↔ ∃ names, names ≠ [] ∧
      (w.file? (p ++ names)).isSome = true ∧ found = Path.join path (String.intercalate "/" names) ∧
      (Path.dialect? found).isSome = true ∧ ¬c.LeftOut s.globs found := by
  have hwalk := hs.walk w path p hw hp (isDirectory_of_resolve hp hfile) found
  simp only [filesAt?, hp, hfile, Bool.false_eq_true, if_false, Option.getD_some, List.mem_map,
    List.mem_filter, Bool.and_eq_true, Bool.not_eq_true', ← Config.isLeftOut_iff,
    Bool.not_eq_true]
  constructor
  · rintro ⟨⟨_, _⟩, ⟨hmem, ⟨rfl, hdialect⟩, hkept⟩, rfl⟩
    obtain ⟨names, hne, hthere, hfound⟩ := hwalk.1 hmem
    exact ⟨names, hne, hthere, hfound, hdialect, hkept⟩
  · rintro ⟨names, hne, hthere, hfound, hdialect, hkept⟩
    exact ⟨⟨found, true⟩, ⟨hwalk.2 ⟨names, hne, hthere, hfound⟩, ⟨rfl, hdialect⟩, hkept⟩, rfl⟩

/-- A path of a run leads to a file, and names its dialect. -/
theorem exists_of_mem_filesOf (hs : s.Documented) (hw : w.Proper) {path : String}
    (h : path ∈ filesOf s w c paths) :
    ∃ p, w.resolve path = .ok p ∧ (w.file? p).isSome = true ∧ Collected s w c paths p := by
  obtain ⟨given, hgiven, h⟩ := mem_filesOf.1 h
  cases hp : w.resolve given with
  | error e =>
    rw [filesAt?, hp] at h
    cases h
  | ok p =>
    cases hfile : (w.file? p).isSome with
    | true =>
      rw [filesAt?_of_file hp hfile] at h
      obtain rfl := List.mem_singleton.1 h
      exact ⟨p, hp, hfile, .named hgiven hp hfile⟩
    | false =>
      obtain ⟨names, hne, hthere, rfl, hdialect, hkept⟩ := (mem_filesAt? hs hw hp hfile).1 h
      have hresolve := resolve_join hw hp hne hthere
      rw [dialect?_of_resolve (hw.not_isDirectory hthere) hresolve] at hdialect
      exact ⟨p ++ names, hresolve, hthere, .below hgiven hp hne hthere hdialect hkept⟩

/-- **The command finds the files of a run**, and no others. -/
theorem collected_iff (hs : s.Documented) (hw : w.Proper) {p : Place} :
    Collected s w c paths p ↔ ∃ path ∈ filesOf s w c paths, w.resolve path = .ok p := by
  constructor
  · intro h
    cases h with
    | @named path _ hpath hp hfile =>
      refine ⟨path, mem_filesOf.2 ⟨path, hpath, ?_⟩, hp⟩
      rw [filesAt?_of_file hp hfile]
      exact List.mem_singleton_self path
    | @below path p names hpath hp hne hfile hdialect hkept =>
      have hresolve := resolve_join hw hp hne hfile
      rw [← dialect?_of_resolve (hw.not_isDirectory hfile) hresolve] at hdialect
      have hnofile : (w.file? p).isSome = false := Bool.eq_false_iff.2 fun hthere => by
        have hdirectory := isDirectory_of_below hne hfile
        rw [hw.not_isDirectory hthere] at hdirectory
        cases hdirectory
      exact ⟨_, mem_filesOf.2 ⟨path, hpath, (mem_filesAt? hs hw hp hnofile).2
        ⟨names, hne, hfile, rfl, hdialect, hkept⟩⟩, hresolve⟩
  · rintro ⟨path, hpath, hp⟩
    obtain ⟨q, hq, -, hcollected⟩ := exists_of_mem_filesOf hs hw hpath
    rw [hp] at hq
    rwa [Except.ok.inj hq]

/-- The same paths in another order, or given more than once, stand for the same files. -/
theorem Collected.congr {paths' : List String} (h : ∀ path, path ∈ paths' ↔ path ∈ paths)
    {p : Place} (hp : Collected s w c paths p) : Collected s w c paths' p := by
  cases hp with
  | named hpath hp hfile => exact .named ((h _).2 hpath) hp hfile
  | below hpath hp hne hfile hdialect hkept =>
    exact .below ((h _).2 hpath) hp hne hfile hdialect hkept

end Command

end TidySheet
