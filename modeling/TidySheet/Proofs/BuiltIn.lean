import TidySheet.Command.Run
import TidySheet.Proofs.Collection

/-!
# The services of the library keep the promises

* `Args.has_fix_of_has_check` — no arguments are read that ask for a check and for fixes;
* `Workspace.mem_below` — the files that a walk comes upon;
* `Services.documented_builtIn` — what is proved of a run holds with these services.
-/

set_option autoImplicit false

namespace TidySheet

namespace Args

theorem eq_of_validate {o o' : Options} (h : validate o = .ok (.run o')) : o = o' := by
  unfold validate at h
  simp only at h
  split at h
  · cases h
  · split at h
    · cases h
    · exact Request.run.inj (Except.ok.inj h)

theorem validate_of_read {o o' : Options} {args : List String}
    (h : read o args = .ok (.run o')) : validate o' = .ok (.run o') := by
  fun_induction read o args
  case case1 => exact eq_of_validate h ▸ h
  case case6 => exact eq_of_validate h ▸ h
  -- the other cases end with an error, with the version, or with the arguments that are left
  all_goals first
    | cases h
    | (rename_i ih; exact ih h)

/-- Options that are read are in one mode at most. -/
theorem has_fix_of_has_check {args : List String} {o : Options}
    (h : parse args = .ok (.run o)) (hc : o.has .check = true) : o.has .fix = false := by
  have hv := validate_of_read h
  unfold validate at hv
  cases hf : o.has .fix with
  | false => rfl
  | true =>
    simp only [hf, hc] at hv
    cases hd : o.has .detect <;> simp [hd] at hv

theorem parse_of_options {args : List String} {o : Options} (h : options args = .ok o) :
    parse args = .ok (.run o) := by
  rw [options] at h
  split at h
  · cases h
  · cases h
  · rename_i hparse
    rw [hparse, Except.ok.inj h]

end Args

namespace Workspace

variable {w : Workspace} {path found : String} {p : Place}

theorem mem_entriesAt {isFile : Bool} {places : List Place} {e : Entry} :
    e ∈ entriesAt path p isFile places ↔
      ∃ names, p ++ names ∈ places ∧ e = ⟨pathBelow path names, isFile⟩ := by
  simp only [entriesAt, List.mem_filterMap, Option.map_eq_some_iff,
    List.isPrefixOf?_eq_some_iff_append_eq]
  constructor
  · rintro ⟨q, hq, names, rfl, rfl⟩
    exact ⟨names, hq, rfl⟩
  · rintro ⟨names, hq, rfl⟩
    exact ⟨p ++ names, hq, names, rfl, rfl⟩

theorem pathBelow_of_ne_nil {names : Place} (h : names ≠ []) :
    pathBelow path names = Path.join path (String.intercalate "/" names) := by
  cases names with
  | nil => exact absurd rfl h
  | cons name names => rfl

/-- **A walk comes upon the files below a directory**, and upon no others. -/
theorem mem_below (hw : w.Proper) (hp : w.resolve path = .ok p) (hd : w.isDirectory p = true) :
    ⟨found, true⟩ ∈ w.below path ↔ ∃ names, names ≠ [] ∧ (w.file? (p ++ names)).isSome = true ∧
      found = Path.join path (String.intercalate "/" names) := by
  have hplaces : ∀ q, q ∈ w.files.map Prod.fst ↔ (w.file? q).isSome = true := fun q => by
    rw [List.mem_map, isSome_file?_iff]
  -- the directory itself is no file
  have hne : ∀ names, (w.file? (p ++ names)).isSome = true → names ≠ [] := by
    rintro names hfile rfl
    rw [List.append_nil] at hfile
    rw [hw.not_isDirectory hfile] at hd
    cases hd
  simp only [below, hp, List.mem_append, mem_entriesAt, Entry.mk.injEq, Bool.true_eq_false,
    and_false, exists_false, false_or, and_true, hplaces]
  constructor
  · rintro ⟨names, hfile, rfl⟩
    exact ⟨names, hne names hfile, hfile, pathBelow_of_ne_nil (hne names hfile)⟩
  · rintro ⟨names, hnames, hfile, rfl⟩
    exact ⟨names, hfile, (pathBelow_of_ne_nil hnames).symm⟩

end Workspace

/-- **What is proved of a run holds with the services of the library.** -/
theorem Services.documented_builtIn : Services.builtIn.Documented where
  modes _ _ h := Args.has_fix_of_has_check (Args.parse_of_options h)
  walk _ _ _ hw hp hd _ := Workspace.mem_below hw hp hd
  json j := ⟨j.render, rfl⟩

end TidySheet
