import Mathlib.Data.List.Infix
import TidySheet.Files.Workspace

/-!
# A file has one name, whatever the path that leads to it

The command takes the dialect of a file from the path that it was given, or found below a directory.
A path that leads to a file ends in the file's own name: behind that name, an empty segment or dots
would need a directory to go on from. And a path that is joined from one to a directory and names
below it leads to where the names lead from there.

* `Workspace.dialect?_of_resolve` — a path to a file has the dialect of the file's name;
* `Workspace.resolve_join` — the path of a file below a directory leads to the file;
* `Workspace.resolve_write` — where a path leads does not change when a file is written.
-/

set_option autoImplicit false

namespace TidySheet

namespace Path

/-- A text that names a file or a directory. -/
structure IsName (s : List Char) : Prop where
  ne_nil : s ≠ []
  ne_dot : s ≠ ['.']
  ne_dots : s ≠ ['.', '.']
  no_slash : '/' ∉ s

instance (s : List Char) : Decidable (IsName s) :=
  decidable_of_iff (s ≠ [] ∧ s ≠ ['.'] ∧ s ≠ ['.', '.'] ∧ '/' ∉ s)
    ⟨fun ⟨hnil, hdot, hdots, hslash⟩ => ⟨hnil, hdot, hdots, hslash⟩,
      fun ⟨hnil, hdot, hdots, hslash⟩ => ⟨hnil, hdot, hdots, hslash⟩⟩

theorem not_mem_of_mem_splitOn {cs s : List Char} (h : s ∈ cs.splitOn '/') : '/' ∉ s := by
  induction cs generalizing s with
  | nil =>
    obtain rfl := List.mem_singleton.1 h
    exact List.not_mem_nil
  | cons c cs ih =>
    rw [List.splitOn_cons_eq_if_modifyHead] at h
    split at h
    · rcases List.mem_cons.1 h with rfl | h
      · exact List.not_mem_nil
      · exact ih h
    · rename_i hc
      cases hs : cs.splitOn '/' with
      | nil => exact absurd hs (List.splitOn_ne_nil '/' cs)
      | cons t ts =>
        rw [hs] at h ih
        rcases List.mem_cons.1 h with rfl | h
        · have ht := ih List.mem_cons_self
          simp only [List.mem_cons, not_or]
          exact ⟨fun e => hc (by simp [← e]), ht⟩
        · exact ih (List.mem_cons_of_mem _ h)

theorem fileName?_of_splitOn {path : String} {ss : List (List Char)} {s : List Char}
    (h : path.toList.splitOn '/' = ss ++ [s]) (hs : IsName s) :
    fileName? path = some (String.ofList s) := by
  have hname : Component.ofSegment? s = some (.name (String.ofList s)) := by
    rw [Component.ofSegment?, if_neg (by simp [hs.ne_nil, hs.ne_dot]), if_neg hs.ne_dots]
  have hlast : (components path).getLast? = some (.name (String.ofList s)) := by
    simp only [components, h, List.filterMap_append, List.filterMap_cons, List.filterMap_nil, hname]
    rw [← List.append_assoc, List.getLast?_concat]
  rw [fileName?, hlast]

/-- **The dialect of a path is that of its last name.** -/
theorem dialect?_of_splitOn {path : String} {ss : List (List Char)} {s : List Char}
    (h : path.toList.splitOn '/' = ss ++ [s]) (hs : IsName s) :
    dialect? path = dialect? (String.ofList s) := by
  have hown : (String.ofList s).toList.splitOn '/' = [] ++ [s] := by
    rw [String.toList_ofList, List.splitOn_eq_singleton hs.no_slash, List.nil_append]
  rw [dialect?, dialect?, extension?, extension?, fileName?_of_splitOn h hs,
    fileName?_of_splitOn hown hs]

/-- Joined paths have one slash between them. -/
theorem toList_join (directory name : String) : (join directory name).toList =
    if directory.toList.getLast? = some '/' then directory.toList ++ name.toList
    else directory.toList ++ '/' :: name.toList := by
  have hends : directory.endsWith "/" = true ↔ directory.toList.getLast? = some '/' := by
    rw [String.endsWith_eq_endsWith_toSlice, String.Slice.endsWith_string_iff, String.copy_toSlice,
      List.getLast?_eq_some_iff]
    exact exists_congr fun front => eq_comm
  by_cases h : directory.endsWith "/" = true
  · rw [join, if_pos h, if_pos (hends.1 h), String.toList_append]
  · rw [join, if_neg h, if_neg fun hlast => h (hends.2 hlast)]
    simp

end Path

namespace Workspace

/-- The names in a workspace are names, no file is a directory as well, and the root's path has no
slash at its end. -/
structure Proper (w : Workspace) : Prop where
  names : ∀ f ∈ w.files, ∀ name ∈ f.1, Path.IsName name.toList
  apart : ∀ f ∈ w.files, w.isDirectory f.1 = false
  root : w.root.toList.getLast? ≠ some '/'

instance (w : Workspace) : Decidable w.Proper :=
  decidable_of_iff ((∀ f ∈ w.files, ∀ name ∈ f.1, Path.IsName name.toList) ∧
    (∀ f ∈ w.files, w.isDirectory f.1 = false) ∧ w.root.toList.getLast? ≠ some '/')
    ⟨fun ⟨hnames, hapart, hroot⟩ => ⟨hnames, hapart, hroot⟩,
      fun ⟨hnames, hapart, hroot⟩ => ⟨hnames, hapart, hroot⟩⟩

variable {w : Workspace} {p q : Place}

theorem isSome_file?_iff : (w.file? p).isSome = true ↔ ∃ f ∈ w.files, f.1 = p := by
  simp [file?]

theorem Proper.not_isDirectory (hw : w.Proper) (h : (w.file? p).isSome = true) :
    w.isDirectory p = false := by
  obtain ⟨f, hf, rfl⟩ := isSome_file?_iff.1 h
  exact hw.apart f hf

/-- What is above a directory is a directory. -/
theorem isDirectory_of_isPrefix (hpq : p <+: q) (hq : w.isDirectory q = true) :
    w.isDirectory p = true := by
  simp only [isDirectory, Bool.or_eq_true, List.any_eq_true, Bool.and_eq_true,
    List.isPrefixOf_iff_prefix, decide_eq_true_eq] at hq ⊢
  rcases hq with (h | ⟨d, hd, h⟩) | ⟨f, hf, h, hlt⟩
  · exact .inl (.inl (hpq.trans h))
  · exact .inl (.inr ⟨d, hd, hpq.trans h⟩)
  · exact .inr ⟨f, hf, hpq.trans h, Nat.lt_of_le_of_lt hpq.length_le hlt⟩

/-- A segment leads to a place, whatever follows it. -/
theorem exists_step {s : List Char} {ss : List (List Char)} (h : w.follow q (s :: ss) = .ok p) :
    ∃ q', w.follow q' ss = .ok p ∧ ∀ ts, w.follow q (s :: ts) = w.follow q' ts := by
  simp only [follow] at h ⊢
  by_cases hq : w.isDirectory q = true
  case neg => rw [if_neg hq] at h; cases h
  simp only [if_pos hq] at h ⊢
  by_cases hdot : s = [] ∨ s = ['.']
  · simp only [if_pos hdot] at h ⊢
    exact ⟨q, h, fun _ => rfl⟩
  simp only [if_neg hdot] at h ⊢
  by_cases hdots : s = ['.', '.']
  case neg =>
    simp only [if_neg hdots] at h ⊢
    exact ⟨_, h, fun _ => rfl⟩
  simp only [if_pos hdots] at h ⊢
  by_cases hempty : q.isEmpty = true
  · rw [if_pos hempty] at h
    cases h
  · simp only [if_neg hempty] at h ⊢
    exact ⟨_, h, fun _ => rfl⟩

/-- **The last segment of a path to a file is the file's name.** -/
theorem exists_last_of_follow (hp : w.isDirectory p = false) : ∀ {q : Place}
    {ss : List (List Char)}, ss ≠ [] → w.follow q ss = .ok p →
    ∃ ss' s q', ss = ss' ++ [s] ∧ p = q' ++ [String.ofList s] ∧
      s ≠ [] ∧ s ≠ ['.'] ∧ s ≠ ['.', '.']
  | _, [], hss, _ => absurd rfl hss
  | q, [s], _, h => by
    have hend : ∀ q' : Place, w.follow q' [] = .ok p → p = q' := by
      intro q' h
      rw [follow] at h
      split at h
      · exact (Except.ok.inj h).symm
      · cases h
    rw [follow] at h
    split at h
    case isFalse => cases h
    rename_i hq
    split at h
    · rw [hend q h, hq] at hp
      cases hp
    rename_i hdot
    rw [not_or] at hdot
    split at h
    · split at h
      · cases h
      · rw [hend _ h, isDirectory_of_isPrefix (List.dropLast_prefix q) hq] at hp
        cases hp
    · rename_i hdots
      exact ⟨[], s, q, rfl, hend _ h, hdot.1, hdot.2, hdots⟩
  | q, s :: t :: ss, _, h => by
    obtain ⟨q', hq', -⟩ := exists_step h
    obtain ⟨ss', s', q'', hss, hlast⟩ := exists_last_of_follow hp (by simp) hq'
    exact ⟨s :: ss', s', q'', by rw [hss, List.cons_append], hlast⟩

/-- The name of the file at a place. -/
def fileName (p : Place) : String := p.getLastD ""

theorem fileName_concat (p : Place) (name : String) : fileName (p ++ [name]) = name := by
  simp [fileName]

theorem dialect?_of_follow {path : String} {ss : List (List Char)} (front : List (List Char))
    (hp : w.isDirectory p = false) (hpath : path.toList.splitOn '/' = front ++ ss)
    (hss : ss ≠ []) (h : w.follow q ss = .ok p) :
    Path.dialect? path = Path.dialect? (fileName p) := by
  obtain ⟨ss', s, q', rfl, rfl, hnil, hdot, hdots⟩ := exists_last_of_follow hp hss h
  have hmem : s ∈ path.toList.splitOn '/' := by rw [hpath]; simp
  rw [fileName_concat]
  rw [← List.append_assoc] at hpath
  exact Path.dialect?_of_splitOn hpath ⟨hnil, hdot, hdots, Path.not_mem_of_mem_splitOn hmem⟩

/-! ## Where a path starts -/

/-- The place that a path starts from, and what is left of the path there. -/
inductive Start (w : Workspace) (path : String) : Place → List Char → Prop
  | here (hne : path.toList ≠ []) (hslash : path.toList.head? ≠ some '/') :
      Start w path w.cwd path.toList
  | root {rest : List Char} (hslash : path.toList.head? = some '/')
      (hpath : path.toList = w.root.toList ++ '/' :: rest) : Start w path [] rest

theorem resolve_of_start {path : String} {cs : List Char} (h : Start w path q cs) :
    w.resolve path = w.follow q (cs.splitOn '/') := by
  unfold resolve
  cases h with
  | here hne hslash =>
    split
    · rename_i hnil
      exact absurd hnil hne
    · rename_i hcons
      exact absurd (by rw [hcons]; rfl) hslash
    · rfl
  | root hslash hpath =>
    have hroot : w.root.toList.isPrefixOf? path.toList = some ('/' :: cs) :=
      List.isPrefixOf?_eq_some_iff_append_eq.2 hpath.symm
    split
    · rename_i hnil
      rw [hnil] at hslash
      cases hslash
    · simp only [hroot]
    · rename_i hnot
      obtain ⟨cs, hcs⟩ := List.head?_eq_some_iff.1 hslash
      exact absurd hcs (hnot cs)

/-- A path leads somewhere from its start, or it is the path of the root itself. -/
theorem exists_start_of_resolve {path : String} (h : w.resolve path = .ok p) :
    (∃ q cs, Start w path q cs ∧ w.follow q (cs.splitOn '/') = .ok p) ∨
      path.toList.head? = some '/' ∧ path.toList = w.root.toList ∧ p = [] := by
  unfold resolve at h
  split at h
  · cases h
  · rename_i cs hcs
    have hslash : path.toList.head? = some '/' := by rw [hcs]; rfl
    split at h
    · rename_i hroot
      rw [List.isPrefixOf?_eq_some_iff_append_eq, List.append_nil] at hroot
      refine .inr ⟨hslash, hroot.symm, ?_⟩
      rw [follow] at h
      split at h
      · exact (Except.ok.inj h).symm
      · cases h
    · rename_i rest hrest
      rw [List.isPrefixOf?_eq_some_iff_append_eq] at hrest
      exact .inl ⟨[], rest, .root hslash hrest.symm, h⟩
    · cases h
  · rename_i hnil hslash
    refine .inl ⟨w.cwd, path.toList, .here hnil fun hhead => ?_, h⟩
    obtain ⟨cs, hcs⟩ := List.head?_eq_some_iff.1 hhead
    exact hslash cs hcs

theorem isDirectory_nil (w : Workspace) : w.isDirectory [] = true := by
  simp [isDirectory]

theorem isThere_of_follow {ss : List (List Char)} (h : w.follow q ss = .ok p) :
    w.isThere p = true := by
  induction ss generalizing q with
  | nil =>
    rw [follow] at h
    split at h
    · rename_i hthere
      rwa [← Except.ok.inj h]
    · cases h
  | cons s ss ih =>
    obtain ⟨q', hq', -⟩ := exists_step h
    exact ih hq'

/-- A path that leads somewhere, but to no file, leads to a directory. -/
theorem isDirectory_of_resolve {path : String} (h : w.resolve path = .ok p)
    (hfile : (w.file? p).isSome = false) : w.isDirectory p = true := by
  rcases exists_start_of_resolve h with ⟨q, cs, -, hfollow⟩ | ⟨-, -, rfl⟩
  · have hthere := isThere_of_follow hfollow
    rwa [isThere, hfile, Bool.or_false] at hthere
  · exact w.isDirectory_nil

/-- A path to a file has the dialect of the file's name. -/
theorem dialect?_of_resolve {path : String} (hp : w.isDirectory p = false)
    (h : w.resolve path = .ok p) : Path.dialect? path = Path.dialect? (fileName p) := by
  rcases exists_start_of_resolve h with ⟨q, cs, hstart, hfollow⟩ | ⟨-, -, rfl⟩
  · cases hstart with
    | here => exact dialect?_of_follow [] hp rfl (List.splitOn_ne_nil _ _) hfollow
    | @root rest _ hpath =>
      refine dialect?_of_follow (w.root.toList.splitOn '/') hp ?_ (List.splitOn_ne_nil _ _) hfollow
      rw [hpath, List.splitOn_append_cons_self]
  · rw [w.isDirectory_nil] at hp
    cases hp

/-! ## Joined paths -/

/-- **Segments are followed one after the other.** -/
theorem follow_append {ss ts : List (List Char)} (h : w.follow q ss = .ok p) :
    w.follow q (ss ++ ts) = w.follow p ts := by
  induction ss generalizing q with
  | nil =>
    rw [follow] at h
    split at h
    · rw [Except.ok.inj h, List.nil_append]
    · cases h
  | cons s ss ih =>
    obtain ⟨q', hq', hstep⟩ := exists_step h
    rw [List.cons_append, hstep, ih hq']

/-- What comes before an empty segment leads to the same place. -/
theorem follow_of_append_blank {ss : List (List Char)} (h : w.follow q (ss ++ [[]]) = .ok p) :
    w.follow q ss = .ok p := by
  induction ss generalizing q with
  | nil =>
    rw [List.nil_append, follow] at h
    split at h
    · rwa [if_pos (.inl rfl)] at h
    · cases h
  | cons s ss ih =>
    obtain ⟨q', hq', hstep⟩ := exists_step h
    rw [hstep, ih hq']

/-- A text behind a path that ends in a slash, or has nothing left. -/
theorem follow_splitOn_append {cs rel : List Char} (h : w.follow q (cs.splitOn '/') = .ok p)
    (hend : cs = [] ∨ cs.getLast? = some '/') :
    w.follow q ((cs ++ rel).splitOn '/') = w.follow p (rel.splitOn '/') := by
  rcases hend with rfl | hlast
  · have hhere : w.follow q [] = .ok p := follow_of_append_blank h
    exact follow_append hhere
  · obtain ⟨front, rfl⟩ := List.getLast?_eq_some_iff.1 hlast
    rw [List.splitOn_append_cons_self, List.splitOn_nil] at h
    rw [List.append_assoc, List.singleton_append, List.splitOn_append_cons_self]
    exact follow_append (follow_of_append_blank h)

/-- A text behind a slash. -/
theorem follow_splitOn_append_slash {cs rel : List Char}
    (h : w.follow q (cs.splitOn '/') = .ok p) :
    w.follow q ((cs ++ '/' :: rel).splitOn '/') = w.follow p (rel.splitOn '/') := by
  rw [List.splitOn_append_cons_self, follow_append h]

/-- **A joined path leads on from where the directory's path leads.** -/
theorem resolve_join_eq (hw : w.Proper) {path : String} (h : w.resolve path = .ok p)
    (rel : String) :
    w.resolve (Path.join path rel) = w.follow p (rel.toList.splitOn '/') := by
  have hjoin := Path.toList_join path rel
  rcases exists_start_of_resolve h with ⟨q, cs, hstart, hfollow⟩ | ⟨hslash, hroot, rfl⟩
  · cases hstart with
    | here hne hslash =>
      obtain ⟨c, cs, hcs⟩ := List.exists_cons_of_ne_nil hne
      have hstart : Start w (Path.join path rel) w.cwd (Path.join path rel).toList := by
        rw [hcs] at hslash hjoin
        refine .here ?_ ?_ <;> rw [hjoin] <;> split
        · simp
        · simp
        · exact hslash
        · exact hslash
      rw [resolve_of_start hstart, hjoin]
      split
      · exact follow_splitOn_append hfollow (.inr ‹_›)
      · exact follow_splitOn_append_slash hfollow
    | root hslash hpath =>
      obtain ⟨rest, hrest⟩ := List.head?_eq_some_iff.1 hslash
      have hhead : (Path.join path rel).toList.head? = some '/' := by
        rw [hjoin, hrest]
        split <;> rfl
      split at hjoin
      · rename_i hlast
        rw [hpath, List.append_assoc, List.cons_append] at hjoin
        rw [resolve_of_start (.root hhead hjoin)]
        refine follow_splitOn_append hfollow ((List.eq_nil_or_concat' cs).imp_right ?_)
        rintro ⟨front, c, rfl⟩
        rw [hpath, ← List.cons_append, ← List.append_assoc, List.getLast?_concat] at hlast
        rw [List.getLast?_concat, hlast]
      · rw [hpath, List.append_assoc, List.cons_append] at hjoin
        rw [resolve_of_start (.root hhead hjoin), follow_splitOn_append_slash hfollow]
  · have hlast : path.toList.getLast? ≠ some '/' := by
      rw [hroot]
      exact hw.root
    have hhead : (Path.join path rel).toList.head? = some '/' := by
      obtain ⟨rest, hrest⟩ := List.head?_eq_some_iff.1 hslash
      rw [hjoin, if_neg hlast, hrest]
      rfl
    rw [if_neg hlast, hroot] at hjoin
    exact resolve_of_start (.root hhead hjoin)

/-! ## Files below a directory -/

theorem isDirectory_of_below {names : Place} (hne : names ≠ [])
    (hfile : (w.file? (p ++ names)).isSome = true) : w.isDirectory p = true := by
  obtain ⟨f, hf, hplace⟩ := isSome_file?_iff.1 hfile
  simp only [isDirectory, Bool.or_eq_true, List.any_eq_true, Bool.and_eq_true,
    List.isPrefixOf_iff_prefix, decide_eq_true_eq]
  refine .inr ⟨f, hf, by simp [hplace], ?_⟩
  rw [hplace, List.length_append]
  have hlength := List.length_pos_of_ne_nil hne
  omega

/-- Names lead to the file that they are the names of. -/
theorem follow_names {names : Place} (hnames : ∀ name ∈ names, Path.IsName name.toList)
    (hfile : (w.file? (p ++ names)).isSome = true) :
    w.follow p (names.map String.toList) = .ok (p ++ names) := by
  induction names generalizing p with
  | nil =>
    rw [List.append_nil] at hfile ⊢
    rw [List.map_nil, follow, if_pos (by rw [isThere, hfile, Bool.or_true])]
  | cons name names ih =>
    have hdirectory := isDirectory_of_below (List.cons_ne_nil name names) hfile
    have hname := hnames name List.mem_cons_self
    rw [List.append_cons] at hfile ⊢
    rw [List.map_cons, follow, if_pos hdirectory,
      if_neg (not_or.2 ⟨hname.ne_nil, hname.ne_dot⟩), if_neg hname.ne_dots, String.ofList_toList]
    exact ih (fun m hm => hnames m (List.mem_cons_of_mem name hm)) hfile

/-- **The path of a file below a directory leads to the file.** -/
theorem resolve_join (hw : w.Proper) {path : String} (h : w.resolve path = .ok p) {names : Place}
    (hne : names ≠ []) (hfile : (w.file? (p ++ names)).isSome = true) :
    w.resolve (Path.join path (String.intercalate "/" names)) = .ok (p ++ names) := by
  have hnames : ∀ name ∈ names, Path.IsName name.toList := by
    obtain ⟨f, hf, hplace⟩ := isSome_file?_iff.1 hfile
    exact fun name hname => hw.names f hf name (by rw [hplace]; exact List.mem_append_right p hname)
  have hsplit : (String.intercalate "/" names).toList.splitOn '/' = names.map String.toList := by
    have hslash : "/".toList = ['/'] := by decide
    rw [String.toList_intercalate, hslash, List.splitOn_intercalate _ _ (by simpa using hne)]
    intro s hs
    obtain ⟨name, hname, rfl⟩ := List.mem_map.1 hs
    exact (hnames name hname).no_slash
  rw [resolve_join_eq hw h, hsplit, follow_names hnames hfile]

/-! ## Writing -/

theorem file?_write (w : Workspace) (p q : Place) (s : String) :
    (w.write p s).file? q = if q = p then (w.file? q).map fun _ => .text s else w.file? q := by
  split
  · rename_i h
    subst h
    cases hq : w.file? q with
    | none =>
      have hnone : ¬∃ f ∈ w.files, f.1 = q := by
        rw [← isSome_file?_iff, hq]
        simp
      rw [Option.map_none, ← Option.not_isSome_iff_eq_none, isSome_file?_iff]
      rintro ⟨f, hf, hfq⟩
      obtain ⟨g, hg, rfl⟩ := List.mem_map.1 hf
      split at hfq
      · exact hnone ⟨g, hg, ‹_›⟩
      · exact hnone ⟨g, hg, hfq⟩
    | some content => exact write_self w q s (by rw [hq]; rfl)
  · rename_i h
    exact write_other w p q s h

theorem isDirectory_write (w : Workspace) (p q : Place) (s : String) :
    (w.write p s).isDirectory q = w.isDirectory q := by
  have hplace : ∀ f : Place × Content, (if f.1 = p then (p, Content.text s) else f).1 = f.1 := by
    intro f
    split
    · exact Eq.symm ‹_›
    · rfl
  simp only [isDirectory, write, List.any_map, Function.comp_def, hplace]

theorem isSome_file?_write (w : Workspace) (p q : Place) (s : String) :
    ((w.write p s).file? q).isSome = (w.file? q).isSome := by
  rw [file?_write]
  split <;> simp

theorem follow_write (p q : Place) (s : String) (ss : List (List Char)) :
    (w.write p s).follow q ss = w.follow q ss := by
  induction ss generalizing q with
  | nil => rw [follow, follow, isThere, isThere, isDirectory_write, isSome_file?_write]
  | cons t ss ih => simp only [follow, isDirectory_write, isSome_file?_write, ih]

/-- **Where a path leads does not change when a file is written.** -/
theorem resolve_write (w : Workspace) (p : Place) (s path : String) :
    (w.write p s).resolve path = w.resolve path := by
  simp only [resolve, follow_write]
  rfl

end Workspace

end TidySheet
