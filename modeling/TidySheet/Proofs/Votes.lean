import TidySheet.Rule.VendorAlign

/-!
# What a block votes

Vendor alignment is detected by one walk along the properties of a block and one along its values.
Here the walk is described by what it counts: the groups of neighbours with one base name, each of
which votes if names with different marks stand side by side in it.

* `countRuns_eq` — the walk counts the votes of the groups;
* `mem_neighbours_of_mem_rivals` — the rivals in a group are neighbours with one base name;
* `voteBlock_ne_false` — a block votes against alignment if most of its groups do.
-/

set_option autoImplicit false

namespace TidySheet.VendorAlign

/-! ## Groups -/

/-- The groups of neighbours with one base name. -/
def groups : List Occurrence → List (List Occurrence)
  | [] => []
  | o :: os =>
    match groups os with
    | (p :: g) :: gs => if o.base = p.base then (o :: p :: g) :: gs else [o] :: (p :: g) :: gs
    | gs => [o] :: gs

/-- Neighbours with different marks. -/
def rivals (g : List Occurrence) : List (Occurrence × Occurrence) :=
  (g.zip g.tail).filter fun (p, o) => p.mark != o.mark

/-- A group with rivals votes for alignment if all of them end in one column. -/
def groupVote (g : List Occurrence) : Option Bool :=
  if (rivals g).isEmpty then none else some ((rivals g).all fun (p, o) => p.total == o.total)

theorem exists_groups_cons (o : Occurrence) (os : List Occurrence) :
    ∃ g gs, groups (o :: os) = (o :: g) :: gs := by
  rw [groups]
  split
  · split
    · exact ⟨_, _, rfl⟩
    · exact ⟨_, _, rfl⟩
  · exact ⟨_, _, rfl⟩

theorem groups_cons_cons (p o : Occurrence) (os : List Occurrence) {g : List Occurrence}
    {gs : List (List Occurrence)} (h : groups (o :: os) = (o :: g) :: gs) :
    groups (p :: o :: os) =
      if p.base = o.base then (p :: o :: g) :: gs else [p] :: (o :: g) :: gs := by
  rw [groups, h]

theorem rivals_cons_cons (p o : Occurrence) (g : List Occurrence) :
    rivals (p :: o :: g) =
      if p.mark = o.mark then rivals (o :: g) else (p, o) :: rivals (o :: g) := by
  unfold rivals
  rw [List.tail_cons, List.zip_cons_cons, List.filter_cons]
  by_cases hm : p.mark = o.mark
  · simp [hm]
  · simp [hm]

/-- The rivals in a group are neighbours with one base name. -/
theorem mem_neighbours_of_mem_rivals {os g : List Occurrence} {p o : Occurrence}
    (hg : g ∈ groups os) (h : (p, o) ∈ rivals g) :
    (p, o) ∈ os.zip os.tail ∧ p.base = o.base ∧ p.mark ≠ o.mark := by
  induction os generalizing g with
  | nil => cases hg
  | cons q os ih =>
    cases os with
    | nil =>
      rw [groups, groups, List.mem_singleton] at hg
      rw [hg] at h
      cases h
    | cons r os =>
      have htail : ∀ {g : List Occurrence}, g ∈ groups (r :: os) → (p, o) ∈ rivals g →
          (p, o) ∈ (q :: r :: os).zip (q :: r :: os).tail ∧ p.base = o.base ∧ p.mark ≠ o.mark := by
        intro g hg h
        obtain ⟨hmem, hrest⟩ := ih hg h
        exact ⟨List.mem_cons_of_mem _ hmem, hrest⟩
      obtain ⟨g', gs, hgs⟩ := exists_groups_cons r os
      rw [groups_cons_cons q r os hgs] at hg
      by_cases hb : q.base = r.base
      · rw [if_pos hb] at hg
        rcases List.mem_cons.1 hg with rfl | hg
        · rw [rivals_cons_cons] at h
          split at h
          · exact htail (by rw [hgs]; simp) h
          · rename_i hm
            rcases List.mem_cons.1 h with h | h
            · cases h
              exact ⟨by simp, hb, hm⟩
            · exact htail (by rw [hgs]; simp) h
        · exact htail (by rw [hgs]; simp [hg]) h
      · rw [if_neg hb] at hg
        rcases List.mem_cons.1 hg with rfl | hg
        · cases h
        · exact htail (by rw [hgs]; exact hg) h

theorem groupVote_ne_false {g : List Occurrence} (h : ∀ p o, (p, o) ∈ rivals g → p.total = o.total) :
    groupVote g ≠ some false := by
  unfold groupVote
  split
  · simp
  · have hall : ((rivals g).all fun (p, o) => p.total == o.total) = true := by
      rw [List.all_eq_true]
      rintro ⟨p, o⟩ hpo
      simpa using h p o hpo
    rw [hall]
    decide

/-! ## The walk -/

/-- The vote of a group whose first part has voted `a` and whose rest votes `b`. -/
def merge : Option Bool → Option Bool → Option Bool
  | some false, _ => some false
  | a, none => a
  | _, some b => some b

@[simp] theorem merge_none_left (b : Option Bool) : merge none b = b := by
  cases b <;> rfl

@[simp] theorem merge_none_right (a : Option Bool) : merge a none = a := by
  rcases a with _ | _ | _ <;> rfl

@[simp] theorem groupVote_singleton (p : Occurrence) : groupVote [p] = none := rfl

theorem groupVote_cons_cons (p o : Occurrence) (g : List Occurrence) :
    groupVote (p :: o :: g) =
      if p.mark = o.mark then groupVote (o :: g)
      else merge (some (p.total == o.total)) (groupVote (o :: g)) := by
  unfold groupVote
  rw [rivals_cons_cons]
  split
  · rfl
  · rw [if_neg (by simp), List.all_cons]
    dsimp only
    by_cases hr : (rivals (o :: g)).isEmpty = true
    · rw [if_pos hr, List.isEmpty_iff.1 hr]
      cases p.total == o.total <;> rfl
    · rw [if_neg hr]
      cases p.total == o.total <;> rfl

/-- What the walk notes on a neighbour of the same base name. -/
theorem merge_pending (p o : Occurrence) (g : List Occurrence) (pending : Option Bool) :
    merge (if p.mark ≠ o.mark ∧ pending ≠ some false then some (p.total == o.total) else pending)
      (groupVote (o :: g)) = merge pending (groupVote (p :: o :: g)) := by
  rw [groupVote_cons_cons]
  by_cases hm : p.mark = o.mark
  · rw [if_neg (fun h => h.1 hm), if_pos hm]
  · rw [if_neg hm]
    rcases pending with _ | _ | _
    · rw [if_pos ⟨hm, by simp⟩]
      cases p.total == o.total <;> cases groupVote (o :: g) <;> rfl
    · rw [if_neg (fun h => h.2 rfl)]
      rfl
    · rw [if_pos ⟨hm, by simp⟩]
      cases p.total == o.total <;> cases groupVote (o :: g) <;> rfl

/-- The walk from inside a group. -/
theorem finish_foldl_observe (os : List Occurrence) {p : Occurrence} {pending : Option Bool}
    {t : Tally} {g : List Occurrence} {gs : List (List Occurrence)}
    (hg : groups (p :: os) = (p :: g) :: gs) :
    (os.foldl Run.observe ⟨some p, pending, t⟩).finish =
      gs.foldl (fun t g => t.cast (groupVote g)) (t.cast (merge pending (groupVote (p :: g)))) := by
  induction os generalizing p pending t g gs with
  | nil =>
    cases hg
    rw [groupVote_singleton, merge_none_right]
    rfl
  | cons o os ih =>
    obtain ⟨g', gs', ho⟩ := exists_groups_cons o os
    rw [groups_cons_cons p o os ho] at hg
    rw [List.foldl_cons, Run.observe]
    dsimp only
    split at hg
    · rename_i hb
      cases hg
      rw [if_pos hb, ih ho, merge_pending]
    · rename_i hb
      cases hg
      rw [if_neg hb, ih ho, List.foldl_cons, merge_none_left, groupVote_singleton,
        merge_none_right]

/-- **The walk counts the votes of the groups.** -/
theorem countRuns_eq (t : Tally) (os : List Occurrence) :
    countRuns t os = (groups os).foldl (fun t g => t.cast (groupVote g)) t := by
  cases os with
  | nil => rfl
  | cons o os =>
    obtain ⟨g, gs, hg⟩ := exists_groups_cons o os
    rw [countRuns, List.foldl_cons, hg, List.foldl_cons]
    show (os.foldl Run.observe ⟨some o, none, t⟩).finish = _
    rw [finish_foldl_observe os hg, merge_none_left]

theorem foldl_cast (gs : List (List Occurrence)) (t : Tally) :
    gs.foldl (fun t g => t.cast (groupVote g)) t =
      ⟨t.aligned + gs.countP (groupVote · == some true),
        t.misaligned + gs.countP (groupVote · == some false)⟩ := by
  induction gs generalizing t with
  | nil => rfl
  | cons g gs ih =>
    rw [List.foldl_cons, ih, List.countP_cons, List.countP_cons]
    rcases hv : groupVote g with _ | _ | _
    · rfl
    · simp only [Tally.cast, Tally.mk.injEq]
      constructor
      · rfl
      · show _ = _ + (_ + 1)
        omega
    · simp only [Tally.cast, Tally.mk.injEq]
      constructor
      · show _ = _ + (_ + 1)
        omega
      · rfl

theorem verdict_ne_false (t : Tally) :
    t.verdict ≠ some false ↔ t.misaligned ≤ t.aligned := by
  unfold Tally.verdict
  split
  · rename_i hz
    simp only [ne_eq, reduceCtorEq, not_false_eq_true, true_iff]
    omega
  · simp

/-- **A block votes against alignment** if more of its groups do than vote for it. -/
theorem voteBlock_ne_false (block : Node) : voteBlock block ≠ some false ↔
    (groups (votingProperties block.children) ++
        groups (votingValues block.children)).countP (groupVote · == some false) ≤
      (groups (votingProperties block.children) ++
        groups (votingValues block.children)).countP (groupVote · == some true) := by
  rw [voteBlock, verdict_ne_false, countRuns_eq, countRuns_eq, ← List.foldl_append, foldl_cast]
  simp

end TidySheet.VendorAlign
