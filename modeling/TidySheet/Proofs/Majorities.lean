import Mathlib.Data.Bool.Count
import Mathlib.Data.List.DropRight
import Mathlib.Data.List.SplitBy
import TidySheet.Proofs.Votes

/-!
# Detection as a majority of runs

Detection walks over a block twice with a state of its own, first along its properties and then
along its values. Here its answer is told without a walk: the names are read off the block, each
with the columns of its mark and the offset where its mark ends, they are cut into the longest runs
of one base name, and the runs vote.

* `namedProperties`, `namedValues` — the names that are compared;
* `groups_eq_runs` — the groups of the walk are the runs;
* `votingProperties_eq`, `map_bare_votingValues` — the walk meets these names;
* `detect_majority` — a block's verdict is the majority of its runs.
-/

set_option autoImplicit false

namespace TidySheet

/-- The occurrence without a namespace. -/
def Occurrence.bare (o : Occurrence) : Occurrence := { o with id := o.base }

namespace VendorAlign

open Node VendorBlock

/-! ## Names, runs and majorities -/

/-- The siblings of the child at an index, since the last delimiter before it. -/
def siblingLead (cs : List Node) (i : Nat) : List Node :=
  (cs.take i).rtakeWhile fun n => !n.is .declarationDelimiter

/-- The named properties of a block; its first child is left out. -/
def namedProperties (cs : List Node) : List Occurrence :=
  (cs.zipIdx.drop 1).filterMap fun (n, i) =>
    (propertyName? n).map fun name => .ofName name [] (Indent.measure (siblingLead cs i)).width

/-- The named values of a block that stand behind a colon. -/
def namedValues (cs : List Node) : List Occurrence :=
  cs.filterMap fun n =>
    (valueLead? n).bind fun lead =>
      (valueName? n).map fun name => .ofName name [] (Indent.measure lead).width

/-- The longest runs of neighbours with one base name. -/
def runs (os : List Occurrence) : List (List Occurrence) :=
  os.splitBy fun p o => p.base == o.base

/-- The votes of a block: its runs with rivals, each for alignment if all of them end in one
column. -/
def runVotes (block : Node) : List Bool :=
  (runs (namedProperties block.children) ++ runs (namedValues block.children)).filterMap groupVote

/-- What most votes say, a tie being for `true`; without votes, nothing. -/
def majority (votes : List Bool) : Option Bool :=
  if votes = [] then none else some (votes.count false ≤ votes.count true)

/-! ## The groups of the walk are the runs -/

theorem flatten_groups (os : List Occurrence) : (groups os).flatten = os := by
  induction os with
  | nil => rfl
  | cons o os ih =>
    cases os with
    | nil => rfl
    | cons p os =>
      obtain ⟨g, gs, hg⟩ := exists_groups_cons p os
      rw [hg, List.flatten_cons] at ih
      rw [groups_cons_cons o p os hg]
      split
      · rw [List.flatten_cons, List.cons_append, ih]
      · rw [List.flatten_cons, List.flatten_cons, ih, List.singleton_append]

/-- A group is a run: it is not empty, and neighbours in it have one base name. -/
theorem isChain_of_mem_groups {os g : List Occurrence} (hg : g ∈ groups os) :
    g ≠ [] ∧ g.IsChain fun p o => (p.base == o.base) = true := by
  induction os generalizing g with
  | nil => cases hg
  | cons o os ih =>
    cases os with
    | nil =>
      obtain rfl : g = [o] := List.mem_singleton.1 hg
      exact ⟨by simp, .singleton o⟩
    | cons p os =>
      obtain ⟨g', gs, hgs⟩ := exists_groups_cons p os
      rw [groups_cons_cons o p os hgs] at hg
      rw [hgs] at ih
      split at hg
      · rename_i hb
        rcases List.mem_cons.1 hg with rfl | hg
        · have hchain := (ih List.mem_cons_self).2
          exact ⟨by simp, .cons_cons (beq_iff_eq.2 hb) hchain⟩
        · exact ih (List.mem_cons_of_mem _ hg)
      · rcases List.mem_cons.1 hg with rfl | hg
        · exact ⟨by simp, .singleton o⟩
        · exact ih hg

/-- Groups cannot be made longer: where one ends and the next starts, the base names differ. -/
theorem isChain_groups (os : List Occurrence) :
    (groups os).IsChain fun a b => ∃ ha hb, ((a.getLast ha).base == (b.head hb).base) = false := by
  induction os with
  | nil => exact .nil
  | cons o os ih =>
    cases os with
    | nil => exact .singleton [o]
    | cons p os =>
      obtain ⟨g, gs, hg⟩ := exists_groups_cons p os
      rw [hg] at ih
      rw [groups_cons_cons o p os hg]
      split
      · rw [List.isChain_cons] at ih ⊢
        refine ⟨fun b hb => ?_, ih.2⟩
        obtain ⟨ha, hb', hne⟩ := ih.1 b hb
        exact ⟨by simp, hb', by rwa [List.getLast_cons ha]⟩
      · rename_i hb
        exact .cons_cons ⟨by simp, by simp, beq_eq_false_iff_ne.2 hb⟩ ih

/-- **The groups that the walk counts are the runs.** -/
theorem groups_eq_runs (os : List Occurrence) : groups os = runs os := by
  have hrun := @isChain_of_mem_groups os
  refine (List.splitBy_eq_iff.2 ⟨(flatten_groups os).symm, ?_, ?_, isChain_groups os⟩).symm
  · exact fun h => (hrun h).1 rfl
  · exact fun g hg => (hrun hg).2

/-! ## The names that the walk meets -/

/-- The siblings behind a list of others, each with those since the last delimiter before it. -/
theorem withLead_eq (before ns : List Node) :
    withLead (siblingLead (before ++ ns) before.length).reverse ns =
      (ns.zipIdx before.length).map fun (n, i) => ((siblingLead (before ++ ns) i).reverse, n) := by
  induction ns generalizing before with
  | nil => rfl
  | cons n ns ih =>
    have hnext : siblingLead (before ++ n :: ns) (before.length + 1) =
        if n.is .declarationDelimiter then []
        else siblingLead (before ++ n :: ns) before.length ++ [n] := by
      have htake : (before ++ n :: ns).take (before.length + 1) = before ++ [n] :=
        List.take_length_add_append 1
      rw [siblingLead, siblingLead, htake, List.take_left, List.rtakeWhile_concat]
      cases n.is .declarationDelimiter <;> rfl
    have htail := ih (before ++ [n])
    rw [List.append_assoc, List.singleton_append, List.length_append, List.length_singleton,
      hnext] at htail
    rw [withLead, List.zipIdx_cons, List.map_cons, ← htail]
    cases n.is .declarationDelimiter <;> simp

theorem votingProperties_eq (cs : List Node) : votingProperties cs = namedProperties cs := by
  have hlead : withLead [] cs = cs.zipIdx.map fun (n, i) => ((siblingLead cs i).reverse, n) :=
    withLead_eq [] cs
  rw [votingProperties, properties, hlead, namedProperties, List.map_map, ← List.map_drop,
    List.filterMap_map]
  rfl

/-- The namespace of a value has no part in its name, its mark and its offset. -/
theorem map_bare_votingValues (cs : List Node) :
    (votingValues cs).map Occurrence.bare = namedValues cs := by
  rw [votingValues, namedValues, List.map_filterMap]
  apply List.filterMap_congr
  intro n _
  cases hlead : valueLead? n with
  | none => rfl
  | some lead =>
    cases hname : valueName? n with
    | none => simp [valueOccurrence?, hname]
    | some name =>
      simp [valueOccurrence?, valueIndent, hname, hlead, Occurrence.bare, Occurrence.ofName]

/-! ## The walk does not look at namespaces -/

/-- The state of a walk that has met the names without their namespaces. -/
def Run.bare (r : Run) : Run := { r with previous := r.previous.map Occurrence.bare }

theorem observe_bare (r : Run) (o : Occurrence) : r.bare.observe o.bare = (r.observe o).bare := by
  obtain ⟨previous, pending, t⟩ := r
  cases previous with
  | none => rfl
  | some p =>
    simp only [Run.observe, Run.bare, Option.map_some]
    by_cases hb : p.base = o.base
    · rw [if_pos hb, if_pos (show p.bare.base = o.bare.base from hb)]
      rfl
    · rw [if_neg hb, if_neg (show ¬ p.bare.base = o.bare.base from hb)]
      rfl

theorem countRuns_map_bare (t : Tally) (os : List Occurrence) :
    countRuns t (os.map Occurrence.bare) = countRuns t os := by
  have hwalk : os.foldl (fun r o => r.observe o.bare) (Run.start t).bare =
      (os.foldl Run.observe (.start t)).bare := List.foldl_hom Run.bare observe_bare
  rw [countRuns, List.foldl_map]
  show (os.foldl (fun r o => r.observe o.bare) (Run.start t).bare).finish = _
  rw [hwalk]
  rfl

/-! ## Majorities -/

theorem count_filterMap_groupVote (gs : List (List Occurrence)) (vote : Bool) :
    (gs.filterMap groupVote).count vote = gs.countP (groupVote · == some vote) := by
  rw [List.count, List.countP_filterMap]
  apply List.countP_congr
  intro g _
  cases groupVote g <;> simp

theorem verdict_eq_majority (votes : List Bool) :
    Tally.verdict ⟨votes.count true, votes.count false⟩ = majority votes := by
  have hlength := List.count_true_add_count_false votes
  have hnil : (votes.count true = 0 ∧ votes.count false = 0) ↔ votes = [] := by
    rw [← List.length_eq_zero_iff]
    omega
  unfold Tally.verdict majority
  simp only [hnil]

theorem voteBlock_eq_majority (block : Node) : voteBlock block = majority (runVotes block) := by
  rw [voteBlock, ← countRuns_map_bare _ (votingValues block.children), map_bare_votingValues,
    votingProperties_eq, countRuns_eq, countRuns_eq, groups_eq_runs, groups_eq_runs,
    ← List.foldl_append, foldl_cast, ← count_filterMap_groupVote, ← count_filterMap_groupVote,
    Nat.zero_add, Nat.zero_add]
  exact verdict_eq_majority _

/-- **Detection is a majority vote of runs.** A block's verdict is what most of its runs vote for,
and detection lists the verdicts of the blocks that have one, in document order. -/
theorem detect_majority :
    (∀ block : Node, voteBlock block = majority (runVotes block)) ∧
      ∀ tree : Node,
        rule.detect tree = .ok (tree.blocks.filterMap fun block => majority (runVotes block)) := by
  refine ⟨voteBlock_eq_majority, fun tree => ?_⟩
  have hsupports : rule.supports tree.dialect = true := by
    cases tree.dialect <;> rfl
  have hverdict : voteBlock = fun block => majority (runVotes block) :=
    funext voteBlock_eq_majority
  rw [Rule.detect, if_pos hsupports, ← hverdict]
  rfl

end VendorAlign

end TidySheet
