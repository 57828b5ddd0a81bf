import Mathlib.Dynamics.PeriodicPts.Lemmas
import TidySheet.Proofs.Scheduling

/-!
# Rules that wait for each other

`arrange` never looks for a cycle: it stops when each rule that is left has to wait for another one
that is left. A rule names at most one other, so that rules of which each is waited for are as many
as those that wait: what is left is made of cycles, with nothing that only leads into one.

* `Knotted` — rules that all wait for others among them;
* `exists_left` — `arrange` stops with the largest knot there is;
* `cyclic_of_knotted`, `knotted_of_cyclic` — knots and cycles;
* `Registry.ordered_cycle` — cycles are reported exactly.
-/

set_option autoImplicit false

namespace TidySheet

open Relation

/-! ## What is left over -/

/-- Each of the rules has to wait for one of them. -/
def Knotted (rs : List Rule) : Prop := ∀ r ∈ rs, ∃ s ∈ rs, s.runBefore = some r.name

/-- No rule that is placed is part of a knot. -/
theorem not_mem_of_knotted {rs knot : List Rule} {r : Rule} (hknot : Knotted knot)
    (hsub : knot ⊆ rs) (hfree : isBlocked rs r = false) : r ∉ knot := by
  intro hr
  obtain ⟨s, hs, hbefore⟩ := hknot r hr
  exact isBlocked_eq_false.1 hfree s (hsub hs) hbefore

/-- **What is left over** when no more rule can be placed: a knot that holds all others. -/
theorem exists_left (rs : List Rule) : ∃ left, left.Sublist rs ∧ Knotted left ∧
    (∀ knot, knot ⊆ rs → Knotted knot → knot ⊆ left) ∧
    if left = [] then ∃ rules, arrange rs = .ok rules
    else arrange rs = .error (.cycle (left.map Rule.name)) := by
  fun_induction arrange rs with
  | case1 rs r rest hf ih =>
    obtain ⟨left, hsub, hleft, hlargest, houtcome⟩ := ih
    obtain ⟨before, behind, rfl, rfl, hfree, -⟩ := takeFirst?_eq_some hf
    refine ⟨left, hsub.trans (by simp), hleft, fun knot hknot hk => hlargest knot ?_ hk, ?_⟩
    · have hr := not_mem_of_knotted hk hknot (by simpa using hfree)
      intro s hs
      have hmem := hknot hs
      rw [List.mem_append, List.mem_cons] at hmem
      rcases hmem with hmem | rfl | hmem
      · exact List.mem_append_left _ hmem
      · exact absurd hs hr
      · exact List.mem_append_right _ hmem
    · split at houtcome
      · obtain ⟨rules, hrules⟩ := houtcome
        rw [if_pos ‹_›, hrules]
        exact ⟨_, rfl⟩
      · rw [if_neg ‹_›, houtcome]
        rfl
  | case2 rs hf he =>
    rw [List.isEmpty_iff.1 he]
    refine ⟨[], .refl _, by simp [Knotted], fun knot hknot _ => hknot, ?_⟩
    rw [if_pos rfl]
    exact ⟨[], rfl⟩
  | case3 rs hf he =>
    refine ⟨rs, .refl _, fun r hr => ?_, fun knot hknot _ => hknot, ?_⟩
    · have hblocked := takeFirst?_eq_none.1 hf r hr
      exact isBlocked_eq_true.1 (by simpa using hblocked)
    · rw [if_neg fun hnil => he (by rw [hnil]; rfl)]

/-! ## Cycles -/

/-- A rule that has to run before another one, among those that satisfy `P`. -/
def Link (P : Rule → Prop) (r s : Rule) : Prop := (P r ∧ P s) ∧ r.runBefore = some s.name

/-- Following the links from a rule leads back to it. -/
def Cyclic (P : Rule → Prop) (r : Rule) : Prop := TransGen (Link P) r r

theorem Cyclic.self {P : Rule → Prop} {r : Rule} (h : Cyclic P r) : P r := by
  obtain ⟨s, hlink, -⟩ := TransGen.head'_iff.1 h
  exact hlink.1.1

theorem Cyclic.mono {P Q : Rule → Prop} {r : Rule} (hi : ∀ s, P s → Q s) (h : Cyclic P r) :
    Cyclic Q r :=
  TransGen.mono (fun _ _ hlink => ⟨⟨hi _ hlink.1.1, hi _ hlink.1.2⟩, hlink.2⟩) r r h

/-- **Rules of a knot lie on cycles.** Going back from each rule to one that it waits for is
injective, since no rule has to run before two others; so it leads around. -/
theorem cyclic_of_knotted {rs : List Rule} {r : Rule} (hnodup : (rs.map Rule.name).Nodup)
    (hk : Knotted rs) (hr : r ∈ rs) : Cyclic (· ∈ rs) r := by
  choose back hback hlink using hk
  let step : {r // r ∈ rs} → {r // r ∈ rs} := fun x => ⟨back x.1 x.2, hback x.1 x.2⟩
  have hstep : ∀ x, Link (· ∈ rs) (step x).1 x.1 := fun x => ⟨⟨(step x).2, x.2⟩, hlink x.1 x.2⟩
  have hinjective : Function.Injective step := by
    intro x y hxy
    have hname : some x.1.name = some y.1.name := by
      rw [← (hstep x).2, ← (hstep y).2, hxy]
    exact Subtype.ext (List.inj_on_of_nodup_map hnodup x.2 y.2 (Option.some.inj hname))
  have hfinite : Finite {r // r ∈ rs} := rs.finite_toSet
  have hreach : ∀ n x, ReflTransGen (Link (· ∈ rs)) (step^[n] x).1 x.1 := by
    intro n x
    induction n with
    | zero => exact .refl
    | succ n ih =>
      rw [Function.iterate_succ_apply']
      exact .head (hstep _) ih
  obtain ⟨n, hn, hperiod⟩ := hinjective.mem_periodicPts ⟨r, hr⟩
  obtain ⟨m, rfl⟩ := Nat.exists_eq_succ_of_ne_zero (Nat.ne_of_gt hn)
  have hround : step (step^[m] ⟨r, hr⟩) = ⟨r, hr⟩ := by
    rw [← Function.iterate_succ_apply' step]
    exact hperiod
  have hcycle := TransGen.head' (hstep (step^[m] ⟨r, hr⟩)) (hreach m ⟨r, hr⟩)
  rwa [hround] at hcycle

/-- **Rules on cycles are knotted**: each waits for the one before it on its cycle. -/
theorem knotted_of_cyclic {P : Rule → Prop} {knot : List Rule}
    (h : ∀ r, r ∈ knot ↔ Cyclic P r) : Knotted knot := by
  intro r hr
  obtain ⟨s, hreach, hlink⟩ := TransGen.tail'_iff.1 ((h r).1 hr)
  exact ⟨s, (h s).2 (.head' hlink hreach), hlink.2⟩

/-- **`arrange` stops with the rules on cycles**, and is done if there are none. -/
theorem exists_cyclic_left {rs : List Rule} (hnodup : (rs.map Rule.name).Nodup) :
    ∃ left, left.Sublist rs ∧ (∀ r, r ∈ left ↔ Cyclic (· ∈ rs) r) ∧
      if left = [] then ∃ rules, arrange rs = .ok rules
      else arrange rs = .error (.cycle (left.map Rule.name)) := by
  classical
  obtain ⟨left, hsub, hknotted, hlargest, houtcome⟩ := exists_left rs
  refine ⟨left, hsub, fun r => ⟨fun hr => ?_, fun hr => ?_⟩, houtcome⟩
  · exact (cyclic_of_knotted (hnodup.sublist (hsub.map _)) hknotted hr).mono hsub.subset
  · have hcyclic : ∀ s, s ∈ rs.filter (fun s => decide (Cyclic (· ∈ rs) s)) ↔
        Cyclic (· ∈ rs) s := by
      intro s
      rw [List.mem_filter, decide_eq_true_iff, and_iff_right_iff_imp]
      exact Cyclic.self
    exact hlargest _ List.filter_sublist.subset (knotted_of_cyclic hcyclic) ((hcyclic r).2 hr)

namespace Registry

/-- Whether the rules that each selected rule has to run before, one after the other, lead from a
rule back to it. -/
def OnCycle (history : List Rule) (names : List String) (r : Rule) : Prop :=
  Cyclic (Selected history names) r

/-- The selected rules on cycles, in the order of their registration, and what `ordered` makes of
them. -/
theorem exists_onCycle_left {history : List Rule} {names : List String}
    (h : ∀ name ∈ names, name ∈ history.map Rule.name) :
    ∃ left, (∀ r, r ∈ left ↔ OnCycle history names r) ∧
      (left.map Rule.name).Pairwise (fun a b => debut history a < debut history b) ∧
      if left = [] then ∃ rules, (ofHistory history).ordered names = .ok rules
      else (ofHistory history).ordered names = .error (.cycle (left.map Rule.name)) := by
  obtain ⟨left, hsub, hmem, houtcome⟩ :=
    exists_cyclic_left (nodup_selection (ofHistory history) names)
  have hselected : (· ∈ (ofHistory history).selection names) = Selected history names :=
    funext fun r => propext mem_selection
  rw [hselected] at hmem
  rw [ordered_of_known h]
  exact ⟨left, hmem, List.pairwise_map.2 ((pairwise_selection history names).sublist hsub),
    houtcome⟩

/-- **Cycles are reported exactly.** If all names are registered, `ordered` fails if and only if some
selected rule lies on a cycle, and then it names the rules on cycles, in the order in which their
names came up first, and no others. -/
theorem ordered_cycle (history : List Rule) (names : List String)
    (h : ∀ name ∈ names, name ∈ history.map Rule.name) :
    ((∃ cycle, (ofHistory history).ordered names = .error (.cycle cycle)) ↔
        ∃ r, OnCycle history names r) ∧
      ((∃ rules, (ofHistory history).ordered names = .ok rules) ↔
        ¬ ∃ r, OnCycle history names r) ∧
      ∀ cycle, (ofHistory history).ordered names = .error (.cycle cycle) →
        (∀ name, name ∈ cycle ↔ ∃ r, OnCycle history names r ∧ r.name = name) ∧
        cycle.Pairwise (fun a b => debut history a < debut history b) ∧
        (RuleError.cycle cycle).message =
          "Rules cannot be ordered, run-before cycle through: " ++ ", ".intercalate cycle := by
  obtain ⟨left, hmem, hpairwise, houtcome⟩ := exists_onCycle_left h
  by_cases hleft : left = []
  · rw [if_pos hleft] at houtcome
    obtain ⟨rules, hrules⟩ := houtcome
    have hnone : ¬ ∃ r, OnCycle history names r := by
      rintro ⟨r, hr⟩
      have hr := (hmem r).2 hr
      rw [hleft] at hr
      cases hr
    rw [hrules]
    refine ⟨⟨?_, fun hr => absurd hr hnone⟩, ⟨fun _ => hnone, fun _ => ⟨rules, rfl⟩⟩, ?_⟩
    · rintro ⟨cycle, hcycle⟩
      cases hcycle
    · intro cycle hcycle
      cases hcycle
  · rw [if_neg hleft] at houtcome
    obtain ⟨r, hr⟩ := List.exists_mem_of_ne_nil left hleft
    have hsome : ∃ r, OnCycle history names r := ⟨r, (hmem r).1 hr⟩
    rw [houtcome]
    refine ⟨⟨fun _ => hsome, fun _ => ⟨_, rfl⟩⟩, ⟨?_, fun hnone => absurd hsome hnone⟩, ?_⟩
    · rintro ⟨rules, hrules⟩
      cases hrules
    · intro cycle hcycle
      cases hcycle
      refine ⟨fun name => ?_, hpairwise, rfl⟩
      rw [List.mem_map]
      exact exists_congr fun r => and_congr_left fun _ => hmem r

/-- Two rules that wait for each other, one that leads to them, one that waits for itself, and one
that names no rule there is. -/
def knottedHistory : List Rule :=
  [idle "a" (some "c"), idle "b" (some "a"), idle "c" (some "a"), idle "d" (some "d"),
    idle "e" (some "x")]

theorem ordered_cycle_knotted :
    (ofHistory knottedHistory).ordered ["e", "d", "c", "b", "a"] =
        .error (.cycle ["a", "c", "d"]) ∧
      (∀ name, name ∈ ["a", "c", "d"] ↔
        ∃ r, OnCycle knottedHistory ["e", "d", "c", "b", "a"] r ∧ r.name = name) ∧
      ∀ r, ¬ OnCycle knottedHistory ["e", "c", "b"] r := by
  have hcycle : (ofHistory knottedHistory).ordered ["e", "d", "c", "b", "a"] =
      .error (.cycle ["a", "c", "d"]) := by
    have hselection : (ofHistory knottedHistory).selection ["e", "d", "c", "b", "a"] =
        knottedHistory := rfl
    have hleft : arrange [idle "a" (some "c"), idle "c" (some "a"), idle "d" (some "d")] =
        .error (.cycle ["a", "c", "d"]) := arrange_of_none rfl
    rw [ordered_of_known (by decide), hselection, knottedHistory, arrange_of_takeFirst rfl,
      arrange_of_takeFirst rfl, hleft]
    rfl
  have hrules : (ofHistory knottedHistory).ordered ["e", "c", "b"] =
      .ok [idle "b" (some "a"), idle "c" (some "a"), idle "e" (some "x")] := by
    rw [ordered_of_known (by decide)]
    exact arrange_cons rfl (arrange_cons rfl (arrange_cons rfl arrange_nil))
  refine ⟨hcycle, ((ordered_cycle _ _ (by decide)).2.2 _ hcycle).1, fun r hr => ?_⟩
  exact (ordered_cycle _ _ (by decide)).2.1.1 ⟨_, hrules⟩ ⟨r, hr⟩

end Registry

end TidySheet
