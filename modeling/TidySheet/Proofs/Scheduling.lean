import Mathlib.Data.List.Basic
import TidySheet.Proofs.Stepwise

/-!
# The order in which selected rules run

A registry is what a sequence of registrations leaves: under each name the rule that was registered
last, in the order in which the names came up first. `Registry.ordered` selects rules by name and
places one after the other, each time the earliest of those that no unplaced rule has to precede.

* `Registry.mem_ofHistory`, `Registry.pairwise_ofHistory` — what a registry holds, and in what order;
* `arrange_eq_ok_iff` — the lists that `arrange` ends with;
* `Counted.countdown_eq` — the same lists come of counting down;
* `Registry.Scheduled` — what a run order has to be, told by the registrations and the names alone;
* `Registry.ordered_eq_ok_iff` — `ordered` gives the one run order there is;
* `Registry.ordered_scheduled` — what comes of a list of names, whatever their order.
-/

set_option autoImplicit false

namespace TidySheet

/-! ## Registrations -/

theorem mem_putRule {r s : Rule} {rs : List Rule} (hrs : (rs.map Rule.name).Nodup) :
    s ∈ putRule r rs ↔ s = r ∨ (s ∈ rs ∧ s.name ≠ r.name) := by
  induction rs with
  | nil => simp [putRule]
  | cons q rs ih =>
    obtain ⟨hq, hrs⟩ := List.nodup_cons.1 hrs
    rw [putRule]
    split
    · rename_i hname
      -- the rule that makes room is the only one of its name
      have hothers : s ∈ rs → s.name ≠ r.name := by
        intro hs he
        exact hq (List.mem_map.2 ⟨s, hs, he.trans hname.symm⟩)
      constructor
      · intro hs
        rcases List.mem_cons.1 hs with rfl | hs
        · exact .inl rfl
        · exact .inr ⟨List.mem_cons_of_mem q hs, hothers hs⟩
      · rintro (rfl | ⟨hs, hne⟩)
        · exact List.mem_cons_self
        · rcases List.mem_cons.1 hs with rfl | hs
          · exact absurd hname hne
          · exact List.mem_cons_of_mem r hs
    · rename_i hname
      rw [List.mem_cons, ih hrs, List.mem_cons]
      constructor
      · rintro (rfl | rfl | ⟨hs, hne⟩)
        · exact .inr ⟨.inl rfl, hname⟩
        · exact .inl rfl
        · exact .inr ⟨.inr hs, hne⟩
      · rintro (rfl | ⟨rfl | hs, hne⟩)
        · exact .inr (.inl rfl)
        · exact .inl rfl
        · exact .inr (.inr ⟨hs, hne⟩)

namespace Registry

/-- The registry that a sequence of registrations leaves. -/
def ofHistory (history : List Rule) : Registry := history.foldl register empty

/-- The rule that was registered last under a name. -/
def latest? (history : List Rule) (name : String) : Option Rule :=
  history.reverse.find? fun r => r.name == name

/-- The number of registrations before the first one under a name. -/
def debut (history : List Rule) (name : String) : Nat := (history.map Rule.name).idxOf name

theorem ofHistory_concat (history : List Rule) (r : Rule) :
    ofHistory (history ++ [r]) = (ofHistory history).register r := by
  rw [ofHistory, List.foldl_append]
  rfl

theorem latest?_concat (history : List Rule) (r : Rule) (name : String) :
    latest? (history ++ [r]) name = if r.name = name then some r else latest? history name := by
  rw [latest?, List.reverse_append, List.reverse_singleton, List.singleton_append, List.find?_cons]
  by_cases h : r.name = name
  · rw [if_pos h, beq_iff_eq.2 h]
  · rw [if_neg h, beq_false_of_ne h]
    rfl

/-- **What a registry holds**: the rules that were registered last under their names. -/
theorem mem_ofHistory {history : List Rule} {s : Rule} :
    s ∈ (ofHistory history).rules ↔ latest? history s.name = some s := by
  induction history using List.reverseRecOn with
  | nil => simp [ofHistory, empty, latest?]
  | append_singleton history r ih =>
    rw [ofHistory_concat, latest?_concat, register, mem_putRule (ofHistory history).nodup, ih]
    by_cases h : r.name = s.name
    · simp [h, eq_comm]
    · have hne : s ≠ r := fun he => h (by rw [he])
      simp [h, hne, Ne.symm h]

theorem mem_names_ofHistory {history : List Rule} {name : String} :
    name ∈ (ofHistory history).names ↔ name ∈ history.map Rule.name := by
  induction history using List.reverseRecOn with
  | nil => simp [ofHistory, empty, names]
  | append_singleton history r ih =>
    rw [ofHistory_concat, names, register, names_putRule, List.map_append, List.mem_append, ← ih]
    split
    · rename_i hr
      refine ⟨.inl, ?_⟩
      rintro (h | h)
      · exact h
      · rw [List.map_singleton, List.mem_singleton] at h
        exact h ▸ hr
    · rw [List.mem_append]
      rfl

/-- **The order of a registry**: names stand in the order in which they came up first. -/
theorem pairwise_ofHistory (history : List Rule) :
    (ofHistory history).names.Pairwise fun a b => debut history a < debut history b := by
  induction history using List.reverseRecOn with
  | nil => exact .nil
  | append_singleton history r ih =>
    have hkept : ∀ name ∈ (ofHistory history).names,
        debut (history ++ [r]) name = debut history name := by
      intro name hname
      rw [debut, List.map_append, List.idxOf_append_of_mem (mem_names_ofHistory.1 hname)]
      rfl
    have hold : (ofHistory history).names.Pairwise fun a b =>
        debut (history ++ [r]) a < debut (history ++ [r]) b := by
      refine ih.imp_of_mem fun {a b} ha hb hab => ?_
      rwa [hkept a ha, hkept b hb]
    rw [ofHistory_concat, names, register, names_putRule]
    split
    · exact hold
    · rename_i hnew
      refine List.pairwise_append.2 ⟨hold, List.pairwise_singleton _ _, fun a ha b hb => ?_⟩
      -- a new name comes up behind all registrations there were
      have ha' : a ∈ history.map Rule.name := mem_names_ofHistory.1 ha
      have hb' : b ∉ history.map Rule.name := by
        rw [List.mem_singleton.1 hb, ← mem_names_ofHistory]
        exact hnew
      rw [hkept a ha, debut, debut, List.map_append, List.idxOf_append_of_notMem hb']
      exact Nat.lt_of_lt_of_le (List.idxOf_lt_length_of_mem ha') (Nat.le_add_right _ _)

theorem isNone_get? (g : Registry) (name : String) :
    (g.get? name).isNone = true ↔ name ∉ g.names := by
  rw [Option.isNone_iff_eq_none, get?, List.find?_eq_none, names, List.mem_map]
  simp

end Registry

/-! ## One step of a schedule -/

theorem takeFirst?_eq_some {p : Rule → Bool} {rs rest : List Rule} {r : Rule}
    (h : takeFirst? p rs = some (r, rest)) : ∃ before behind, rs = before ++ r :: behind ∧
      rest = before ++ behind ∧ p r = true ∧ ∀ s ∈ before, p s = false := by
  induction rs generalizing rest with
  | nil => cases h
  | cons s rs ih =>
    rw [takeFirst?] at h
    split at h
    · rename_i hs
      cases h
      exact ⟨[], _, rfl, rfl, hs, by simp⟩
    · rename_i hs
      split at h
      · rename_i found others hfound
        cases h
        obtain ⟨before, behind, rfl, rfl, hr, hbefore⟩ := ih hfound
        refine ⟨s :: before, behind, rfl, rfl, hr, List.forall_mem_cons.2 ⟨?_, hbefore⟩⟩
        simpa using hs
      · cases h

theorem takeFirst?_append {p : Rule → Bool} {before behind : List Rule} {r : Rule}
    (hr : p r = true) (hbefore : ∀ s ∈ before, p s = false) :
    takeFirst? p (before ++ r :: behind) = some (r, before ++ behind) := by
  induction before with
  | nil => simp [takeFirst?, hr]
  | cons s before ih =>
    have hs := hbefore s (by simp)
    have hrest := ih fun q hq => hbefore q (by simp [hq])
    simp [takeFirst?, hs, hrest]

theorem takeFirst?_eq_none {p : Rule → Bool} {rs : List Rule} :
    takeFirst? p rs = none ↔ ∀ r ∈ rs, p r = false := by
  induction rs with
  | nil => simp [takeFirst?]
  | cons s rs ih =>
    rw [takeFirst?, List.forall_mem_cons, ← ih]
    cases hs : p s with
    | true => simp
    | false =>
      cases takeFirst? p rs with
      | none => simp
      | some found => simp

theorem isBlocked_eq_false {rs : List Rule} {r : Rule} :
    isBlocked rs r = false ↔ ∀ s ∈ rs, s.runBefore ≠ some r.name := by
  simp [isBlocked]

theorem isBlocked_eq_true {rs : List Rule} {r : Rule} :
    isBlocked rs r = true ↔ ∃ s ∈ rs, s.runBefore = some r.name := by
  simp [isBlocked]

/-- Whether a rule is blocked depends on the rules there are, not on their order. -/
theorem isBlocked_congr {rs ss : List Rule} (h : rs.Perm ss) (r : Rule) :
    isBlocked rs r = isBlocked ss r := h.any_eq

/-! ## Whole schedules -/

/-- From each place on, no rule blocks the one that stands there, and by `key` it is the first rule
of which this is true. -/
def PlacedFirst (key : Rule → Nat) (rules : List Rule) : Prop :=
  ∀ placed r rest, rules = placed ++ r :: rest → isBlocked (r :: rest) r = false ∧
    ∀ s ∈ rest, isBlocked (r :: rest) s = false → key r < key s

theorem placedFirst_cons {key : Rule → Nat} {r : Rule} {rules : List Rule} :
    PlacedFirst key (r :: rules) ↔ (isBlocked (r :: rules) r = false ∧
      ∀ s ∈ rules, isBlocked (r :: rules) s = false → key r < key s) ∧ PlacedFirst key rules := by
  constructor
  · intro h
    refine ⟨h [] r rules rfl, fun placed s rest hs => ?_⟩
    exact h (r :: placed) s rest (by rw [hs]; rfl)
  · rintro ⟨hfirst, hrest⟩ placed s rest hs
    cases placed with
    | nil =>
      cases hs
      exact hfirst
    | cons q placed =>
      obtain ⟨-, hs⟩ := List.cons.inj hs
      exact hrest placed s rest hs

/-- **The lists that a schedule ends with.** Rules that ascend by `key` are rearranged so that each
place has the first rule that is not blocked there. -/
theorem arrange_eq_ok_iff {key : Rule → Nat} {rs rules : List Rule}
    (hkey : rs.Pairwise fun a b => key a < key b) :
    arrange rs = .ok rules ↔ rules.Perm rs ∧ PlacedFirst key rules := by
  constructor
  · intro h
    fun_induction arrange rs generalizing rules with
    | case1 rs r rest hf ih =>
      obtain ⟨others, ho, h⟩ := bind_eq_ok.1 h
      cases h
      obtain ⟨before, behind, rfl, rfl, hfree, hbefore⟩ := takeFirst?_eq_some hf
      obtain ⟨hbehind, hmiddle⟩ := List.pairwise_cons.1 (List.pairwise_append.1 hkey).2.1
      obtain ⟨hperm, hothers⟩ := ih (hkey.sublist (by simp)) ho
      have hall : (r :: others).Perm (before ++ r :: behind) :=
        (hperm.cons r).trans List.perm_middle.symm
      refine ⟨hall, placedFirst_cons.2 ⟨⟨?_, fun s hs hfree => ?_⟩, hothers⟩⟩
      · rw [isBlocked_congr hall]
        simpa using hfree
      · rw [isBlocked_congr hall] at hfree
        rcases List.mem_append.1 (hperm.mem_iff.1 hs) with hs | hs
        · have hblocked := hbefore s hs
          rw [hfree] at hblocked
          cases hblocked
        · exact hbehind s hs
    | case2 rs hf he =>
      cases h
      rw [List.isEmpty_iff.1 he]
      exact ⟨.refl _, fun placed r rest h => by simp at h⟩
    | case3 rs hf he => cases h
  · rintro ⟨hperm, hplaced⟩
    induction rules generalizing rs with
    | nil =>
      rw [hperm.nil_eq.symm]
      exact arrange_nil
    | cons r rules ih =>
      obtain ⟨before, behind, rfl⟩ := List.append_of_mem (hperm.mem_iff.1 List.mem_cons_self)
      obtain ⟨⟨hfree, hfirst⟩, hrest⟩ := placedFirst_cons.1 hplaced
      rw [isBlocked_congr hperm] at hfree
      refine arrange_cons (takeFirst?_append (by rw [hfree]; rfl) fun s hs => ?_)
        (ih (hkey.sublist (by simp)) (hperm.trans List.perm_middle).cons_inv hrest)
      -- a rule before the one that is placed first would have been placed if it could
      rw [Bool.not_eq_false']
      refine Decidable.byContradiction fun hs' => ?_
      rw [Bool.not_eq_true, ← isBlocked_congr hperm] at hs'
      have hafter := hfirst s ((hperm.trans List.perm_middle).cons_inv.mem_iff.2
        (List.mem_append_left _ hs)) hs'
      have hbefore := (List.pairwise_append.1 hkey).2.2 s hs r List.mem_cons_self
      omega

/-- A schedule fails with a cycle or not at all. -/
theorem exists_cycle_of_arrange {rs : List Rule} {e : RuleError} (h : arrange rs = .error e) :
    ∃ names, e = .cycle names := by
  fun_induction arrange rs with
  | case1 rs r rest hf ih =>
    cases ho : arrange rest with
    | error e' =>
      rw [ho] at h
      cases h
      exact ih ho
    | ok others =>
      rw [ho] at h
      cases h
  | case2 rs hf he => cases h
  | case3 rs hf he =>
    cases h
    exact ⟨_, rfl⟩

/-! ## Counting down

The same schedule comes of counting, once and for all, how many rules each one waits for, and of
counting down each time that a rule is placed. -/

/-- The name that a rule has to run before, if there is a rule of this name. -/
def follower? (rs : List Rule) (r : Rule) : Option String :=
  r.runBefore.filter fun name => decide (name ∈ rs.map Rule.name)

/-- Changes the count of a name, if there is one. -/
def recount (f : Nat → Nat) (counts : String → Nat) : Option String → String → Nat
  | none => counts
  | some name => Function.update counts name (f (counts name))

/-- For each name, how many rules have to run before the rule of this name. -/
def tally (rs : List Rule) : String → Nat :=
  rs.foldl (fun counts r => recount (· + 1) counts (follower? rs r)) fun _ => 0

/-- Places rule after rule, each time the first one with the count zero. -/
def countdown (counts : String → Nat) (rs : List Rule) : Except RuleError (List Rule) :=
  match _h : takeFirst? (fun r => counts r.name == 0) rs with
  | some (r, rest) => do
    let placed ← countdown (recount (· - 1) counts (follower? rest r)) rest
    return r :: placed
  | none => if rs.isEmpty then .ok [] else .error (.cycle (rs.map Rule.name))
  termination_by rs.length
  decreasing_by
    have := length_takeFirst? _h
    omega

/-- The number of rules that have to run before the rule of a name. -/
def waitsFor (rs : List Rule) (name : String) : Nat := rs.countP fun s => s.runBefore = some name

/-- Each rule has the number of rules that it waits for. -/
def Counted (counts : String → Nat) (rs : List Rule) : Prop :=
  ∀ r ∈ rs, counts r.name = waitsFor rs r.name

theorem follower?_eq_some {rs : List Rule} {name : String} (hname : name ∈ rs.map Rule.name)
    (r : Rule) : follower? rs r = some name ↔ r.runBefore = some name := by
  rw [follower?, Option.filter_eq_some_iff, decide_eq_true_iff]
  exact and_iff_left hname

theorem recount_apply (f : Nat → Nat) (counts : String → Nat) (target : Option String)
    (name : String) :
    recount f counts target name = if target = some name then f (counts name) else counts name := by
  cases target with
  | none => rfl
  | some other =>
    by_cases h : name = other
    · rw [h, if_pos rfl, recount, Function.update_self]
    · rw [if_neg fun he => h (Option.some.inj he).symm, recount, Function.update_of_ne h]

/-- Rules are counted one after the other. -/
theorem foldl_recount (rs ss : List Rule) (counts : String → Nat) (name : String) :
    ss.foldl (fun counts r => recount (· + 1) counts (follower? rs r)) counts name =
      counts name + ss.countP fun s => follower? rs s = some name := by
  induction ss generalizing counts with
  | nil => rfl
  | cons s ss ih =>
    rw [List.foldl_cons, ih, recount_apply, List.countP_cons]
    simp only [decide_eq_true_eq]
    split <;> omega

theorem counted_tally (rs : List Rule) : Counted (tally rs) rs := by
  intro r hr
  have hname := List.mem_map_of_mem (f := Rule.name) hr
  rw [tally, foldl_recount, Nat.zero_add, waitsFor]
  refine List.countP_congr fun s _ => ?_
  rw [decide_eq_true_iff, decide_eq_true_iff, follower?_eq_some hname]

/-- **A placed rule is counted down where it was counted**, so that no count drops below zero. -/
theorem Counted.placed {counts : String → Nat} {before behind : List Rule} {r : Rule}
    (h : Counted counts (before ++ r :: behind)) :
    Counted (recount (· - 1) counts (follower? (before ++ behind) r)) (before ++ behind) := by
  intro s hs
  have hname := List.mem_map_of_mem (f := Rule.name) hs
  have hcount : waitsFor (before ++ r :: behind) s.name =
      waitsFor (before ++ behind) s.name + if r.runBefore = some s.name then 1 else 0 := by
    unfold waitsFor
    rw [List.countP_append, List.countP_append, List.countP_cons]
    simp only [decide_eq_true_eq]
    omega
  have hs' : s ∈ before ++ r :: behind := by
    rw [List.mem_append, List.mem_cons]
    exact (List.mem_append.1 hs).imp_right .inr
  have hfollower := follower?_eq_some hname r
  rw [recount_apply, h s hs', hcount]
  by_cases hr : r.runBefore = some s.name
  · rw [if_pos (hfollower.2 hr), if_pos hr, Nat.add_sub_cancel]
  · rw [if_neg fun hf => hr (hfollower.1 hf), if_neg hr, Nat.add_zero]

theorem Counted.isZero_eq {counts : String → Nat} {rs : List Rule} (h : Counted counts rs) :
    ∀ r ∈ rs, (counts r.name == 0) = !isBlocked rs r := by
  intro r hr
  rw [h r hr, Bool.eq_iff_iff, beq_iff_eq, Bool.not_eq_true', isBlocked_eq_false, waitsFor,
    List.countP_eq_zero]
  simp only [decide_eq_true_eq, ne_eq]

theorem takeFirst?_congr {p q : Rule → Bool} {rs : List Rule} (h : ∀ r ∈ rs, p r = q r) :
    takeFirst? p rs = takeFirst? q rs := by
  induction rs with
  | nil => rfl
  | cons r rs ih =>
    rw [takeFirst?, takeFirst?, h r List.mem_cons_self, ih fun s hs => h s (by simp [hs])]

/-- **Counting down gives the same schedule.** -/
theorem Counted.countdown_eq {counts : String → Nat} {rs : List Rule} (h : Counted counts rs) :
    countdown counts rs = arrange rs := by
  fun_induction countdown counts rs with
  | case1 counts rs r rest hf ih =>
    rw [takeFirst?_congr h.isZero_eq] at hf
    obtain ⟨before, behind, rfl, rfl, -, -⟩ := takeFirst?_eq_some hf
    rw [ih h.placed, arrange_of_takeFirst hf]
  | case2 counts rs hf he =>
    rw [List.isEmpty_iff.1 he, arrange_nil]
  | case3 counts rs hf he =>
    rw [takeFirst?_congr h.isZero_eq] at hf
    rw [arrange_of_none hf, if_neg he]

/-! ## Selected rules -/

namespace Registry

/-- Whether a rule was registered last under its name, and this is one of the `names`. -/
def Selected (history : List Rule) (names : List String) (r : Rule) : Prop :=
  r.name ∈ names ∧ latest? history r.name = some r

/-- The rules with one of the given names, in the order of their registration. -/
def selection (g : Registry) (names : List String) : List Rule :=
  g.rules.filter fun r => names.contains r.name

variable {history : List Rule} {names : List String}

theorem mem_selection {r : Rule} :
    r ∈ (ofHistory history).selection names ↔ Selected history names r := by
  rw [selection, List.mem_filter, mem_ofHistory, List.contains_iff_mem, and_comm]
  rfl

theorem pairwise_selection (history : List Rule) (names : List String) :
    ((ofHistory history).selection names).Pairwise fun a b =>
      debut history a.name < debut history b.name :=
  (List.pairwise_map.1 (pairwise_ofHistory history)).sublist List.filter_sublist

theorem nodup_selection (g : Registry) (names : List String) :
    ((g.selection names).map Rule.name).Nodup :=
  g.nodup.sublist (List.filter_sublist.map Rule.name)

/-- Names that are all registered are put into order. -/
theorem ordered_of_known (h : ∀ name ∈ names, name ∈ history.map Rule.name) :
    (ofHistory history).ordered names = arrange ((ofHistory history).selection names) := by
  have hfind : names.find? (fun name => ((ofHistory history).get? name).isNone) = none := by
    rw [List.find?_eq_none]
    intro name hname
    rw [isNone_get?, mem_names_ofHistory, not_not]
    exact h name hname
  rw [ordered, hfind]
  rfl

/-- The first name that is not registered is reported. -/
theorem ordered_of_unknown {name : String}
    (h : names.find? (fun name => decide (name ∉ history.map Rule.name)) = some name) :
    (ofHistory history).ordered names = .error (.unknownRule name) := by
  have hsame : (fun name => ((ofHistory history).get? name).isNone) =
      fun name => decide (name ∉ history.map Rule.name) := by
    funext name
    rw [Bool.eq_iff_iff, isNone_get?, mem_names_ofHistory, decide_eq_true_iff]
  rw [ordered, hsame, h]

/-! ## Run orders -/

/-- Whether all of the `rules` that have to run before `r` are `placed`. -/
def Ready (rules placed : List Rule) (r : Rule) : Prop :=
  ∀ s ∈ rules, s.runBefore = some r.name → s ∈ placed

/-- **What a run order is**, given the registrations and the names. -/
structure Scheduled (history : List Rule) (names : List String) (rules : List Rule) : Prop where
  /-- The rules are those registered last under the names. -/
  mem_iff : ∀ r, r ∈ rules ↔ Selected history names r
  /-- Every name has a rule. -/
  covers : ∀ name ∈ names, name ∈ rules.map Rule.name
  /-- No name has two. -/
  nodup : (rules.map Rule.name).Nodup
  /-- A rule comes before the one that it has to run before. -/
  before : ∀ placed r rest, rules = placed ++ r :: rest →
    ∀ s ∈ rules, r.runBefore = some s.name → s ∈ rest
  /-- Each place has the rule whose name came up first, of all that are ready there. -/
  next : ∀ placed r rest, rules = placed ++ r :: rest → Ready rules placed r ∧
    ∀ s ∈ rest, Ready rules placed s → debut history r.name < debut history s.name

/-- What is not placed is what may still block. -/
theorem ready_iff {placed rest : List Rule} {r s : Rule}
    (hnodup : (placed ++ r :: rest).Nodup) :
    Ready (placed ++ r :: rest) placed s ↔ isBlocked (r :: rest) s = false := by
  rw [isBlocked_eq_false]
  constructor
  · intro h q hq hbefore
    have hplaced := h q (List.mem_append_right _ hq) hbefore
    exact (List.nodup_append.1 hnodup).2.2 q hplaced q hq rfl
  · intro h q hq hbefore
    rcases List.mem_append.1 hq with hq | hq
    · exact hq
    · exact absurd hbefore (h q hq)

theorem placedFirst_iff {rules : List Rule} (hnodup : rules.Nodup) :
    PlacedFirst (fun r => debut history r.name) rules ↔
      ∀ placed r rest, rules = placed ++ r :: rest → Ready rules placed r ∧
        ∀ s ∈ rest, Ready rules placed s → debut history r.name < debut history s.name := by
  unfold PlacedFirst
  refine forall₃_congr fun placed r rest => forall_congr' fun h => ?_
  subst h
  simp only [ready_iff hnodup]

/-- If each rule is ready where it stands, it stands behind all rules that have to run before it. -/
theorem mem_rest_of_ready {rules placed rest : List Rule} {r s : Rule} (hnodup : rules.Nodup)
    (hready : ∀ placed r rest, rules = placed ++ r :: rest → Ready rules placed r)
    (h : rules = placed ++ r :: rest) (hs : s ∈ rules) (hbefore : r.runBefore = some s.name) :
    s ∈ rest := by
  obtain ⟨placed', rest', hs'⟩ := List.append_of_mem hs
  have hr := hready placed' s rest' hs' r (by simp [h]) hbefore
  obtain ⟨front, middle, rfl⟩ := List.append_of_mem hr
  rw [List.append_assoc, List.cons_append] at hs'
  have hsame := h.symm.trans hs'
  rw [h, List.nodup_middle, List.nodup_cons, List.mem_append, not_or] at hnodup
  obtain ⟨⟨hplaced, hrest⟩, -⟩ := hnodup
  obtain ⟨-, -, rfl⟩ := (List.append_cons_inj_of_notMem hplaced hrest).1 hsame
  exact List.mem_append_right _ List.mem_cons_self

theorem mem_map_selection {name : String} (h : ∀ name ∈ names, name ∈ history.map Rule.name) :
    name ∈ ((ofHistory history).selection names).map Rule.name ↔ name ∈ names := by
  constructor
  · intro hname
    obtain ⟨r, hr, rfl⟩ := List.mem_map.1 hname
    exact (mem_selection.1 hr).1
  · intro hname
    obtain ⟨r, hr, rfl⟩ := List.mem_map.1 (mem_names_ofHistory.2 (h name hname))
    exact List.mem_map_of_mem (mem_selection.2 ⟨hname, mem_ofHistory.1 hr⟩)

/-- **There is one run order at most, and `ordered` finds it.** -/
theorem ordered_eq_ok_iff {rules : List Rule} :
    (ofHistory history).ordered names = .ok rules ↔ Scheduled history names rules := by
  have hkey := pairwise_selection history names
  have hselected := nodup_selection (ofHistory history) names
  constructor
  · intro h
    have hknown : ∀ name ∈ names, name ∈ history.map Rule.name := by
      refine Decidable.byContradiction fun hno => ?_
      obtain ⟨name, hname⟩ : ∃ name,
          names.find? (fun name => decide (name ∉ history.map Rule.name)) = some name := by
        rw [← Option.isSome_iff_exists, List.find?_isSome]
        simpa using hno
      rw [ordered_of_unknown hname] at h
      cases h
    rw [ordered_of_known hknown, arrange_eq_ok_iff hkey] at h
    obtain ⟨hperm, hplaced⟩ := h
    have hnames : (rules.map Rule.name).Nodup := (hperm.map Rule.name).nodup_iff.2 hselected
    have hnodup : rules.Nodup := hnames.of_map
    rw [placedFirst_iff hnodup] at hplaced
    refine ⟨fun r => ?_, fun name hname => ?_, hnames, fun placed r rest h s => ?_, hplaced⟩
    · rw [hperm.mem_iff, mem_selection]
    · rw [(hperm.map Rule.name).mem_iff]
      exact (mem_map_selection hknown).2 hname
    · exact mem_rest_of_ready hnodup (fun placed r rest h => (hplaced placed r rest h).1) h
  · intro h
    have hknown : ∀ name ∈ names, name ∈ history.map Rule.name := by
      intro name hname
      obtain ⟨r, hr, rfl⟩ := List.mem_map.1 (h.covers name hname)
      exact mem_names_ofHistory.1
        (List.mem_map_of_mem (mem_ofHistory.2 ((h.mem_iff r).1 hr).2))
    have hnodup : rules.Nodup := h.nodup.of_map
    rw [ordered_of_known hknown, arrange_eq_ok_iff hkey, placedFirst_iff hnodup]
    refine ⟨(List.perm_ext_iff_of_nodup hnodup hselected.of_map).2 fun r => ?_, h.next⟩
    rw [h.mem_iff, mem_selection]

/-- Registered names are put into one order, in whatever order and however often they are given. -/
theorem ordered_congr {names' : List String} (hsame : ∀ name, name ∈ names' ↔ name ∈ names)
    (h : ∀ name ∈ names, name ∈ history.map Rule.name) :
    (ofHistory history).ordered names' = (ofHistory history).ordered names := by
  have hselection : (ofHistory history).selection names' =
      (ofHistory history).selection names := by
    refine List.filter_congr fun r _ => ?_
    rw [Bool.eq_iff_iff, List.contains_iff_mem, List.contains_iff_mem, hsame]
  rw [ordered_of_known h, ordered_of_known fun name hname => h name ((hsame name).1 hname),
    hselection]

/-- A name is reported as unknown exactly if it is the first that is not registered. -/
theorem ordered_eq_unknownRule_iff {name : String} :
    (ofHistory history).ordered names = .error (.unknownRule name) ↔
      names.find? (fun name => decide (name ∉ history.map Rule.name)) = some name := by
  refine ⟨fun h => ?_, ordered_of_unknown⟩
  cases hfind : names.find? (fun name => decide (name ∉ history.map Rule.name)) with
  | none =>
    rw [List.find?_eq_none] at hfind
    rw [ordered_of_known fun name hname => by simpa using hfind name hname] at h
    obtain ⟨cycle, he⟩ := exists_cycle_of_arrange h
    cases he
  | some first =>
    rw [ordered_of_unknown hfind] at h
    cases h
    rfl

/-- The schedule of registered names, by counting. -/
theorem ordered_eq_countdown (h : ∀ name ∈ names, name ∈ history.map Rule.name) :
    (ofHistory history).ordered names = countdown (tally ((ofHistory history).selection names))
      ((ofHistory history).selection names) := by
  rw [ordered_of_known h, (counted_tally _).countdown_eq]

/-- **Rules run in the order that their registrations and their names fix.** For every history of
registrations and every list of names, `ordered` succeeds with exactly the run order; registered
names lead to the same result however they are listed, which is also what counting down gives; and
the first name that is not registered is reported. -/
theorem ordered_scheduled (history : List Rule) (names : List String) :
    (∀ rules, (ofHistory history).ordered names = .ok rules ↔ Scheduled history names rules) ∧
      ((∀ name ∈ names, name ∈ history.map Rule.name) →
        (∀ names', (∀ name, name ∈ names' ↔ name ∈ names) →
          (ofHistory history).ordered names' = (ofHistory history).ordered names) ∧
        (ofHistory history).ordered names = countdown (tally ((ofHistory history).selection names))
          ((ofHistory history).selection names)) ∧
      ∀ name, (ofHistory history).ordered names = .error (.unknownRule name) ↔
        names.find? (fun name => decide (name ∉ history.map Rule.name)) = some name :=
  ⟨fun _ => ordered_eq_ok_iff,
    fun h => ⟨fun _ hsame => ordered_congr hsame h, ordered_eq_countdown h⟩,
    fun _ => ordered_eq_unknownRule_iff⟩

/-- A rule that has a place in the order and changes nothing. -/
def idle (name : String) (runBefore : Option String) : Rule where
  name := name
  description := ""
  runBefore := runBefore
  dialects := Dialect.all
  accepts := [true]
  reshape := .ok
  votes _ := .ok []

/-- Registrations where one rule takes the place of another one and breaks a cycle by it. -/
def mendedHistory : List Rule :=
  [idle "a" (some "b"), idle "b" (some "a"), idle "c" (some "a"), idle "b" none,
    idle "d" (some "d")]

theorem ordered_scheduled_mended :
    Scheduled mendedHistory ["b", "a", "c", "a"]
        [idle "c" (some "a"), idle "a" (some "b"), idle "b" none] ∧
      (ofHistory mendedHistory).ordered ["c", "b", "a"] =
        .ok [idle "c" (some "a"), idle "a" (some "b"), idle "b" none] ∧
      (ofHistory mendedHistory).ordered ["d", "x", "a", "y"] = .error (.unknownRule "x") := by
  have hordered : (ofHistory mendedHistory).ordered ["b", "a", "c", "a"] =
      .ok [idle "c" (some "a"), idle "a" (some "b"), idle "b" none] := by
    rw [ordered_of_known (by decide)]
    exact arrange_cons rfl (arrange_cons rfl (arrange_cons rfl arrange_nil))
  obtain ⟨hscheduled, hknown, -⟩ := ordered_scheduled mendedHistory ["b", "a", "c", "a"]
  refine ⟨(hscheduled _).1 hordered, ?_, ?_⟩
  · rw [(hknown (by decide)).1 ["c", "b", "a"] (by grind), hordered]
  · exact ((ordered_scheduled mendedHistory ["d", "x", "a", "y"]).2.2 "x").2 (by decide)

end Registry

end TidySheet
