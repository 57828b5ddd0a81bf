import Mathlib.Data.List.Nodup
import TidySheet.Proofs.Openings
import TidySheet.Proofs.WellFormed

/-!
# Nesting follows the indentation

In the indented dialect a line stands in the block of another one if that one comes before it, may
open a block, and all lines in between and the line itself are deeper. The parser decides this line
by line, on the lines that it has cut off for the block around them.

* `Lines.Nested.owned` — a block holds what stands on the deeper lines behind its line;
* `Lines.Owns.inside_iff` — which lines these are, by their numbers;
* `nesting_of_parse` — where the lines of a text stand in its tree.
-/

set_option autoImplicit false

namespace TidySheet

open Node

namespace Lines

open Token Statement

variable {ls : List Line} {ns : List Node}

/-- The opening `e` is the block of the line `l`, over the lines `inner` of `ls`; `ps` are the places
of the nodes of `ls`. -/
structure Owns (ls : List Line) (ps : List Position) (e : Position × Node) (before : List Line)
    (l : Line) (inner after : List Line) : Prop where
  lines : ls = before ++ l :: (inner ++ after)
  start : l.start? = some e.1
  covers : l.Over inner after
  within : ∀ p ∈ e.2.places, p = .unplaced ∨ p ∈ inner.flatMap Line.places
  beyond : ∀ p ∈ ps, p ∈ e.2.places ∨ p = .unplaced ∨ p ∈ (before ++ l :: after).flatMap Line.places

namespace Owns

variable {ps qs : List Position} {e : Position × Node} {before inner after ks : List Line} {l : Line}

/-- The block of the first line, over the deeper lines behind it. -/
theorem here {os : List Position} {cs : List Node} {place : Position} (hs : l.start? = some place)
    (hover : l.Over inner after) (hl : ∀ p ∈ qs, p = .unplaced ∨ p ∈ [l].flatMap Line.places)
    (hi : ∀ p ∈ placesOf cs, p = .unplaced ∨ p ∈ inner.flatMap Line.places)
    (ho : ∀ p ∈ os, p = .unplaced ∨ p ∈ after.flatMap Line.places) :
    Owns (l :: (inner ++ after)) (qs ++ (placesOf cs ++ os)) (place, .ofChildren .block .sass cs) []
      l inner after where
  lines := rfl
  start := hs
  covers := hover
  within p hp := by
    rw [Node.ofChildren, places_branch] at hp
    exact hi p hp
  beyond p hp := by
    rw [Node.ofChildren, places_branch, List.nil_append, List.flatMap_cons, List.mem_append]
    simp only [List.flatMap_cons, List.flatMap_nil, List.append_nil] at hl
    rcases List.mem_append.1 hp with hp | hp
    · rcases hl p hp with h | h
      · exact .inr (.inl h)
      · exact .inr (.inr (.inl h))
    · rcases List.mem_append.1 hp with hp | hp
      · exact .inl hp
      · rcases ho p hp with h | h
        · exact .inr (.inl h)
        · exact .inr (.inr (.inr h))

/-- Other lines may come before. -/
theorem behind (h : Owns ls ps e before l inner after)
    (hq : ∀ p ∈ qs, p = .unplaced ∨ p ∈ ks.flatMap Line.places) :
    Owns (ks ++ ls) (qs ++ ps) e (ks ++ before) l inner after where
  lines := by rw [h.lines, List.append_assoc]
  start := h.start
  covers := h.covers
  within := h.within
  beyond p hp := by
    rw [List.append_assoc, List.flatMap_append, List.mem_append]
    rcases List.mem_append.1 hp with hp | hp
    · rcases hq p hp with h | h
      · exact .inr (.inl h)
      · exact .inr (.inr (.inl h))
    · rcases h.beyond p hp with h | h | h
      · exact .inl h
      · exact .inr (.inl h)
      · exact .inr (.inr (.inr h))

/-- Less deep lines may follow. -/
theorem ahead (h : Owns ls ps e before l inner after) {width : Nat}
    (hls : ∀ m ∈ ls, m.isBlank = false → width < m.width)
    (hks : ∀ m, ks.find? (fun k => !k.isBlank) = some m → m.width ≤ width)
    (hq : ∀ p ∈ qs, p = .unplaced ∨ p ∈ ks.flatMap Line.places) :
    Owns (ls ++ ks) (ps ++ qs) e before l inner (after ++ ks) where
  lines := by rw [h.lines]; simp
  start := h.start
  covers := h.covers.append (hls l (by simp [h.lines]) h.covers.isBlank) hks
  within := h.within
  beyond p hp := by
    rw [← List.cons_append, ← List.append_assoc, List.flatMap_append, List.mem_append]
    rcases List.mem_append.1 hp with hp | hp
    · rcases h.beyond p hp with h | h | h
      · exact .inl h
      · exact .inr (.inl h)
      · exact .inr (.inr (.inl h))
    · rcases hq p hp with h | h
      · exact .inr (.inl h)
      · exact .inr (.inr (.inr h))

end Owns

/-- What a line becomes stands on the line. -/
theorem mem_places_line {l : Line} {own : List Node} (hf : l.Framed)
    (h : Reading .sass l.body own) :
    ∀ p ∈ placesOf l.lead ++ placesOf own, p = .unplaced ∨ p ∈ [l].flatMap Line.places := by
  intro p hp
  rw [← placesOf_append] at hp
  have hp := ((Line.reading_lead hf).append h).mem_places hp
  rw [List.append_assoc] at hp
  rwa [List.flatMap_cons, List.flatMap_nil, List.append_nil, Line.places, Line.tokens]

theorem Nested.mem_places (h : Nested ls ns) (hf : ∀ l ∈ ls, l.Framed) :
    ∀ p ∈ placesOf ns, p = .unplaced ∨ p ∈ ls.flatMap Line.places := by
  intro p hp
  have hp := (h.reading hf).mem_places hp
  rwa [List.map_flatMap] at hp

/-- **A block holds what stands on the deeper lines behind its line**, and nothing else does. -/
theorem Nested.owned (h : Nested ls ns) (hfr : ∀ l ∈ ls, l.Framed) (hf : Flush ls) :
    ∀ start, ∀ e ∈ openingsFrom start ns, ∃ before l inner after,
      Owns ls (placesOf ns) e before l inner after := by
  induction h with
  | nil =>
    intro start e he
    simp [openingsFrom] at he
  | @blank l ls ns hb _ ih =>
    intro start e he
    rw [openingsFrom_append, openingsFrom_of_no_block _ _ (no_block_lead l), List.nil_append] at he
    obtain ⟨before, m, inner, after, ho⟩ := ih (fun m hm => hfr m (by simp [hm]))
      (fun m hm => hf m (by simp [hm])) start e he
    have hbody : Reading .sass l.body [] := by
      rw [show l.body = [] by simpa [Line.isBlank] using hb]
      exact .nil
    have hhead := mem_places_line (hfr l (by simp)) hbody
    rw [placesOf_nil, List.append_nil] at hhead
    rw [placesOf_append]
    exact ⟨_, m, inner, after, ho.behind hhead⟩
  | @statement l ls own ns hb hc hown _ ih =>
    intro start e he
    rw [openingsFrom_append, openingsFrom_append, openingsFrom_of_no_block _ _ (no_block_lead l),
      openingsFrom_of_no_block _ own hown.no_block, List.nil_append, List.nil_append] at he
    obtain ⟨before, m, inner, after, ho⟩ := ih (fun m hm => hfr m (by simp [hm]))
      (fun m hm => hf m (by simp [hm])) start e he
    rw [placesOf_append, placesOf_append, ← List.append_assoc]
    exact ⟨_, m, inner, after, ho.behind (mem_places_line (hfr l (by simp)) hown.reading)⟩
  | @block l ls inner outer cs ns n hb hc hne hi hn hr ihi ih =>
    intro start e he
    have hls : inner ++ outer = ls := append_of_cutBlock hc
    have hover := over_of_cutBlock hb hc hne
    have hfi : ∀ m ∈ inner, m.Framed := fun m hm => hfr m (by simp [← hls, hm])
    have hfo : ∀ m ∈ outer, m.Framed := fun m hm => hfr m (by simp [← hls, hm])
    obtain ⟨init, place, hread, hplace, -, hk, hplaces, hopen⟩ :=
      exists_opener hn hover rfl (hf l (by simp))
    have hhead := mem_places_line (hfr l (by simp)) hread
    have hall : placesOf (l.lead ++ n :: ns) =
        (placesOf l.lead ++ placesOf init) ++ (placesOf cs ++ placesOf ns) := by
      rw [placesOf_append, placesOf_cons, hplaces, Node.ofChildren, places_branch]
      simp only [List.append_assoc]
    rw [openingsFrom_append, openingsFrom_of_no_block _ _ (no_block_lead l), openingsFrom,
      if_neg (fun h => hk (is_eq_true.1 h)), hopen] at he
    simp only [List.nil_append, List.cons_append, List.mem_cons, List.mem_append] at he
    rw [hall, ← hls]
    rcases he with rfl | he | he
    · -- the block of the line itself
      exact ⟨[], l, inner, outer,
        .here hplace hover hhead (hi.mem_places hfi) (hr.mem_places hfo)⟩
    · -- a block inside it
      obtain ⟨before, m, inner', after, ho⟩ := ihi hfi
        (fun m hm => hf m (by simp [← hls, hm])) _ e he
      have hahead := ho.ahead hover.inner hover.after (hr.mem_places hfo)
      exact ⟨_, m, inner', _, hahead.behind hhead⟩
    · -- a block of a line behind it
      obtain ⟨before, m, inner', after, ho⟩ := ih hfo
        (fun m hm => hf m (by simp [← hls, hm])) start e he
      have hbehind := (ho.behind (hi.mem_places hfi)).behind hhead
      exact ⟨_, m, inner', after, hbehind⟩

/-- Every line that is not blank has a node where its body starts. -/
theorem Nested.start?_mem (h : Nested ls ns) (hf : Flush ls) :
    ∀ l ∈ ls, l.isBlank = false → ∃ p ∈ placesOf ns, l.start? = some p := by
  induction h with
  | nil => simp
  | @blank l ls ns hb _ ih =>
    intro m hm hmb
    rcases List.mem_cons.1 hm with rfl | hm
    · rw [hb] at hmb
      cases hmb
    · obtain ⟨p, hp, hstart⟩ := ih (fun k hk => hf k (by simp [hk])) m hm hmb
      exact ⟨p, by simp [hp], hstart⟩
  | @statement l ls own ns hb _ ho _ ih =>
    intro m hm hmb
    rcases List.mem_cons.1 hm with rfl | hm
    · obtain ⟨t, ts, hbody, hstart⟩ := Line.exists_start? hmb
      rw [hbody] at ho
      exact ⟨_, by simp [ho.first_mem], hstart⟩
    · obtain ⟨p, hp, hstart⟩ := ih (fun k hk => hf k (by simp [hk])) m hm hmb
      exact ⟨p, by simp [hp], hstart⟩
  | @block l ls inner outer cs ns n hb hc hne _ hn _ ihi ih =>
    intro m hm hmb
    have hls : inner ++ outer = ls := append_of_cutBlock hc
    obtain ⟨init, place, -, hplace, hmem, -, hplaces, -⟩ :=
      exists_opener hn (over_of_cutBlock hb hc hne) rfl (hf l (by simp))
    rw [Node.ofChildren, places_branch] at hplaces
    rw [← hls, List.mem_cons, List.mem_append] at hm
    rcases hm with rfl | hm | hm
    · exact ⟨place, by simp [hplaces, hmem], hplace⟩
    · obtain ⟨p, hp, hstart⟩ := ihi (fun k hk => hf k (by simp [← hls, hk])) m hm hmb
      exact ⟨p, by simp [hplaces, hp], hstart⟩
    · obtain ⟨p, hp, hstart⟩ := ih (fun k hk => hf k (by simp [← hls, hk])) m hm hmb
      exact ⟨p, by simp [hp], hstart⟩

/-! ## Lines by their number -/

theorem exists_first {c : Nat} {m : Line} (hc : ls[c]? = some m) (hm : m.isBlank = false) :
    ∃ k ≤ c, ∃ n, ls[k]? = some n ∧ n.isBlank = false ∧
      ls.find? (fun l => !l.isBlank) = some n := by
  have hfind : (ls.find? fun l => !l.isBlank).isSome = true :=
    List.find?_isSome.2 ⟨m, List.mem_of_getElem? hc, by simp [hm]⟩
  obtain ⟨n, hn⟩ := Option.isSome_iff_exists.1 hfind
  obtain ⟨hnb, blanks, rest, hsplit, hblanks⟩ := List.find?_eq_some_iff_append.1 hn
  refine ⟨blanks.length, ?_, n, by rw [hsplit]; simp, by simpa using hnb, hn⟩
  apply Nat.le_of_not_lt
  intro hlt
  rw [hsplit, List.getElem?_append_left hlt] at hc
  have := hblanks m (List.mem_of_getElem? hc)
  simp [hm] at this

namespace Owns

variable {ps : List Position} {e : Position × Node} {before inner after : List Line} {l : Line}

theorem getElem?_line (h : Owns ls ps e before l inner after) : ls[before.length]? = some l := by
  rw [h.lines]
  simp

theorem getElem?_inner (h : Owns ls ps e before l inner after) {k : Nat} (hk : k < inner.length) :
    ls[before.length + 1 + k]? = inner[k]? := by
  rw [h.lines, List.getElem?_append_right (by omega),
    show before.length + 1 + k - before.length = k + 1 by omega, List.getElem?_cons_succ,
    List.getElem?_append_left hk]

theorem getElem?_after (h : Owns ls ps e before l inner after) (k : Nat) :
    ls[before.length + 1 + inner.length + k]? = after[k]? := by
  rw [h.lines, List.getElem?_append_right (by omega),
    show before.length + 1 + inner.length + k - before.length = inner.length + k + 1 by omega,
    List.getElem?_cons_succ, List.getElem?_append_right (by omega), Nat.add_sub_cancel_left]

/-- **The lines of a block** are those up to which all lines are deeper. -/
theorem inside_iff (h : Owns ls ps e before l inner after) {j : Nat} {m : Line}
    (hj : ls[j]? = some m) (hm : m.isBlank = false) :
    (∃ k < inner.length, j = before.length + 1 + k) ↔ before.length < j ∧
      ∀ k n, ls[k]? = some n → before.length < k → k ≤ j → n.isBlank = false →
        l.width < n.width := by
  constructor
  · rintro ⟨c, hc, rfl⟩
    refine ⟨by omega, fun k n hn hlt hle hb => h.covers.inner n ?_ hb⟩
    obtain ⟨i, rfl⟩ : ∃ i, k = before.length + 1 + i := ⟨k - before.length - 1, by omega⟩
    rw [h.getElem?_inner (by omega)] at hn
    exact List.mem_of_getElem? hn
  · rintro ⟨hlt, hwide⟩
    by_cases hin : j < before.length + 1 + inner.length
    · exact ⟨j - before.length - 1, by omega, by omega⟩
    · -- the first line behind the block that is not blank is less deep
      obtain ⟨i, rfl⟩ : ∃ i, j = before.length + 1 + inner.length + i :=
        ⟨j - before.length - 1 - inner.length, by omega⟩
      rw [h.getElem?_after] at hj
      obtain ⟨c, hc, n, hn, hnb, hfind⟩ := exists_first hj hm
      have hlt := hwide _ n (by rw [h.getElem?_after c]; exact hn) (by omega) (by omega) hnb
      have hle := h.covers.after n hfind
      omega

end Owns

/-- A line that may open a block opens one if a deeper line follows. -/
theorem mem_openers_of_deeper {i j : Nat} {l m : Line} (hi : ls[i]? = some l)
    (hj : ls[j]? = some m) (hlt : i < j) (hlb : l.isBlank = false)
    (hlc : l.startsWithComment = false) (hm : m.isBlank = false)
    (hwide : ∀ (k : Nat) (n : Line), ls[k]? = some n → i < k → k ≤ j → n.isBlank = false →
      l.width < n.width) : l ∈ openers ls := by
  have hsplit : ls = ls.take i ++ l :: ls.drop (i + 1) := by
    obtain ⟨hlen, rfl⟩ := List.getElem?_eq_some_iff.1 hi
    simp
  have hdrop : (ls.drop (i + 1))[j - i - 1]? = some m := by
    rw [List.getElem?_drop, ← hj]
    congr 1
    omega
  obtain ⟨c, hc, n, hn, hnb, hfind⟩ := exists_first hdrop hm
  rw [List.getElem?_drop] at hn
  have hw := hwide _ n hn (by omega) (by omega) hnb
  rw [hsplit]
  exact mem_openers _ hlb ⟨hlc, n, hfind, hw⟩

/-- What stands on one line only tells the number of the line. -/
theorem index_eq {i j : Nat} {l m : Line} {p : Position} (h : (ls.flatMap Line.places).Nodup)
    (hi : ls[i]? = some l) (hj : ls[j]? = some m) (hl : p ∈ l.places) (hm : p ∈ m.places) :
    i = j := by
  induction ls generalizing i j with
  | nil => simp at hi
  | cons k ls ih =>
    rw [List.flatMap_cons, List.nodup_append] at h
    obtain ⟨-, hls, hdisjoint⟩ := h
    have hrest : ∀ {c : Nat} {n : Line}, ls[c]? = some n → p ∈ n.places →
        p ∈ ls.flatMap Line.places := fun hc hn =>
      List.mem_flatMap.2 ⟨_, List.mem_of_getElem? hc, hn⟩
    cases i with
    | zero =>
      cases j with
      | zero => rfl
      | succ j =>
        cases hi
        exact absurd rfl (hdisjoint p hl p (hrest hj hm))
    | succ i =>
      cases j with
      | zero =>
        cases hj
        exact absurd rfl (hdisjoint p hm p (hrest hi hl))
      | succ j => rw [ih hls hi hj]

/-- What a block holds of the lines' places. -/
theorem Owns.mem_places_iff {ps : List Position} {e : Position × Node}
    {before inner after : List Line} {l m : Line} {j : Nat} {p : Position}
    (ho : Owns ls ps e before l inner after) (hnodup : (ls.flatMap Line.places).Nodup)
    (hplaced : Position.unplaced ∉ ls.flatMap Line.places) (hj : ls[j]? = some m) (hp : p ∈ ps)
    (hm : p ∈ m.places) :
    p ∈ e.2.places ↔ ∃ k < inner.length, j = before.length + 1 + k := by
  have hne : p ≠ .unplaced := by
    rintro rfl
    exact hplaced (List.mem_flatMap.2 ⟨m, List.mem_of_getElem? hj, hm⟩)
  constructor
  · intro he
    obtain ⟨n, hn, hpn⟩ := List.mem_flatMap.1 ((ho.within p he).resolve_left hne)
    obtain ⟨k, hk⟩ := List.mem_iff_getElem?.1 hn
    have hlt : k < inner.length := (List.getElem?_eq_some_iff.1 hk).1
    exact ⟨k, hlt, index_eq hnodup hj (by rw [ho.getElem?_inner hlt]; exact hk) hm hpn⟩
  · rintro ⟨k, hk, rfl⟩
    rcases ho.beyond p hp with he | he | he
    · exact he
    · exact absurd he hne
    · -- on another line
      exfalso
      obtain ⟨n, hn, hpn⟩ := List.mem_flatMap.1 he
      rcases List.mem_append.1 hn with hn | hn
      · obtain ⟨c, hc⟩ := List.mem_iff_getElem?.1 hn
        have hlt : c < before.length := (List.getElem?_eq_some_iff.1 hc).1
        have hcs : ls[c]? = some n := by
          rw [ho.lines, List.getElem?_append_left hlt, hc]
        have := index_eq hnodup hj hcs hm hpn
        omega
      · rcases List.mem_cons.1 hn with rfl | hn
        · have := index_eq hnodup hj ho.getElem?_line hm hpn
          omega
        · obtain ⟨c, hc⟩ := List.mem_iff_getElem?.1 hn
          have := index_eq hnodup hj (by rw [ho.getElem?_after c]; exact hc) hm hpn
          omega

theorem nodup_openers (h : (ls.flatMap Line.places).Nodup) :
    ((openers ls).map Line.start?).Nodup := by
  induction ls with
  | nil => simp [openers]
  | cons l ls ih =>
    rw [List.flatMap_cons, List.nodup_append] at h
    obtain ⟨-, hls, hdisjoint⟩ := h
    rw [openers]
    split
    · rename_i hl
      refine List.nodup_cons.2 ⟨fun hm => ?_, ih hls⟩
      obtain ⟨t, ts, -, hstart⟩ := Line.exists_start? hl.1
      obtain ⟨m, hm, hms⟩ := List.mem_map.1 hm
      rw [hstart] at hms
      exact hdisjoint _ (Line.start?_mem hstart) _
        (List.mem_flatMap.2 ⟨m, mem_of_mem_openers hm, Line.start?_mem hms⟩) rfl
    · exact ih hls

theorem exists_ofTokens {l : Line} {newline : Option Token} {line ts : List Token}
    (h : l ∈ cut newline line ts) :
    ∃ newline' us, l = .ofTokens newline' us ∧ us <:+: line.reverse ++ ts := by
  induction ts generalizing newline line with
  | nil =>
    rw [cut, List.mem_singleton] at h
    exact ⟨newline, _, h, by simp⟩
  | cons t ts ih =>
    rw [cut] at h
    split at h
    · rcases List.mem_cons.1 h with h | h
      · exact ⟨newline, _, h, List.infix_append' [] _ _⟩
      · obtain ⟨newline', us, hl, hus⟩ := ih h
        refine ⟨newline', us, hl, hus.trans ⟨line.reverse ++ [t], [], by simp⟩⟩
    · obtain ⟨newline', us, hl, hus⟩ := ih h
      exact ⟨newline', us, hl, by simpa using hus⟩

theorem flush_cut {ts : List Token} (h : Token.Apart ts) : Flush (cut none [] ts) := by
  intro l hl t ht hk
  obtain ⟨newline, us, rfl, hus⟩ := exists_ofTokens hl
  have hchain := h.infix hus
  cases us with
  | nil => simp [Line.ofTokens] at ht
  | cons u us =>
    rw [Line.ofTokens] at ht
    split at ht
    · rename_i hu
      exact hchain.rel_head? ht ⟨hu, hk⟩
    · rename_i hu
      cases ht
      exact hu hk

theorem Line.opens_iff {l : Line} {v : Visit} :
    l.opens v = true ↔ v.node.is .block = true ∧ l.start? = some v.parent.span.first := by
  simp [opens]

/-- **Where the lines of a text stand in its tree.** -/
structure Outlined (lines : List Line) (tree : Node) : Prop where
  /-- What stands on the line `m` is in the block that the line `l` opens exactly if `l` may open
  one and all lines behind `l` up to `m` are deeper than `l`, blank lines apart. -/
  inside : ∀ (i j : Nat) (l m : Line), lines[i]? = some l → lines[j]? = some m →
    m.isBlank = false → ∀ p ∈ tree.places, p ∈ m.places →
      ((∃ v ∈ tree.visits, l.opens v = true ∧ p ∈ v.node.places) ↔
        i < j ∧ l.isBlank = false ∧ l.startsWithComment = false ∧
          ∀ (k : Nat) (n : Line), lines[k]? = some n → i < k → k ≤ j → n.isBlank = false →
            l.width < n.width)
  /-- Something stands on every line that is not blank. -/
  present : ∀ m ∈ lines, m.isBlank = false → ∃ p ∈ tree.places, p ∈ m.places
  /-- A line opens one block at most. -/
  once : ∀ l ∈ lines, (tree.visits.filter l.opens).length ≤ 1
  /-- All blocks are opened by lines. -/
  only : ∀ v ∈ tree.visits, v.node.kind = .block → ∃ l ∈ lines, l.opens v = true
  root : tree.kind ≠ .block

section

variable {ls : List Line} {ns : List Node} {tree : Node} (h : Nested ls ns) (htree : tree = .ofChildren .stylesheet .sass ns)
  (hfr : ∀ l ∈ ls, l.Framed) (hf : Flush ls) (hnodup : (ls.flatMap Line.places).Nodup)
  (hplaced : Position.unplaced ∉ ls.flatMap Line.places)

include h htree hfr hf

theorem Nested.exists_owner {e : Position × Node} (he : e ∈ tree.openings) :
    ∃ before l inner after, Owns ls tree.places e before l inner after := by
  rw [htree, Node.ofChildren, openings] at he
  rw [htree, Node.ofChildren, places_branch]
  exact h.owned hfr hf _ e he

include hnodup

/-- The owner of a block is the line that opens it. -/
theorem Nested.owner_of_start {e : Position × Node} {i : Nat} {l : Line} (he : e ∈ tree.openings)
    (hi : ls[i]? = some l) (hl : l.start? = some e.1) :
    ∃ before inner after, i = before.length ∧ Owns ls tree.places e before l inner after := by
  obtain ⟨before, m, inner, after, ho⟩ := h.exists_owner htree hfr hf he
  have hindex := index_eq hnodup hi ho.getElem?_line (Line.start?_mem hl) (Line.start?_mem ho.start)
  rw [hindex, ho.getElem?_line] at hi
  cases hi
  exact ⟨before, inner, after, hindex, ho⟩

include hplaced

theorem Nested.outlined : Outlined ls tree where
  inside i j l m hi hj hb p hp hm := by
    constructor
    · rintro ⟨v, hv, hopens, hpv⟩
      obtain ⟨hk, hstart⟩ := Line.opens_iff.1 hopens
      obtain ⟨before, inner, after, rfl, ho⟩ :=
        h.owner_of_start htree hfr hf hnodup (mem_openings hv hk) hi hstart
      have hin := (ho.mem_places_iff hnodup hplaced hj hp hm).1 hpv
      obtain ⟨hlt, hwide⟩ := (ho.inside_iff hj hb).1 hin
      exact ⟨hlt, ho.covers.isBlank, ho.covers.startsWithComment, hwide⟩
    · rintro ⟨hlt, hlb, hlc, hwide⟩
      obtain ⟨t, ts, -, hstart⟩ := Line.exists_start? hlb
      have hmem := mem_openers_of_deeper hi hj hlt hlb hlc hb hwide
      obtain ⟨e, he, hes⟩ : ∃ e ∈ tree.openings, some e.1 = l.start? := by
        have hmap := h.map_openings hf (spanOf ns).first
        have hl := List.mem_map_of_mem (f := Line.start?) hmem
        rw [← hmap] at hl
        rw [htree, Node.ofChildren, openings]
        exact List.mem_map.1 hl
      obtain ⟨before, inner, after, rfl, ho⟩ :=
        h.owner_of_start htree hfr hf hnodup he hi hes.symm
      have hin := (ho.inside_iff hj hb).2 ⟨hlt, hwide⟩
      have hpe := (ho.mem_places_iff hnodup hplaced hj hp hm).2 hin
      obtain ⟨v, hv, hk, hfirst, hnode⟩ := exists_visit he
      refine ⟨v, hv, Line.opens_iff.2 ⟨hk, by rw [hfirst, hes]⟩, ?_⟩
      rw [hnode]
      exact hpe
  present m hm hb := by
    obtain ⟨p, hp, hstart⟩ := h.start?_mem hf m hm hb
    refine ⟨p, ?_, Line.start?_mem hstart⟩
    rw [htree, Node.ofChildren, places_branch]
    exact hp
  once l _ := by
    have hmap := h.map_openings hf (spanOf ns).first
    have hopen : tree.openings = openingsFrom (spanOf ns).first ns := by
      rw [htree, Node.ofChildren, openings]
    rw [← hopen, ← map_visits_block, List.map_map] at hmap
    have hcount := List.nodup_iff_count_le_one.1 (nodup_openers hnodup) l.start?
    rw [← hmap, List.count, List.countP_map, visitsOfKind, List.countP_filter] at hcount
    rw [← List.countP_eq_length_filter]
    refine le_trans (le_of_eq (List.countP_congr fun v _ => ?_)) hcount
    rw [Line.opens_iff]
    simp only [Function.comp_apply, Bool.and_eq_true, beq_iff_eq]
    exact ⟨fun hv => ⟨hv.2.symm, hv.1⟩, fun hv => ⟨hv.2, hv.1.symm⟩⟩
  only v hv hk := by
    obtain ⟨before, l, inner, after, ho⟩ :=
      h.exists_owner htree hfr hf (mem_openings hv (is_eq_true.2 hk))
    exact ⟨l, by simp [ho.lines], Line.opens_iff.2 ⟨is_eq_true.2 hk, ho.start⟩⟩
  root := by
    rw [htree]
    exact Kind.noConfusion

end

end Lines

/-- **Nesting follows the indentation**: in the tree of a text of the indented dialect, the nodes of
a line are in the blocks of just those lines that the indentation nests it under. -/
theorem nesting_of_parse (source : String) (tree : Node) (h : parse .sass source = .ok tree) :
    ∃ ts, tokens .sass .origin source.toList = .ok ts ∧
      Lines.Outlined (Lines.cut none [] ts) tree := by
  obtain ⟨ts, ns, hp⟩ := parsed_of_parseChars h
  have hlex := tokens_eq_ok.1 hp.tokens_eq
  have hplaces : (Lines.cut none [] ts).flatMap Lines.Line.places =
      ts.map fun t => t.span.first := by
    have hcut := Lines.flatMap_tokens_cut none [] ts
    simp only [Option.toList_none, List.reverse_nil, List.nil_append] at hcut
    conv_rhs => rw [← hcut, List.map_flatMap]
    rfl
  have hplaced : Position.unplaced ∉ ts.map fun t => t.span.first := by
    intro hm
    obtain ⟨t, ht, hu⟩ := List.mem_map.1 hm
    have hcolumn := hlex.column_pos (by decide) t ht
    rw [hu] at hcolumn
    cases hcolumn
  refine ⟨ts, hp.tokens_eq, (Lines.nodesOf_eq_ok.1 hp.nodes_eq).outlined hp.tree_eq
    (Lines.framed_cut (by simp) [] ts) (Lines.flush_cut hlex.apart) ?_ ?_⟩
  · rw [hplaces]
    exact hlex.nodup_firsts
  · rw [hplaces]
    exact hplaced

/-- A sheet with a blank line, a comment line with deeper lines behind it, and a dedent to a level
that no line before had. -/
def dedentSheet : String := "a\n    b: c\n\n  d\n      // e\n        f: g\n h: i"

theorem nesting_of_parse_dedent :
    ∃ tree, parse .sass dedentSheet = .ok tree ∧
      ∃ ts, tokens .sass .origin dedentSheet.toList = .ok ts ∧
        Lines.Outlined (Lines.cut none [] ts) tree := by
  have hok : ((parse .sass dedentSheet).toOption).isSome := by decide +kernel
  cases h : parse .sass dedentSheet with
  | error e => rw [h] at hok; cases hok
  | ok tree => exact ⟨tree, rfl, nesting_of_parse _ _ h⟩

end TidySheet
