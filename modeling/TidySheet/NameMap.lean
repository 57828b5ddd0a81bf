/-!
# Maps from names, in the order of the names

An association list that ascends strictly in its names, so that going through it gives each name
once and in the order of its characters.

* `NameMap.get?_insert_self` : the value inserted last is the value found.
-/

set_option autoImplicit false

namespace TidySheet

structure NameMap (α : Type) where
  entries : List (String × α)
  ascending : entries.Pairwise (fun a b => a.1 < b.1)

namespace NameMap

variable {α : Type}

def empty : NameMap α := ⟨[], .nil⟩

def insertEntry (name : String) (a : α) : List (String × α) → List (String × α)
  | [] => [(name, a)]
  | (n, b) :: rest =>
    if name < n then (name, a) :: (n, b) :: rest
    else if name = n then (name, a) :: rest
    else (n, b) :: insertEntry name a rest

theorem mem_insertEntry {name : String} {a : α} {es : List (String × α)} {e : String × α}
    (h : e ∈ insertEntry name a es) : e = (name, a) ∨ e ∈ es := by
  induction es with
  | nil => exact Or.inl (by simpa [insertEntry] using h)
  | cons f es ih =>
    obtain ⟨n, b⟩ := f
    simp only [insertEntry] at h
    split at h
    · simpa using h
    · split at h
      · rcases List.mem_cons.1 h with h | h
        · exact Or.inl h
        · exact Or.inr (List.mem_cons_of_mem _ h)
      · rcases List.mem_cons.1 h with h | h
        · exact Or.inr (h ▸ List.mem_cons_self)
        · rcases ih h with h | h
          · exact Or.inl h
          · exact Or.inr (List.mem_cons_of_mem _ h)

theorem ascending_insertEntry (name : String) (a : α) {es : List (String × α)}
    (h : es.Pairwise (fun a b => a.1 < b.1)) :
    (insertEntry name a es).Pairwise (fun a b => a.1 < b.1) := by
  induction es with
  | nil => simp [insertEntry]
  | cons f es ih =>
    obtain ⟨n, b⟩ := f
    obtain ⟨hf, hes⟩ := List.pairwise_cons.1 h
    simp only [insertEntry]
    split
    · next hlt =>
      refine List.pairwise_cons.2 ⟨fun e he => ?_, h⟩
      rcases List.mem_cons.1 he with rfl | he
      · exact hlt
      · exact String.lt_trans hlt (hf e he)
    · next hnlt =>
      split
      · next heq =>
        subst heq
        exact List.pairwise_cons.2 ⟨hf, hes⟩
      · next hne =>
        refine List.pairwise_cons.2 ⟨fun e he => ?_, ih hes⟩
        rcases mem_insertEntry he with rfl | he
        · rcases Std.lt_trichotomy name n with h1 | h1 | h1
          · exact absurd h1 hnlt
          · exact absurd h1 hne
          · exact h1
        · exact hf e he

/-- Gives `name` the value `a`, whatever it had before. -/
def insert (name : String) (a : α) (m : NameMap α) : NameMap α :=
  ⟨insertEntry name a m.entries, ascending_insertEntry name a m.ascending⟩

def get? (m : NameMap α) (name : String) : Option α :=
  (m.entries.find? fun e => e.1 == name).map (·.2)

def names (m : NameMap α) : List String := m.entries.map (·.1)

def size (m : NameMap α) : Nat := m.entries.length

def isEmpty (m : NameMap α) : Bool := m.entries.isEmpty

/-- The map of a list of pairs; of two pairs with one name the later counts. -/
def ofList (es : List (String × α)) : NameMap α :=
  es.foldl (fun m e => m.insert e.1 e.2) empty

theorem get?_insert_self (m : NameMap α) (name : String) (a : α) :
    (m.insert name a).get? name = some a := by
  have key : ∀ es : List (String × α),
      (insertEntry name a es).find? (fun e => e.1 == name) = some (name, a) := by
    intro es
    induction es with
    | nil => simp [insertEntry]
    | cons f es ih =>
      obtain ⟨n, b⟩ := f
      simp only [insertEntry]
      split
      · simp
      · split
        · simp
        · next hne =>
          have hn : (n == name) = false := by
            simpa using fun h => hne h.symm
          rw [List.find?_cons, hn]
          exact ih
  simp [get?, insert, key]

end NameMap

end TidySheet
