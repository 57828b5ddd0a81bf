/-!
# Glob patterns

A question mark stands for any character and a star for any run of them, slashes included. Brackets
hold a class of characters. Two stars have to be a whole component of the pattern and stand for any
run of whole components. One way to fill in `Services.globs`.

* `Glob.parse?` is `none` for a pattern that is no glob.
-/

set_option autoImplicit false

namespace TidySheet.Glob

/-- A part of a class: one character, or all from one through another. -/
inductive Range where
  | single (c : Char)
  | between (first last : Char)
  deriving DecidableEq, Repr

def Range.holds (c : Char) : Range → Bool
  | .single x => c == x
  | .between first last => first ≤ c && c ≤ last

inductive Part where
  | char (c : Char)
  | anyChar
  | anyRun
  /-- Nothing, or any run of characters that ends in a slash. -/
  | anyComponents
  | oneOf (ranges : List Range)
  | noneOf (ranges : List Range)
  deriving DecidableEq, Repr

/-! ## Reading patterns -/

/-- The ranges of a class: a hyphen between two characters makes them ends. -/
def ranges : List Char → List Range
  | a :: '-' :: b :: cs => .between a b :: ranges cs
  | a :: cs => .single a :: ranges cs
  | [] => []

/-- The characters of a class and the pattern behind its closing bracket. The first character is
part of the class, whatever it is. -/
def cutClass? : List Char → Option (List Char × List Char)
  | [] => none
  | c :: cs =>
    match cs.dropWhile (· != ']') with
    | [] => none
    | _ :: rest => some (c :: cs.takeWhile (· != ']'), rest)

theorem length_cutClass? {cs members rest : List Char} (h : cutClass? cs = some (members, rest)) :
    rest.length < cs.length := by
  unfold cutClass? at h
  split at h
  · cases h
  · next c cs =>
    split at h
    · cases h
    · next x r hd =>
      cases h
      have hs : (cs.dropWhile (· != ']')).length ≤ cs.length :=
        (List.dropWhile_suffix (· != ']')).length_le
      rw [hd] at hs
      simp only [List.length_cons] at hs ⊢
      omega

/-- Reads a pattern; `before` is the character in front of it. -/
def parseFrom? (before : Option Char) : List Char → Option (List Part)
  | [] => some []
  | '?' :: cs => (parseFrom? (some '?') cs).map (.anyChar :: ·)
  | '*' :: '*' :: cs =>
    if before = none ∨ before = some '/' then
      match cs with
      | [] => some [.anyComponents]
      | '/' :: cs => (parseFrom? (some '/') cs).map (.anyComponents :: ·)
      | _ => none
    else none
  | '*' :: cs => (parseFrom? (some '*') cs).map (.anyRun :: ·)
  | '[' :: '!' :: cs =>
    match _h : cutClass? cs with
    | some (members, rest) => (parseFrom? (some ']') rest).map (.noneOf (ranges members) :: ·)
    | none => none
  | '[' :: cs =>
    match _h : cutClass? cs with
    | some (members, rest) => (parseFrom? (some ']') rest).map (.oneOf (ranges members) :: ·)
    | none => none
  | c :: cs => (parseFrom? (some c) cs).map (.char c :: ·)
  termination_by cs => cs.length
  decreasing_by
    all_goals simp only [List.length_cons]
    all_goals try have shorter := length_cutClass? _h
    all_goals omega

def parse? (pattern : String) : Option (List Part) := parseFrom? none pattern.toList

/-! ## Matching -/

/-- Whether one character fits a part that stands for one. -/
def Part.fits (c : Char) : Part → Bool
  | .char x => c == x
  | .anyChar => true
  | .oneOf rs => rs.any (·.holds c)
  | .noneOf rs => !rs.any (·.holds c)
  | .anyRun => false
  | .anyComponents => false

/-! A pattern is matched with all suffixes of a text at once. A row has one answer for each suffix,
the whole text first; each part of a pattern makes its row from the row of the parts behind it. -/

/-- The row of no parts: only the empty suffix fits. -/
def endRow (cs : List Char) : List Bool := cs.map (fun _ => false) ++ [true]

/-- The row of a part for one character. -/
def Part.charRow (p : Part) : List Char → List Bool → List Bool
  | c :: cs, _ :: row => (p.fits c && row.headD false) :: p.charRow cs row
  | _, _ => [false]

/-- For each suffix, whether it or a shorter one fits. -/
def runRow : List Bool → List Bool
  | [] => []
  | b :: row =>
    let rest := runRow row
    (b || rest.headD false) :: rest

/-- For each suffix, whether a shorter one fits that stands behind a slash of it, or the empty one
does. -/
def slashRow : List Char → List Bool → List Bool
  | c :: cs, _ :: row =>
    let rest := slashRow cs row
    ((c == '/' && row.headD false) || rest.headD false) :: rest
  | _, row => row

/-- The row of a part, given the row of what is behind it. -/
def Part.row (p : Part) (cs : List Char) (row : List Bool) : List Bool :=
  match p with
  | .anyRun => runRow row
  | .anyComponents => List.zipWith (· || ·) row (slashRow cs row)
  | p => p.charRow cs row

/-- The row of a pattern for the suffixes of a text. -/
def rowOf (cs : List Char) : List Part → List Bool
  | [] => endRow cs
  | p :: ps => p.row cs (rowOf cs ps)

/-- Whether a text fits a pattern. -/
def fits (ps : List Part) (cs : List Char) : Bool := (rowOf cs ps).headD false

/-- The texts that a pattern fits. -/
def globs (pattern : String) : Option (String → Bool) :=
  (parse? pattern).map fun parts text => fits parts text.toList

end TidySheet.Glob
