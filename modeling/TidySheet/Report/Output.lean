/-!
# Output of the command
-/

set_option autoImplicit false

namespace TidySheet

/-- What goes to the two output streams. -/
structure Output where
  out : String
  err : String
  deriving DecidableEq, Repr

namespace Output

def none : Output := ⟨"", ""⟩

def ofOut (s : String) : Output := ⟨s, ""⟩

def ofErr (s : String) : Output := ⟨"", s⟩

def append (a b : Output) : Output := ⟨a.out ++ b.out, a.err ++ b.err⟩

instance : Append Output := ⟨append⟩

def join (os : List Output) : Output := os.foldl append none

end Output

end TidySheet
