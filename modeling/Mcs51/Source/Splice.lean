import Mcs51.Text.Basic

/-! # Joined lines

A line that ends in a backslash goes on in the next line. The joined line takes the place of its
first part, and a filler the place of each further part, so that the lines after it keep their
numbers. -/

namespace Mcs51.Source

/-- The line that takes the place of one that was joined to the line before it. -/
def spliceFiller : Text := "; continued".toList

/-- The line goes on in the next one. -/
def continues (line : Text) : Bool := line.getLast? == some '\\'

/-- Joins lines, given the line that is open and how many lines it has taken up. At the end of the
lines a backslash is dropped all the same. -/
def spliceFrom (line : Text) (taken : Nat) : List Text → List Text
  | [] => (if continues line then line.dropLast else line) :: List.replicate taken spliceFiller
  | next :: rest =>
    if continues line then spliceFrom (line.dropLast ++ next) (taken + 1) rest
    else line :: List.replicate taken spliceFiller ++ spliceFrom next 0 rest

/-- Joins every line that ends in a backslash to the next one. -/
def splice : List Text → List Text
  | [] => []
  | line :: rest => spliceFrom line 0 rest

theorem length_spliceFrom (line : Text) (taken : Nat) (rest : List Text) :
    (spliceFrom line taken rest).length = 1 + taken + rest.length := by
  fun_induction spliceFrom line taken rest <;> simp_all <;> omega

/-- Joining keeps the number of lines. -/
theorem length_splice (ls : List Text) : (splice ls).length = ls.length := by
  cases ls with
  | nil => rfl
  | cons line rest =>
    rw [splice, length_spliceFrom, List.length_cons]
    omega

end Mcs51.Source
