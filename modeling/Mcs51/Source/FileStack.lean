import Mcs51.Problem
import Mcs51.Source.Marker

/-! # The file stack

Where a line of a bracketed stream comes from. `FileStack.step` counts the line, then looks for a
marker: one that enters a file sets the counted position aside, one that leaves it takes that
position up again less the line of the marker, which is no line of the outer file. -/

namespace Mcs51.Source

/-- The position of the last line and, innermost first, those to come back to. -/
structure FileStack where
  frames : List Pos
  pos : Pos
deriving DecidableEq, Repr

namespace FileStack

/-- Before the first line of a file. -/
def start (file : Text) : FileStack := ⟨[], ⟨file, 0⟩⟩

/-- The number of files entered and not left. -/
def depth (s : FileStack) : Nat := s.frames.length

/-- Counts a line. -/
def count (s : FileStack) : FileStack := { s with pos := { s.pos with line := s.pos.line + 1 } }

/-- Sets the position aside for the start of a file. -/
def enter (s : FileStack) (name : Text) : FileStack := ⟨s.pos :: s.frames, ⟨name, 0⟩⟩

/-- Takes one line. Tells whether it was a marker, which carries no code. -/
def step (s : FileStack) (line : Text) : FileStack × Except Stop Bool :=
  let s := s.count
  match Marker.ofLine? line with
  | none => (s, .ok false)
  | some (.enter name) => (s.enter name, .ok true)
  | some (.leave name) =>
    match s.frames with
    | [] => (s, .error (.error ⟨.unmatchedEnd name, some s.pos⟩))
    | ⟨file, n + 1⟩ :: frames => (⟨frames, ⟨file, n⟩⟩, .ok true)
    | ⟨_, 0⟩ :: _ => (s, .error (.fault .lineUnderflow))

end FileStack

end Mcs51.Source
