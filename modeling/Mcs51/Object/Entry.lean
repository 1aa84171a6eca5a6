import Mcs51.Instruction.Encoding

/-! # Entries

The provisional output of the first pass: one entry per byte, each at its address. A label that is
not yet known holds its place by a cell of its own, and a label of two bytes by a second cell after
it. -/

namespace Mcs51.Object

open Instruction

/-- One byte to come. -/
inductive Cell where
  | byte (b : UInt8)
  /-- The place of a label, with the position that used it. -/
  | label (name : Text) (pos : Pos) (mode : Mode)
  /-- The place of the low byte of the label before it. -/
  | second
deriving DecidableEq, Repr

/-- A cell at its address. -/
structure Entry where
  addr : UInt16
  cell : Cell
deriving DecidableEq, Repr

/-- Bytes with their addresses, in the order in which they were written. -/
abbrev Image := List (UInt16 × UInt8)

/-- The sign of a second cell in a listing. -/
def secondSign : Char := '¹'

/-- An entry as a line of a listing. -/
def Entry.text (e : Entry) : Text :=
  Text.hexWord e.addr ++ ' ' :: match e.cell with
    | .byte b => Text.hexByte b
    | .label name pos _ =>
      name ++ "    ".toList ++ pos.file ++ "  ".toList ++ Text.decimal pos.line
    | .second => [secondSign]

/-- The cells of a field of an instruction at the given position. -/
def fieldCells (pos : Pos) : Field → List Cell
  | .byte b => [.byte b]
  | .label name .absolute => [.label name pos .absolute, .second]
  | .label name mode => [.label name pos mode]

/-- The cells of an instruction at the given position. -/
def cells (e : Encoding) (pos : Pos) : List Cell :=
  .byte e.opcode :: e.fields.flatMap (fieldCells pos)

theorem length_fieldCells (pos : Pos) (f : Field) : (fieldCells pos f).length = f.width := by
  cases f with
  | byte => rfl
  | label name mode => cases mode <;> rfl

/-- An instruction has one cell for each of its bytes. -/
theorem length_cells (e : Encoding) (pos : Pos) : (cells e pos).length = e.length := by
  obtain ⟨opcode, fields⟩ := e
  simp only [cells, Encoding.length, List.length_cons]
  induction fields with
  | nil => rfl
  | cons f fields ih =>
    simp only [List.flatMap_cons, List.length_append, length_fieldCells, List.foldr_cons, ← ih]
    omega

end Mcs51.Object
