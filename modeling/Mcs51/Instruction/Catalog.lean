import Mcs51.Instruction.Mnemonic
import Mcs51.Instruction.Slot

/-! # The instruction catalog

All opcodes of the processor and what they mean. The opcode map has sixteen rows of sixteen columns,
and a row is regular: its first six columns stand for themselves, and the others hold one form whose
variable operand runs through `@R0`, `@R1` and `R0` to `R7`. `catalog` spells the map out in the
order of the opcodes.

The look-ups of the assembler are derived from it: `forms` (the encodings of a mnemonic), `arity`
(how many tokens an instruction has) and `oneByte?` (an instruction that is nothing but its
opcode). -/

namespace Mcs51.Instruction

/-- One encoding: an opcode and the operands it takes, in the order of the source. -/
structure Form where
  opcode : UInt8
  mnemonic : Mnemonic
  slots : List Slot
deriving DecidableEq, Repr

namespace Form

/-- An opcode with no instruction. -/
def unassigned (opcode : UInt8) : Form := ⟨opcode, .reserved, []⟩

/-- The opcode stands for an instruction. -/
def isAssigned (f : Form) : Bool := f.mnemonic != .reserved

/-- Length in bytes of an instruction of this form, and zero for an opcode with none. -/
def length (f : Form) : Nat :=
  if f.isAssigned then f.slots.foldr (fun s n => s.width + n) 1 else 0

/-- Slots with a blank before the first and a comma before each other. -/
def slotsText : List Slot → Text
  | [] => []
  | s :: rest => ' ' :: s.text ++ rest.flatMap fun t => ',' :: t.text

/-- The form as a line of source, with the shape of an operand for the operand. -/
def pattern (f : Form) : Text := f.mnemonic.name ++ slotsText f.slots

end Form

/-! ### The opcode map -/

/-- A mnemonic with its slots: a cell of the opcode map. -/
abbrev Shape := Mnemonic × List Slot

/-- The operands that the columns from the sixth on run through. -/
def variableSlots : List Slot := pointers.map Slot.indirect ++ registers.map Slot.register

/-- A row: six cells of its own, then one cell for each variable operand. -/
def row (own : List Shape) (cell : Slot → Shape) : List Shape := own ++ variableSlots.map cell

/-- The cell of the row that exchanges digits through a pointer and counts down a register. -/
def exchangeOrCount (s : Slot) : Shape :=
  match s with
  | .indirect _ => (.xchd, [.accumulator, s])
  | _ => (.djnz, [s, .relative])

/-- The opcode map, row by row. -/
def opcodeMap : List (List Shape) :=
  [row [(.nop, []), (.ajmp, [.page]), (.ljmp, [.absolute]), (.rr, [.accumulator]),
        (.inc, [.accumulator]), (.inc, [.direct])]
     fun s => (.inc, [s]),
   row [(.jbc, [.bit, .relative]), (.acall, [.page]), (.lcall, [.absolute]), (.rrc, [.accumulator]),
        (.dec, [.accumulator]), (.dec, [.direct])]
     fun s => (.dec, [s]),
   row [(.jb, [.bit, .relative]), (.ajmp, [.page]), (.ret, []), (.rl, [.accumulator]),
        (.add, [.accumulator, .immediate]), (.add, [.accumulator, .direct])]
     fun s => (.add, [.accumulator, s]),
   row [(.jnb, [.bit, .relative]), (.acall, [.page]), (.reti, []), (.rlc, [.accumulator]),
        (.addc, [.accumulator, .immediate]), (.addc, [.accumulator, .direct])]
     fun s => (.addc, [.accumulator, s]),
   row [(.jc, [.relative]), (.ajmp, [.page]), (.orl, [.direct, .accumulator]),
        (.orl, [.direct, .immediate]), (.orl, [.accumulator, .immediate]),
        (.orl, [.accumulator, .direct])]
     fun s => (.orl, [.accumulator, s]),
   row [(.jnc, [.relative]), (.acall, [.page]), (.anl, [.direct, .accumulator]),
        (.anl, [.direct, .immediate]), (.anl, [.accumulator, .immediate]),
        (.anl, [.accumulator, .direct])]
     fun s => (.anl, [.accumulator, s]),
   row [(.jz, [.relative]), (.ajmp, [.page]), (.xrl, [.direct, .accumulator]),
        (.xrl, [.direct, .immediate]), (.xrl, [.accumulator, .immediate]),
        (.xrl, [.accumulator, .direct])]
     fun s => (.xrl, [.accumulator, s]),
   row [(.jnz, [.relative]), (.acall, [.page]), (.orl, [.carry, .bit]), (.jmp, [.atIndexedData]),
        (.mov, [.accumulator, .immediate]), (.mov, [.direct, .immediate])]
     fun s => (.mov, [s, .immediate]),
   row [(.sjmp, [.relative]), (.ajmp, [.page]), (.anl, [.carry, .bit]),
        (.movc, [.accumulator, .atIndexedCode]), (.div, [.pair]), (.mov, [.direct, .direct])]
     fun s => (.mov, [.direct, s]),
   row [(.mov, [.dataPointer, .immediateWord]), (.acall, [.page]), (.mov, [.bit, .carry]),
        (.movc, [.accumulator, .atIndexedData]), (.subb, [.accumulator, .immediate]),
        (.subb, [.accumulator, .direct])]
     fun s => (.subb, [.accumulator, s]),
   row [(.orl, [.carry, .complement]), (.ajmp, [.page]), (.mov, [.carry, .bit]),
        (.inc, [.dataPointer]), (.mul, [.pair]), (.reserved, [])]
     fun s => (.mov, [s, .direct]),
   row [(.anl, [.carry, .complement]), (.acall, [.page]), (.cpl, [.bit]), (.cpl, [.carry]),
        (.cjne, [.accumulator, .immediate, .relative]), (.cjne, [.accumulator, .direct, .relative])]
     fun s => (.cjne, [s, .immediate, .relative]),
   row [(.push, [.direct]), (.ajmp, [.page]), (.clr, [.bit]), (.clr, [.carry]),
        (.swap, [.accumulator]), (.xch, [.accumulator, .direct])]
     fun s => (.xch, [.accumulator, s]),
   row [(.pop, [.direct]), (.acall, [.page]), (.setb, [.bit]), (.setb, [.carry]),
        (.da, [.accumulator]), (.djnz, [.direct, .relative])]
     exchangeOrCount,
   row [(.movx, [.accumulator, .atDataPointer]), (.ajmp, [.page]),
        (.movx, [.accumulator, atFirst]), (.movx, [.accumulator, atSecond]),
        (.clr, [.accumulator]), (.mov, [.accumulator, .direct])]
     fun s => (.mov, [.accumulator, s]),
   row [(.movx, [.atDataPointer, .accumulator]), (.acall, [.page]),
        (.movx, [atFirst, .accumulator]), (.movx, [atSecond, .accumulator]),
        (.cpl, [.accumulator]), (.mov, [.direct, .accumulator])]
     fun s => (.mov, [s, .accumulator])]

/-- The forms of all opcodes, in their order. -/
def catalog : List Form :=
  opcodeMap.flatten.zipIdx.map fun p => ⟨UInt8.ofNat p.2, p.1.1, p.1.2⟩

/-- The catalog as a listing shows it, closed by an entry of no length. -/
def listing : List Form := catalog ++ [Form.unassigned 0]

/-- The form of an opcode. -/
def formOf (opcode : UInt8) : Form := catalog.getD opcode.toNat (Form.unassigned opcode)

set_option maxRecDepth 4000 in
theorem length_catalog : catalog.length = 256 := by decide

set_option maxRecDepth 4000 in
theorem opcode_catalog : catalog.map Form.opcode = (List.range 256).map UInt8.ofNat := by
  decide

/-! ### Look-ups -/

/-- Two forms that no operands tell apart. -/
def Form.sameShape (f g : Form) : Bool := f.mnemonic == g.mnemonic && f.slots == g.slots

/-- The first form of each shape. -/
def firstOfShape (fs : List Form) : List Form :=
  fs.foldl (fun kept f => if kept.any f.sameShape then kept else kept ++ [f]) []

/-- The forms of a mnemonic that an assembler chooses from: the opcodes with this instruction, in
their order, where of several with the same slots the first stands for all. -/
def forms (m : Mnemonic) : List Form :=
  firstOfShape (catalog.filter fun f => f.isAssigned && f.mnemonic == m)

/-- The most operands that one of the forms takes. -/
def mostSlots? (fs : List Form) : Option Nat := (fs.map fun f => f.slots.length).max?

/-- Tokens of an instruction, the mnemonic included: as many operands as its fullest form of several
bytes takes, and if it has none, as many as its fullest form. -/
def arity (m : Mnemonic) : Nat :=
  match mostSlots? ((forms m).filter fun f => 1 < f.length) with
  | some n => 1 + n
  | none => 1 + (mostSlots? (forms m)).getD 0

/-- The forms that are nothing but their opcode. -/
def oneByteForms : List Form := catalog.filter fun f => f.length == 1

/-- The instruction of one byte whose pattern a line spells, letter case and outer blanks aside. -/
def oneByte? (line : Text) : Option Form :=
  oneByteForms.find? fun f => f.pattern.sameWord line.trim

end Mcs51.Instruction
