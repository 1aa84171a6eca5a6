import Mcs51.Text.Basic

/-! # Operand slots

A form of an instruction takes one operand per slot. A slot says which operands it admits, how it is
shown in a listing and how many bytes it adds after the opcode. -/

namespace Mcs51.Instruction

/-- What one operand of a form may be. -/
inductive Slot where
  /-- The accumulator. -/
  | accumulator
  /-- The carry flag. -/
  | carry
  /-- The accumulator and the register `B` as a pair. -/
  | pair
  /-- The data pointer. -/
  | dataPointer
  /-- A register of the current bank. -/
  | register (n : Fin 8)
  /-- The memory a register points to. -/
  | indirect (n : Fin 2)
  /-- The memory the data pointer points to. -/
  | atDataPointer
  /-- The code at the data pointer, displaced by the accumulator. -/
  | atIndexedData
  /-- The code at the program counter, displaced by the accumulator. -/
  | atIndexedCode
  /-- A byte given in the instruction. -/
  | immediate
  /-- A word given in the instruction. -/
  | immediateWord
  /-- The address of a byte of internal memory. -/
  | direct
  /-- The address of a bit. -/
  | bit
  /-- The address of a bit whose complement is taken. -/
  | complement
  /-- A code address near the following instruction. -/
  | relative
  /-- A code address in the page of the following instruction. -/
  | page
  /-- Any code address. -/
  | absolute
deriving DecidableEq, Repr

namespace Slot

/-- Bytes a slot adds after the opcode. -/
def width : Slot → Nat
  | immediate | direct | bit | complement | relative | page => 1
  | immediateWord | absolute => 2
  | _ => 0

/-- A slot as it appears in a pattern. -/
def text : Slot → Text
  | accumulator => "A".toList
  | carry => "C".toList
  | pair => "AB".toList
  | dataPointer => "DPTR".toList
  | register n => ['R', Nat.digitChar n]
  | indirect n => ['@', 'R', Nat.digitChar n]
  | atDataPointer => "@DPTR".toList
  | atIndexedData => "@A+DPTR".toList
  | atIndexedCode => "@A+PC".toList
  | immediate | immediateWord => "#DATA".toList
  | direct | bit | relative | page | absolute => "ADDR".toList
  | complement => "/ADDR".toList

end Slot

/-- The registers of a bank, by number. -/
def registers : List (Fin 8) := [0, 1, 2, 3, 4, 5, 6, 7]

/-- The registers that may point to memory, by number. -/
def pointers : List (Fin 2) := [0, 1]

/-- The memory that the first pointer leads to. -/
def atFirst : Slot := .indirect 0

/-- The memory that the second pointer leads to. -/
def atSecond : Slot := .indirect 1

end Mcs51.Instruction
