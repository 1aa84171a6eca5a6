import Mcs51.Problem

/-! # Jump targets

How an instruction names the code address it goes to. A jump within a page of 2048 bytes keeps the
upper three of eleven address bits in its opcode (`foldPage`); a branch keeps the distance from the
following instruction as a signed byte (`displacement`). Both refuse a target they cannot name. -/

namespace Mcs51.Instruction

/-- Puts the upper page bits of the target into the opcode of a jump within the page of `next`, the
address after the instruction. -/
def foldPage (opcode : UInt8) (next target : UInt16) : Except Problem UInt8 :=
  if target &&& 0xF800 ≠ next &&& 0xF800 then .error (.outsidePage target next)
  else .ok (((target >>> 8) &&& 0x07).toUInt8 <<< 5 ||| (opcode &&& 0x1F))

/-- The distance from `next` to the target, as a two's complement byte. -/
def displacement (next target : UInt16) : Except Problem UInt8 :=
  let distance : Int := (target.toNat : Int) - next.toNat
  if -128 ≤ distance ∧ distance ≤ 127 then .ok (UInt8.ofInt distance)
  else .error (.tooFar target next)

/-- The low byte of a word. -/
def lowByte (w : UInt16) : UInt8 := w.toUInt8

/-- The high byte of a word. -/
def highByte (w : UInt16) : UInt8 := (w >>> 8).toUInt8

end Mcs51.Instruction
