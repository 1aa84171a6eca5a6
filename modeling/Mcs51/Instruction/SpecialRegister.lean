import Mcs51.Text.Basic

/-! # Special function registers

Registers of the processor that have a name and a direct address. A name stands for its address
wherever an address may stand. -/

namespace Mcs51.Instruction

/-- The registers by name. -/
def specialRegisters : List (Text × UInt8) :=
  [("B".toList, 0xF0), ("PSW".toList, 0xD0), ("DPH".toList, 0x83), ("DPL".toList, 0x82),
   ("P0".toList, 0x80), ("P1".toList, 0x90), ("P2".toList, 0xA0), ("P3".toList, 0xB0),
   ("IP".toList, 0xB8), ("SP".toList, 0x81), ("IE".toList, 0xA8), ("TMOD".toList, 0x89),
   ("TCON".toList, 0x88), ("TH0".toList, 0x8C), ("TL0".toList, 0x8A), ("TH1".toList, 0x8D),
   ("TL1".toList, 0x8B), ("SCON".toList, 0x98), ("SBUF".toList, 0x99), ("PCON".toList, 0x87)]

/-- The address of a register by its name, letter case aside. -/
def specialRegister? (name : Text) : Option UInt8 :=
  (specialRegisters.find? fun r => r.1.sameWord name).map Prod.snd

end Mcs51.Instruction
