import Mcs51.Text.Basic

/-! # Mnemonics

The words that open an instruction. `reserved` stands for the one opcode that has no instruction; it
has a name for listings and is never read from a source. -/

namespace Mcs51.Instruction

/-- The operation an instruction asks for. -/
inductive Mnemonic where
  | acall | add | addc | ajmp | anl | cjne | clr | cpl | da | dec | div | djnz | inc | jb | jbc
  | jc | jmp | jnb | jnc | jnz | jz | lcall | ljmp | mov | movc | movx | mul | nop | orl | pop
  | push | ret | reti | rl | rlc | rr | rrc | setb | sjmp | subb | swap | xch | xchd | xrl
  | reserved
deriving DecidableEq, Repr

namespace Mnemonic

/-- The spelling of a mnemonic in listings and messages. -/
def name : Mnemonic → Text
  | acall => "ACALL".toList
  | add => "ADD".toList
  | addc => "ADDC".toList
  | ajmp => "AJMP".toList
  | anl => "ANL".toList
  | cjne => "CJNE".toList
  | clr => "CLR".toList
  | cpl => "CPL".toList
  | da => "DA".toList
  | dec => "DEC".toList
  | div => "DIV".toList
  | djnz => "DJNZ".toList
  | inc => "INC".toList
  | jb => "JB".toList
  | jbc => "JBC".toList
  | jc => "JC".toList
  | jmp => "JMP".toList
  | jnb => "JNB".toList
  | jnc => "JNC".toList
  | jnz => "JNZ".toList
  | jz => "JZ".toList
  | lcall => "LCALL".toList
  | ljmp => "LJMP".toList
  | mov => "MOV".toList
  | movc => "MOVC".toList
  | movx => "MOVX".toList
  | mul => "MUL".toList
  | nop => "NOP".toList
  | orl => "ORL".toList
  | pop => "POP".toList
  | push => "PUSH".toList
  | ret => "RET".toList
  | reti => "RETI".toList
  | rl => "RL".toList
  | rlc => "RLC".toList
  | rr => "RR".toList
  | rrc => "RRC".toList
  | setb => "SETB".toList
  | sjmp => "SJMP".toList
  | subb => "SUBB".toList
  | swap => "SWAP".toList
  | xch => "XCH".toList
  | xchd => "XCHD".toList
  | xrl => "XRL".toList
  | reserved => "???".toList

/-- The mnemonics a source may use. -/
def all : List Mnemonic :=
  [acall, add, addc, ajmp, anl, cjne, clr, cpl, da, dec, div, djnz, inc, jb, jbc, jc, jmp, jnb,
   jnc, jnz, jz, lcall, ljmp, mov, movc, movx, mul, nop, orl, pop, push, ret, reti, rl, rlc, rr,
   rrc, setb, sjmp, subb, swap, xch, xchd, xrl]

theorem mem_all {m : Mnemonic} (h : m ≠ reserved) : m ∈ all := by
  cases m <;> first | decide | contradiction

/-- The mnemonic a word spells, letter case aside. -/
def ofText? (word : Text) : Option Mnemonic := all.find? fun m => m.name.sameWord word

end Mnemonic

end Mcs51.Instruction
