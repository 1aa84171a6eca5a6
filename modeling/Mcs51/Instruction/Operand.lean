import Mcs51.Instruction.Slot
import Mcs51.Instruction.SpecialRegister
import Mcs51.Problem

/-! # Operands

What an operand token of the source denotes. `classify` tells the fixed operands (registers, flags
and pointers) from immediate values, addresses and complemented bits; a value is a number or the
name of a label. `Operand.fits` says which slots admit an operand: all kinds of address look alike
in the source, so every slot for one admits every address. -/

namespace Mcs51.Instruction

/-- A number, or a label that will stand for one. -/
inductive Value where
  | const (n : UInt16)
  | label (name : Text)
deriving DecidableEq, Repr

/-- An operand of the source. -/
inductive Operand where
  | accumulator
  | carry
  | pair
  | dataPointer
  | register (n : Fin 8)
  | indirect (n : Fin 2)
  | atDataPointer
  | atIndexedData
  | atIndexedCode
  | immediate (v : Value)
  | address (v : Value)
  | complement (v : Value)
deriving DecidableEq, Repr

namespace Operand

/-- The shape of an operand, as messages show it. -/
def text : Operand → Text
  | accumulator => "A".toList
  | carry => "C".toList
  | pair => "AB".toList
  | dataPointer => "DPTR".toList
  | register n => ['R', Nat.digitChar n]
  | indirect n => ['@', 'R', Nat.digitChar n]
  | atDataPointer => "@DPTR".toList
  | atIndexedData => "@A+DPTR".toList
  | atIndexedCode => "@A+PC".toList
  | immediate _ => "#DATA".toList
  | address _ => "ADDR".toList
  | complement _ => "/ADDR".toList

/-- The slot admits the operand. -/
def fits : Operand → Slot → Bool
  | accumulator, .accumulator | carry, .carry | pair, .pair | dataPointer, .dataPointer
  | atDataPointer, .atDataPointer | atIndexedData, .atIndexedData | atIndexedCode, .atIndexedCode
  | immediate _, .immediate | immediate _, .immediateWord | complement _, .complement
  | address _, .direct | address _, .bit | address _, .relative | address _, .page
  | address _, .absolute => true
  | register n, .register m => n == m
  | indirect n, .indirect m => n == m
  | _, _ => false

end Operand

/-! ### Reading a token -/

/-- The number of a register, from its name. -/
def registerNumber? (token : Text) : Option (Fin 8) :=
  registers.find? fun n => (Slot.register n).text.sameWord token

/-- The number of a pointer, from its name after the sign for memory. -/
def pointerNumber? (token : Text) : Option (Fin 2) :=
  pointers.find? fun n => (Slot.indirect n).text.sameWord token

/-- Reads an address: a special function register, a label, or a hexadecimal literal. -/
def readAddress (token : Text) : Except Problem Value :=
  match specialRegister? token with
  | some a => .ok (.const a.toUInt16)
  | none =>
    match token with
    | [] => .error .missingOperand
    | c :: _ =>
      if Text.isIdentStart c then
        if token.isIdent then .ok (.label token) else .error (.notLabel token)
      else
        match token.readHex? with
        | some n => .ok (.const n)
        | none => .error (.notNumber token)

/-- Reads an immediate value: a hexadecimal literal, or a label. -/
def readImmediate (token : Text) : Except Problem Value :=
  match token.readHex? with
  | some n => .ok (.const n)
  | none => if token.isIdent then .ok (.label token) else .error (.notImmediate token)

/-- The operands without a number that have one spelling, letter case aside. -/
def namedOperands : List (Text × Operand) :=
  [("A".toList, .accumulator), ("C".toList, .carry), ("AB".toList, .pair),
   ("DPTR".toList, .dataPointer), ("@DPTR".toList, .atDataPointer),
   ("@A+DPTR".toList, .atIndexedData), ("@A+PC".toList, .atIndexedCode)]

/-- The operand that lives in the opcode and that a token spells, letter case aside. -/
def fixedOperand? (token : Text) : Option Operand :=
  match namedOperands.find? fun p => p.1.sameWord token with
  | some p => some p.2
  | none =>
    match pointerNumber? token with
    | some n => some (.indirect n)
    | none => (registerNumber? token).map .register

/-- What a token denotes. -/
def classify (token : Text) : Except Problem Operand :=
  match fixedOperand? token with
  | some o => .ok o
  | none =>
    match token with
    | '#' :: rest => (readImmediate rest).map .immediate
    | '/' :: rest => (readAddress rest).map .complement
    | _ => (readAddress token).map .address

end Mcs51.Instruction
