import Mcs51.Instruction.Catalog
import Mcs51.Instruction.Operand
import Mcs51.Instruction.Target

/-! # Encodings

One line of source as an opcode and the fields after it. `assemble` first looks for an instruction
of one byte by its pattern; any other line is cut into tokens, its operands are classified, and the
first form of the mnemonic that fits them is filled in (`fill`). A label becomes a field that says
how its address will be written once it is known. -/

namespace Mcs51.Instruction

/-- How the address of a label is written. -/
inductive Mode where
  /-- As the signed distance from the following byte. -/
  | relative
  /-- As its low byte, with the page bits in the opcode before it. -/
  | page
  /-- As its high byte and then its low byte. -/
  | absolute
deriving DecidableEq, Repr

/-- What follows the opcode. -/
inductive Field where
  | byte (b : UInt8)
  | label (name : Text) (mode : Mode)
deriving DecidableEq, Repr

/-- Bytes a field takes. -/
def Field.width : Field → Nat
  | .label _ .absolute => 2
  | _ => 1

/-- An instruction as it will stand in memory, labels open. -/
structure Encoding where
  opcode : UInt8
  fields : List Field
deriving DecidableEq, Repr

/-- Length in bytes. -/
def Encoding.length (e : Encoding) : Nat := e.fields.foldr (fun f n => f.width + n) 1

/-- The tokens of a line: what stands between commas and blanks. -/
def tokenize (line : Text) : List Text :=
  line.splitWords fun c => c == ',' || Text.isBlank c

/-! ### Filling a form -/

/-- A value as one byte. -/
def byteOf : Value → Except Problem UInt8
  | .const n => if n.toNat < 256 then .ok n.toUInt8 else .error (.tooWide n)
  | .label name => .error (.labelAsByte name)

/-- The fields of a word, the high byte first. -/
def wordFields : Value → List Field
  | .const w => [.byte (highByte w), .byte (lowByte w)]
  | .label name => [.label name .absolute]

/-- The opcode and the fields that an operand makes of an opcode, in its slot of an instruction at
address `pc`. Registers, flags and pointers live in the opcode and add no field. -/
def fillSlot (pc : UInt16) (opcode : UInt8) (slot : Slot) (operand : Operand) :
    Except Problem (UInt8 × List Field) :=
  match slot, operand with
  | .immediate, .immediate v | .direct, .address v | .bit, .address v
  | .complement, .complement v => (byteOf v).map fun b => (opcode, [.byte b])
  | .immediateWord, .immediate v | .absolute, .address v => .ok (opcode, wordFields v)
  | .relative, .address (.const n) => (byteOf (.const n)).map fun b => (opcode, [.byte b])
  | .relative, .address (.label name) => .ok (opcode, [.label name .relative])
  | .page, .address (.const target) =>
    (foldPage opcode (pc + 2) target).map fun op => (op, [.byte (lowByte target)])
  | .page, .address (.label name) => .ok (opcode, [.label name .page])
  | _, _ => .ok (opcode, [])

/-- The opcode and the fields of several slots, in order. -/
def fillSlots (pc : UInt16) (opcode : UInt8) :
    List (Slot × Operand) → Except Problem (UInt8 × List Field)
  | [] => .ok (opcode, [])
  | (slot, operand) :: rest =>
    match fillSlot pc opcode slot operand with
    | .error p => .error p
    | .ok (op, fields) =>
      (fillSlots pc op rest).map fun r => (r.1, fields ++ r.2)

/-- The one form whose fields stand in the opposite order of its operands: a move between two direct
addresses, which keeps the source before the destination. -/
def swappedOpcode : UInt8 := 0x85

/-- Fills the slots of a form. The result has the length of the form. -/
def fill (f : Form) (operands : List Operand) (pc : UInt16) : Except Stop Encoding :=
  match fillSlots pc f.opcode (f.slots.zip operands) with
  | .error p => .error (.ofProblem p)
  | .ok (opcode, fields) =>
    let encoding := ⟨opcode, if f.opcode = swappedOpcode then fields.reverse else fields⟩
    if encoding.length = f.length then .ok encoding else .error (.fault .encodingLength)

/-! ### From a line -/

/-- The form admits the operands, one for each slot. -/
def Form.admits (f : Form) (operands : List Operand) : Bool :=
  f.slots.length == operands.length && (f.slots.zip operands).all fun p => p.2.fits p.1

/-- The shapes of operands, with commas between them. -/
def shapesText (operands : List Operand) : Text :=
  List.intercalate [','] (operands.map Operand.text)

/-- Classifies every token, up to the first that has no meaning. -/
def classifyAll : List Text → Except Problem (List Operand)
  | [] => .ok []
  | t :: rest =>
    match classify t with
    | .error p => .error p
    | .ok o => (classifyAll rest).map (o :: ·)

/-- Fills the first form that admits the operands. -/
def fillFirst (fs : List Form) (operands : List Operand) (pc : UInt16) (otherwise : Problem) :
    Except Stop Encoding :=
  match fs.find? fun f => f.admits operands with
  | none => .error (.ofProblem otherwise)
  | some f => fill f operands pc

/-- Encodes an instruction given as its tokens. -/
def assembleTokens (tokens : List Text) (pc : UInt16) : Except Stop Encoding :=
  match tokens with
  | [] => .error (.ofProblem .emptyInstruction)
  | word :: args =>
    match Mnemonic.ofText? word with
    | none => .error (.ofProblem (.unknownMnemonic word))
    | some m =>
      if tokens.length > arity m then
        .error (.ofProblem (.tooManyOperands m.name (arity m - 1) args.length))
      else if tokens.length < arity m then
        .error (.ofProblem (.tooFewOperands m.name (arity m - 1) args.length))
      else
        match classifyAll args with
        | .error p => .error (.ofProblem p)
        | .ok operands =>
          fillFirst (forms m) operands pc (.noEncoding m.name (shapesText operands))

/-- Encodes the instruction on a line, at address `pc`. -/
def assemble (line : Text) (pc : UInt16) : Except Stop Encoding :=
  match oneByte? line with
  | some f => .ok ⟨f.opcode, []⟩
  | none => assembleTokens (tokenize line) pc

end Mcs51.Instruction
