import Mcs51.Object.Entry
import Mcs51.Table

/-! # Linking

The second pass: entries become bytes once every label has an address. `linkFrom` walks the entries
in order over what it has written so far. A byte is written as it is, a label in the way its mode
says: a label in a page also changes the opcode written just before it, and a label of two bytes
takes up the second cell after it. The first entry that cannot be written ends the walk. -/

namespace Mcs51.Object

open Instruction

/-- How far linking has come, both lists latest first. -/
structure Linking where
  /-- The bytes written. -/
  written : Image
  /-- The entries looked at. -/
  seen : List Entry
deriving DecidableEq, Repr

namespace Linking

/-- Notes that an entry is looked at. -/
def look (l : Linking) (e : Entry) : Linking := { l with seen := e :: l.seen }

/-- Writes a byte. -/
def write (l : Linking) (addr : UInt16) (b : UInt8) : Linking :=
  { l with written := (addr, b) :: l.written }

/-- Writes a label in a page: its low byte here, its page bits into the opcode before. -/
def writePaged (l : Linking) (addr target : UInt16) (name : Text) : Except Problem Linking :=
  match l.written with
  | (before, opcode) :: rest =>
    if before + 1 = addr then
      (foldPage opcode (addr + 1) target).map fun op =>
        { l with written := (addr, lowByte target) :: (before, op) :: rest }
    else .error (.nothingToPatch name)
  | [] => .error (.nothingToPatch name)

end Linking

/-- Writes the entries, on top of what was written before them. -/
def linkFrom (symbols : Table Text UInt16) : Linking → List Entry → Linking × Option Error
  | l, [] => (l, none)
  | l, e :: rest =>
    let l := l.look e
    match e.cell with
    | .byte b => linkFrom symbols (l.write e.addr b) rest
    | .second => (l, some ⟨.straySecond e.addr, none⟩)
    | .label name pos mode =>
      match symbols.lookup name with
      | none => (l, some ⟨.undefinedLabel name, some pos⟩)
      | some target =>
        match mode with
        | .relative =>
          match displacement (e.addr + 1) target with
          | .ok d => linkFrom symbols (l.write e.addr d) rest
          | .error p => (l, some ⟨p, some pos⟩)
        | .page =>
          match l.writePaged e.addr target name with
          | .ok l => linkFrom symbols l rest
          | .error p => (l, some ⟨p, some pos⟩)
        | .absolute =>
          match rest with
          | ⟨low, .second⟩ :: rest =>
            linkFrom symbols ((l.write e.addr (highByte target)).write low (lowByte target)) rest
          | _ => (l, some ⟨.missingSecond name, some pos⟩)

/-- The bytes of a list of entries. -/
def link (symbols : Table Text UInt16) (entries : List Entry) : Except Error Image :=
  match linkFrom symbols ⟨[], []⟩ entries with
  | (l, none) => .ok l.written.reverse
  | (_, some e) => .error e

/-- The entries that linking looks at, up to the one it fails on. A second cell that its label takes
up is not among them. -/
def visited (symbols : Table Text UInt16) (entries : List Entry) : List Entry :=
  (linkFrom symbols ⟨[], []⟩ entries).1.seen.reverse

end Mcs51.Object
