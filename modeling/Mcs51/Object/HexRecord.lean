import Mcs51.Object.Entry

/-! # Hex records

The Intel HEX form of an image. Bytes at consecutive addresses share a record of at most sixteen
bytes, and a record of its own kind closes the file. The bytes of a record, its count, address and
kind included, sum to zero with its checksum. -/

namespace Mcs51.Object

/-- A line of a hex file. -/
structure HexRecord where
  addr : UInt16
  kind : UInt8
  data : List UInt8
deriving DecidableEq, Repr

namespace HexRecord

/-- The kind of a record that holds bytes of the image. -/
def dataKind : UInt8 := 0

/-- The kind of the record that closes a file. -/
def endKind : UInt8 := 1

/-- The most bytes that one record holds. -/
def maxData : Nat := 16

/-- The record that closes a file. -/
def closing : HexRecord := ⟨0, endKind, []⟩

/-- The byte that brings the sum of a record to zero. Of a longer count only the low byte counts. -/
def checksum (r : HexRecord) : UInt8 :=
  0 - r.data.foldl (· + ·)
    (UInt8.ofNat r.data.length + Instruction.highByte r.addr + Instruction.lowByte r.addr + r.kind)

/-- A record as a line. -/
def text (r : HexRecord) : Text :=
  ':' :: Text.hex 2 r.data.length ++ Text.hexWord r.addr ++ Text.hexByte r.kind
    ++ r.data.flatMap Text.hexByte ++ Text.hexByte r.checksum

/-- The address after the last byte. -/
def next (r : HexRecord) : Nat := r.addr.toNat + r.data.length

/-- Adds a byte to records that are given latest first. It joins the latest one if it follows on it
and there is room, and opens a new one otherwise. -/
def add (records : List HexRecord) (p : UInt16 × UInt8) : List HexRecord :=
  match records with
  | r :: rest =>
    if p.1.toNat = r.next ∧ r.data.length < maxData then { r with data := r.data ++ [p.2] } :: rest
    else ⟨p.1, dataKind, [p.2]⟩ :: r :: rest
  | [] => [⟨p.1, dataKind, [p.2]⟩]

end HexRecord

/-- The records of an image. -/
def hexRecords (image : Image) : List HexRecord :=
  (image.foldl HexRecord.add []).reverse ++ [HexRecord.closing]

/-- The hex file of an image. -/
def hexText (image : Image) : Text := (hexRecords image).flatMap fun r => r.text ++ ['\n']

/-- The bytes of an image that do not stand after the byte written before them, each with the
address of that one. -/
def overlaps (image : Image) : List (UInt16 × UInt16) :=
  ((image.zip image.tail).filter fun p => p.2.1 ≤ p.1.1).map fun p => (p.2.1, p.1.1)

end Mcs51.Object
