import Mcs51.Text.Basic

/-! # UTF-8

Bytes as text and back. A malformed part of a byte sequence is a maximal run of bytes that starts
like a character and cannot be continued to one, or a single byte that starts none. `decode` yields
one `none` for each such part, so `decodeLossy` puts one replacement character in its place and
`decode?` refuses the sequence. -/

namespace Mcs51.Text

/-- A character that has begun: the value of the bytes so far and the ranges of those still owed. -/
structure Pending where
  value : Nat
  owed : List (Nat × Nat)
deriving DecidableEq, Repr

/-- Range of a byte that continues a character. -/
def tailRange : Nat × Nat := (0x80, 0xBF)

/-- What the first byte of a character announces. The range of the second byte excludes overlong
forms, surrogates and values past the last code point. -/
def Pending.start? (b : Nat) : Option Pending :=
  if b ≤ 0x7F then some ⟨b, []⟩
  else if 0xC2 ≤ b ∧ b ≤ 0xDF then some ⟨b - 0xC0, [tailRange]⟩
  else if b = 0xE0 then some ⟨0, [(0xA0, 0xBF), tailRange]⟩
  else if b = 0xED then some ⟨0xD, [(0x80, 0x9F), tailRange]⟩
  else if 0xE1 ≤ b ∧ b ≤ 0xEF then some ⟨b - 0xE0, [tailRange, tailRange]⟩
  else if b = 0xF0 then some ⟨0, [(0x90, 0xBF), tailRange, tailRange]⟩
  else if 0xF1 ≤ b ∧ b ≤ 0xF3 then some ⟨b - 0xF0, [tailRange, tailRange, tailRange]⟩
  else if b = 0xF4 then some ⟨4, [(0x80, 0x8F), tailRange, tailRange]⟩
  else none

/-- Where decoding stands: the parts found, latest first, and a character that has begun. -/
structure Decoding where
  parts : List (Option Char)
  pending : Option Pending

namespace Decoding

/-- Takes what a byte made of a character: a whole one, or one that is still to finish. -/
def accept (d : Decoding) (p : Pending) : Decoding :=
  match p.owed with
  | [] => ⟨some (Char.ofNat p.value) :: d.parts, none⟩
  | _ => ⟨d.parts, some p⟩

/-- Takes a byte between characters. -/
def startWith (d : Decoding) (b : Nat) : Decoding :=
  match Pending.start? b with
  | some p => d.accept p
  | none => ⟨none :: d.parts, none⟩

/-- The unfinished character, if any, is malformed. -/
def abandon (d : Decoding) : Decoding :=
  match d.pending with
  | some _ => ⟨none :: d.parts, none⟩
  | none => d

/-- Takes one byte. A byte that cannot continue the character ends it and is looked at afresh. -/
def step (d : Decoding) (b : UInt8) : Decoding :=
  match d.pending with
  | some ⟨v, (lo, hi) :: owed⟩ =>
    if lo ≤ b.toNat ∧ b.toNat ≤ hi then d.accept ⟨v * 64 + (b.toNat - 0x80), owed⟩
    else d.abandon.startWith b.toNat
  | _ => d.abandon.startWith b.toNat

end Decoding

/-- The characters of a byte sequence, with `none` for each malformed part. -/
def decode (bytes : List UInt8) : List (Option Char) :=
  (bytes.foldl Decoding.step ⟨[], none⟩).abandon.parts.reverse

/-- The text of a byte sequence, with a replacement character for each malformed part. -/
def decodeLossy (bytes : List UInt8) : Text :=
  (decode bytes).map fun c => c.getD (Char.ofNat 0xFFFD)

/-- The text of a byte sequence without malformed parts. -/
def decode? (bytes : List UInt8) : Option Text :=
  (decode bytes).mapM id

/-- The UTF-8 form of a text. -/
def encode (t : Text) : List UInt8 := t.flatMap String.utf8EncodeChar

end Mcs51.Text
