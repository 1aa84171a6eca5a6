import Mcs51.Text.Basic

/-! # Numerals

Numbers as text and back. Addresses and bytes are written in upper-case hexadecimal with a least
width (`hex`), counts in decimal. `read` is a bounded numeral reader that tells an empty text from a
wrong digit from a value that is too large; `readHex?` is the literal of the assembly language. -/

namespace Mcs51.Text

/-! ### Writing -/

/-- A number in decimal. -/
def decimal (n : Nat) : Text := Nat.toDigits 10 n

/-- A number in upper-case hexadecimal, without leading zeros. -/
def hexDigits (n : Nat) : Text := (Nat.toDigits 16 n).map Char.toUpper

/-- A number in upper-case hexadecimal with at least `width` digits. -/
def hex (width n : Nat) : Text :=
  List.replicate (width - (hexDigits n).length) '0' ++ hexDigits n

/-- The wording of a refused range. -/
def OutOfRange.message (r : OutOfRange) : Text :=
  "substring at ".toList ++ decimal r.start ++ " of length ".toList ++ decimal r.len
    ++ " exceeds ".toList ++ decimal r.available ++ " bytes".toList

/-- A byte as two hexadecimal digits. -/
def hexByte (b : UInt8) : Text := hex 2 b.toNat

/-- An address as four hexadecimal digits. -/
def hexWord (w : UInt16) : Text := hex 4 w.toNat

/-! ### Reading -/

/-- The value of a digit of any base up to sixteen, letters in either case. -/
def digitValue? (c : Char) : Option Nat :=
  if '0' ≤ c ∧ c ≤ '9' then some (c.toNat - '0'.toNat)
  else if 'a' ≤ c ∧ c ≤ 'f' then some (c.toNat - 'a'.toNat + 10)
  else if 'A' ≤ c ∧ c ≤ 'F' then some (c.toNat - 'A'.toNat + 10)
  else none

/-- The value of a digit of the given base. -/
def digitIn? (base : Nat) (c : Char) : Option Nat :=
  (digitValue? c).filter (· < base)

/-- Why a text is not a numeral. -/
inductive NumeralError where
  | empty
  | invalidDigit
  | tooLarge
deriving DecidableEq, Repr

/-- The wording of a refused numeral. -/
def NumeralError.message : NumeralError → Text
  | .empty => "cannot parse integer from empty string".toList
  | .invalidDigit => "invalid digit found in string".toList
  | .tooLarge => "number too large to fit in target type".toList

/-- Reads digits on top of the value `acc`, which has to stay below `limit`. A wrong digit is
noticed before the overflow it would cause. -/
def readDigits (base limit : Nat) : Nat → Text → Except NumeralError Nat
  | acc, [] => .ok acc
  | acc, c :: rest =>
    match digitIn? base c with
    | none => .error .invalidDigit
    | some d =>
      if acc * base + d < limit then readDigits base limit (acc * base + d) rest
      else .error .tooLarge

/-- Reads a numeral below `limit`, with an optional plus sign before at least one digit. -/
def read (base limit : Nat) (t : Text) : Except NumeralError Nat :=
  match t with
  | [] => .error .empty
  | ['+'] => .error .invalidDigit
  | '+' :: digits => readDigits base limit 0 digits
  | digits => readDigits base limit 0 digits

/-! ### Hexadecimal literals -/

/-- The value of a digit string in the given base; a character that is no digit counts as zero. -/
def value (base : Nat) (digits : Text) : Nat :=
  digits.foldl (fun acc c => acc * base + (digitValue? c).getD 0) 0

/-- The digits of a hexadecimal literal: what follows a mark `0x`, or what stands before a mark `h`,
or the whole. -/
def literalDigits (t : Text) : Text :=
  match t with
  | '0' :: 'x' :: digits => digits
  | '0' :: 'X' :: digits => digits
  | _ =>
    match t.getLast? with
    | some 'h' => t.dropLast
    | some 'H' => t.dropLast
    | _ => t

/-- The number a hexadecimal literal stands for, if it is one and fits sixteen bits. -/
def readHex? (t : Text) : Option UInt16 :=
  let digits := literalDigits t
  if digits.isEmpty || !digits.all (fun c => (digitValue? c).isSome) then none
  else if value 16 digits < 65536 then some (UInt16.ofNat (value 16 digits))
  else none

end Mcs51.Text
