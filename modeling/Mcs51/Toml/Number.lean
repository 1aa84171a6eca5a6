import Mcs51.Text.Numeral
import Mcs51.Toml.Value

/-! # TOML numbers

Numbers, each given as the token that spells it. A whole number fits 64 bits with a sign
(`integer?`). Of a number with a fraction or an exponent only the text is kept (`float?`), but it
has to round to a finite double (`overflows`), unless a minus stands before it. -/

namespace Mcs51.Toml

/-! ### Digits -/

/-- The digits of a group in which single underscores may stand between digits. -/
def digits? (isDigit : Char → Bool) (t : Text) : Option Text :=
  let groups := t.splitOn '_'
  if groups.all fun g => !g.isEmpty && g.all isDigit then some groups.flatten else none

/-- The digits of a whole number without needless zeros. -/
def wholeDigits? (t : Text) : Option Text :=
  match digits? Char.isDigit t with
  | some ('0' :: _ :: _) => none
  | r => r

/-- A text without the sign at its front, and whether that is a minus. -/
def splitSign (t : Text) : Bool × Text :=
  match t with
  | '+' :: rest => (false, rest)
  | '-' :: rest => (true, rest)
  | _ => (false, t)

/-! ### Whole numbers -/

/-- One past the largest number that a document may hold. -/
def integerBound : Nat := 9223372036854775808

/-- The number that digits of a base spell. -/
def based? (base : Nat) (t : Text) : Option Value :=
  match digits? (fun c => (Text.digitIn? base c).isSome) t with
  | none => none
  | some ds =>
    let n := Text.value base ds
    if n < integerBound then some (.integer n) else none

/-- The whole number that a token spells. -/
def integer? (token : Text) : Option Value :=
  match token with
  | '0' :: 'x' :: rest => based? 16 rest
  | '0' :: 'o' :: rest => based? 8 rest
  | '0' :: 'b' :: rest => based? 2 rest
  | _ =>
    let (negative, rest) := splitSign token
    match wholeDigits? rest with
    | none => none
    | some ds =>
      let n := Text.value 10 ds
      if negative then (if n ≤ integerBound then some (.integer (-(n : Int))) else none)
      else if n < integerBound then some (.integer n) else none

/-! ### Numbers with a fraction -/

/-- The least number that rounds past every finite double: halfway from the largest of them to the
next power of two. -/
def floatBound : Nat := Nat.pow 2 1024 - Nat.pow 2 970

/-- The number of digits of `floatBound`. -/
def floatPlaces : Nat := 309

/-- The number with these digits, times a power of ten, is at least `floatBound`. Only numbers with
as many places as the bound are compared with it; the others are smaller or larger by a whole
place. -/
def overflows (digits : Text) (exponent : Int) : Bool :=
  let significant := digits.dropWhile (· == '0')
  let places : Int := significant.length + exponent
  if significant.isEmpty || places < floatPlaces then false
  else if (floatPlaces : Int) < places then true
  else
    floatBound * Nat.pow 10 (-exponent).toNat ≤
      Text.value 10 significant * Nat.pow 10 exponent.toNat

/-- The digits after the point, if there is one. -/
def fractionDigits? (t : Text) : Option Text :=
  match t with
  | [] => some []
  | _ :: digits => digits? Char.isDigit digits

/-- The exponent after its letter, if there is one. -/
def exponent? (t : Text) : Option Int :=
  match t with
  | [] => some 0
  | _ :: rest =>
    let (negative, digits) := splitSign rest
    (digits? Char.isDigit digits).map fun ds =>
      if negative then -(Text.value 10 ds : Int) else Text.value 10 ds

/-- The character opens an exponent. -/
def isExponentMark (c : Char) : Bool := c == 'e' || c == 'E'

/-- The number with a fraction, an exponent or a special value that a token spells. -/
def float? (token : Text) : Option Value :=
  let (negative, rest) := splitSign token
  let mantissa := rest.takeWhile fun c => !isExponentMark c
  let scale := rest.dropWhile fun c => !isExponentMark c
  let fraction := mantissa.dropWhile (· != '.')
  if rest = "inf".toList || rest = "nan".toList then some (.float token)
  else if fraction.isEmpty && scale.isEmpty then none
  else
    match wholeDigits? (mantissa.takeWhile (· != '.')), fractionDigits? fraction,
      exponent? scale with
    | some whole, some part, some e =>
      if !negative && overflows (whole ++ part) (e - part.length) then none
      else some (.float token)
    | _, _, _ => none

end Mcs51.Toml
