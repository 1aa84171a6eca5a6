import Mcs51.Text.Numeral

/-! # TOML dates

Days and times, each given as the token that spells it. `date?` checks a token and gives its plain
form: `T` between day and time, `Z` for universal time, and of a fraction of a second nine digits at
most, without zeros at the end. -/

namespace Mcs51.Toml

/-- Days of a month. -/
def daysIn (year month : Nat) : Nat :=
  if month = 2 then
    if year % 4 = 0 ∧ (year % 100 ≠ 0 ∨ year % 400 = 0) then 29 else 28
  else if month = 4 ∨ month = 6 ∨ month = 9 ∨ month = 11 then 30
  else 31

/-- The text is a day, written year, month, day. -/
def isDay (t : Text) : Bool :=
  match t with
  | [y1, y2, y3, y4, '-', m1, m2, '-', d1, d2] =>
    let year := [y1, y2, y3, y4]
    let month := Text.value 10 [m1, m2]
    let day := Text.value 10 [d1, d2]
    (year ++ [m1, m2, d1, d2]).all Char.isDigit && 1 ≤ month && month ≤ 12 && 1 ≤ day &&
      day ≤ daysIn (Text.value 10 year) month
  | _ => false

/-- Two digits spell a number up to a limit. -/
def upTo (limit : Nat) (a b : Char) : Bool :=
  a.isDigit && b.isDigit && Text.value 10 [a, b] ≤ limit

/-- The digits that a fraction of a second keeps. -/
def secondDigits : Nat := 9

/-- A fraction of a second in plain form. There is none if only zeros are kept. -/
def plainFraction (digits : Text) : Text :=
  match ((digits.take secondDigits).reverse.dropWhile (· == '0')).reverse with
  | [] => []
  | kept => '.' :: kept

/-- Reads a time of the day. A minute may have a second more than usual. -/
def time? (t : Text) : Option (Text × Text) :=
  match t with
  | h1 :: h2 :: ':' :: m1 :: m2 :: ':' :: s1 :: s2 :: rest =>
    if upTo 23 h1 h2 && upTo 59 m1 m2 && upTo 60 s1 s2 then
      let clock := [h1, h2, ':', m1, m2, ':', s1, s2]
      match rest with
      | '.' :: more =>
        let digits := more.takeWhile Char.isDigit
        if digits.isEmpty then none
        else some (clock ++ plainFraction digits, more.dropWhile Char.isDigit)
      | _ => some (clock, rest)
    else none
  | _ => none

/-- The offset from universal time that a text spells, in plain form. There may be none, and one of
nothing counts as forward. -/
def offset? (t : Text) : Option Text :=
  match t with
  | [] => some []
  | ['Z'] | ['z'] => some ['Z']
  | [s, h1, h2, ':', m1, m2] =>
    if (s == '+' || s == '-') && upTo 23 h1 h2 && upTo 59 m1 m2 then
      some ((if Text.value 10 [h1, h2, m1, m2] = 0 then '+' else s) :: [h1, h2, ':', m1, m2])
    else none
  | _ => none

/-- The length of a day in its written form. -/
def dayLength : Nat := 10

/-- The character may stand between a day and a time. -/
def joinsTime (c : Char) : Bool := c == 'T' || c == 't' || c == ' '

/-- Reads the time after a day, in plain form. -/
def timeOfDay? (t : Text) : Option Text :=
  match t with
  | [] => some []
  | c :: rest =>
    if joinsTime c then
      match time? rest with
      | some (time, rest) => (offset? rest).map fun o => 'T' :: time ++ o
      | none => none
    else none

/-- The day, the time or the day with a time that a token spells, in plain form. -/
def date? (t : Text) : Option Text :=
  if isDay (t.take dayLength) then
    (timeOfDay? (t.drop dayLength)).map fun time => t.take dayLength ++ time
  else
    match time? t with
    | some (time, []) => some time
    | _ => none

end Mcs51.Toml
