import Mcs51.Table

/-! # Settings

What a run can be told beside its source. -/

namespace Mcs51

/-- How to assemble. -/
structure Settings where
  /-- Searched first for an included file, before the working directory. -/
  systemDirectory : Text := "/usr/include/asm51".toList
  /-- Searched after the working directory, in order. -/
  directories : List Text := []
  /-- Rounds of preprocessing before giving up. -/
  maxRounds : Nat := 16
  /-- The first value of the location counter. -/
  origin : UInt16 := 0
  /-- Names that stand for a text before the first line. -/
  defines : Table Text Text := []
deriving DecidableEq, Repr

end Mcs51
