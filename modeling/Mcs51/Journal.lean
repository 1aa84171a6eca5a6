import Mcs51.Text.Basic

/-! # The journal

A run tells what it does in notes. A `Note` has a `Level`, the `Stage` of the run that wrote it and
a text; `Note.heard` says which notes a reader of a given level sees, and `Note.shown` what a log
shows of the text: characters that a terminal would obey are spelled out there. -/

namespace Mcs51

/-- How much a note matters, the most urgent first. -/
inductive Level where
  | error
  | warn
  | info
  | debug
  | trace
deriving DecidableEq, Repr

namespace Level

/-- The levels by number, one for the most urgent. -/
def rank : Level → Nat
  | error => 1
  | warn => 2
  | info => 3
  | debug => 4
  | trace => 5

/-- The name of a level. -/
def name : Level → Text
  | error => "ERROR".toList
  | warn => "WARN".toList
  | info => "INFO".toList
  | debug => "DEBUG".toList
  | trace => "TRACE".toList

/-- Every level, the most urgent first. -/
def all : List Level := [error, warn, info, debug, trace]

theorem mem_all (l : Level) : l ∈ all := by cases l <;> decide

end Level

/-- The part of the assembler that writes a note. -/
inductive Stage where
  | program
  | preprocessing
  | firstPass
  | secondPass
  | hexOutput
deriving DecidableEq, Repr

/-- The name under which a stage writes. -/
def Stage.target : Stage → Text
  | program => "asm51".toList
  | preprocessing => "asm51::preprocess".toList
  | firstPass => "asm51::asm".toList
  | secondPass => "asm51::reloc".toList
  | hexOutput => "asm51::hex".toList

/-- One remark of a run. -/
structure Note where
  level : Level
  stage : Stage
  text : Text
deriving DecidableEq, Repr

/-- A reader who asked for the given level sees the note. -/
def Note.heard (n : Note) (l : Level) : Bool := n.level.rank ≤ l.rank

/-! ### Control characters -/

/-- The code points below 128 that a terminal obeys: bell, backspace, form feed, escape, delete. -/
def terminalCodes : List Nat := [0x07, 0x08, 0x0C, 0x1B, 0x7F]

/-- A number below 256 as two lower-case hexadecimal digits. -/
def lowerHex (n : Nat) : Text := [Nat.digitChar (n / 16), Nat.digitChar (n % 16)]

/-- A character as a log shows it. The code points from 128 to 159 are control characters too. -/
def shownChar (c : Char) : Text :=
  if terminalCodes.contains c.toNat then "\\x".toList ++ lowerHex c.toNat
  else if 0x80 ≤ c.toNat ∧ c.toNat ≤ 0x9F then
    "\\u\x7b".toList ++ lowerHex c.toNat ++ ['\x7d']
  else [c]

/-- The text of a note as a log shows it. -/
def Note.shown (n : Note) : Text := n.text.flatMap shownChar

end Mcs51
