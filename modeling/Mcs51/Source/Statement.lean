import Mcs51.Source.Marker

/-! # Statements

What a line of assembly source says, once markers and directives are out of the way: an optional
label, then a new origin, an instruction, or nothing. -/

namespace Mcs51.Source

/-- What a line asks for after its label. -/
inductive Action where
  | nothing
  /-- The location counter moves to the address that the text spells. -/
  | origin (arg : Text)
  /-- An instruction, collapsed to a mnemonic and its operands. -/
  | instruction (code : Text)
deriving DecidableEq, Repr

/-- A line of source. -/
structure Statement where
  label : Option Text
  action : Action
deriving DecidableEq, Repr

namespace Statement

/-- The word that moves the location counter. -/
def originWord : Text := ".org".toList

/-- The action that a code without label asks for. -/
def actionOf (code : Text) : Action :=
  if code.isEmpty then .nothing
  else if originWord.leads code.collapse then
    .origin (Text.trim (code.collapse.drop originWord.length))
  else .instruction code.collapse

/-- Reads a trimmed code: what stands before its first colon is a label. -/
def ofCode (code : Text) : Statement :=
  match Text.find? [':'] code with
  | some n => ⟨some (Text.trim (code.take n)), actionOf (Text.trim (code.drop (n + 1)))⟩
  | none => ⟨none, actionOf code⟩

/-- Reads a line. A line that starts like a marker is no statement. -/
def ofLine? (line : Text) : Option Statement :=
  let code := line.code.trim
  if code.head? = some markerSign then none else some (ofCode code)

end Statement

end Mcs51.Source
