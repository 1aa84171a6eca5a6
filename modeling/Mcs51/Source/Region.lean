import Mcs51.Problem

/-! # Regions

Lines that are there only on a condition. A region is opened by `#ifdef` or `#ifndef`, may have one
`#else`, and is closed by `#endif`; regions nest. `Region.directive` applies the directive on a
line, if it holds one as its first field. -/

namespace Mcs51.Source

/-- A region that is open. -/
structure Region where
  /-- The lines around the region are active. -/
  outer : Bool
  /-- The condition of the region holds. -/
  holds : Bool
  /-- The lines after the `#else` are read. -/
  inElse : Bool
deriving DecidableEq, Repr

/-- The lines read now are active. -/
def Region.active (r : Region) : Bool := r.outer && (r.holds != r.inElse)

/-- The open regions, innermost first. -/
abbrev Regions := List Region

/-- What a directive does to the regions. -/
inductive Condition where
  /-- Opens a region for a name that is defined, or for one that is not. -/
  | opens (ifDefined : Bool)
  | turns
  | closes
deriving DecidableEq, Repr

/-- The directive that a word is, letter case aside. -/
def Condition.ofWord? (word : Text) : Option Condition :=
  if word.sameWord "#ifdef".toList then some (.opens true)
  else if word.sameWord "#ifndef".toList then some (.opens false)
  else if word.sameWord "#else".toList then some .turns
  else if word.sameWord "#endif".toList then some .closes
  else none

namespace Regions

/-- The lines read now are active. -/
def active (rs : Regions) : Bool :=
  match rs with
  | [] => true
  | r :: _ => r.active

/-- Opens a region for a name. Names are compared in upper case. -/
def enter (rs : Regions) (defined : List Text) (ifDefined : Bool) (name : Text) : Regions :=
  ⟨rs.active, defined.contains name.upper == ifDefined, false⟩ :: rs

/-- Applies the directive on a line. There is none if the first field of the code is not one. -/
def directive (rs : Regions) (defined : List Text) (code : Text) :
    Except Problem (Option Regions) :=
  match code.fields with
  | [] => .ok none
  | word :: args =>
    match Condition.ofWord? word with
    | none => .ok none
    | some (.opens ifDefined) =>
      match args with
      | [] => .error (.conditionWithoutName word)
      | name :: _ => .ok (some (rs.enter defined ifDefined name))
    | some .turns =>
      match rs with
      | [] => .error .elseWithoutIf
      | r :: outer =>
        if r.inElse then .error .duplicateElse else .ok (some ({ r with inElse := true } :: outer))
    | some .closes =>
      match rs with
      | [] => .error .endifWithoutIf
      | _ :: outer => .ok (some outer)

end Regions

end Mcs51.Source
