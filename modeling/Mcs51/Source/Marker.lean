import Mcs51.Text.Basic

/-! # Markers

A line that starts with `»` brackets the text of an included file. The name of the file and the tag
are the first two fields after the sign, and anything further is ignored. -/

namespace Mcs51.Source

/-- The sign that leads every marker. -/
def markerSign : Char := '»'

/-- A bracket around the lines of a file. -/
inductive Marker where
  /-- The lines of the file follow. -/
  | enter (name : Text)
  /-- The lines of the file are over. -/
  | leave (name : Text)
deriving DecidableEq, Repr

namespace Marker

/-- The tag of a marker before a file. -/
def enterTag : Text := ":start".toList

/-- The tag of a marker after a file. -/
def leaveTag : Text := ":end".toList

/-- The marker on a line, if it holds one. -/
def ofLine? (line : Text) : Option Marker :=
  match line with
  | [] => none
  | c :: rest =>
    if c = markerSign then
      match Text.fields rest with
      | name :: tag :: _ =>
        if tag = enterTag then some (.enter name)
        else if tag = leaveTag then some (.leave name)
        else none
      | _ => none
    else none

/-- The line that holds a marker. -/
def line : Marker → Text
  | .enter name => markerSign :: ' ' :: name ++ ' ' :: enterTag
  | .leave name => markerSign :: ' ' :: name ++ ' ' :: leaveTag

/-- The name of the file. -/
def name : Marker → Text
  | .enter name => name
  | .leave name => name

theorem isBlank_enterTag : ∀ c ∈ enterTag, Text.isBlank c = false := by
  have h : (enterTag.all fun c => !Text.isBlank c) = true := by decide
  simpa using h

theorem isBlank_leaveTag : ∀ c ∈ leaveTag, Text.isBlank c = false := by
  have h : (leaveTag.all fun c => !Text.isBlank c) = true := by decide
  simpa using h

theorem fields_name_tag {name tag : Text} (hn : name ≠ []) (ht : tag ≠ [])
    (hnb : ∀ c ∈ name, Text.isBlank c = false) (htb : ∀ c ∈ tag, Text.isBlank c = false) :
    Text.fields (' ' :: (name ++ ' ' :: tag)) = [name, tag] := by
  have hblank : Text.isBlank ' ' = true := by decide
  have hwhole := Text.splitWords_append hblank name tag
  rw [Text.splitWords_of_forall hnb hn, Text.splitWords_of_forall htb ht] at hwhole
  exact (Text.splitWords_append hblank [] (name ++ ' ' :: tag)).trans hwhole

/-- A marker is read back from its line, if its name is one field. -/
theorem ofLine?_line {m : Marker} (hn : m.name ≠ []) (hb : ∀ c ∈ m.name, Text.isBlank c = false) :
    ofLine? m.line = some m := by
  cases m with
  | enter name =>
    have h : Text.fields (' ' :: (name ++ ' ' :: enterTag)) = [name, enterTag] :=
      fields_name_tag hn (by decide) hb isBlank_enterTag
    simp [ofLine?, line, h]
  | leave name =>
    have h : Text.fields (' ' :: (name ++ ' ' :: leaveTag)) = [name, leaveTag] :=
      fields_name_tag hn (by decide) hb isBlank_leaveTag
    have hne : leaveTag ≠ enterTag := by decide
    simp [ofLine?, line, h, hne]

end Marker

end Mcs51.Source
