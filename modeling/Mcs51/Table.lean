import Mcs51.Text.Basic

/-! # Tables

Keys with values, in the order in which the keys came. A key that is set again keeps its place and
takes the new value (`set`); `List.lookup` reads. -/

namespace Mcs51

/-- Keys with values, in the order of the first setting of each key. -/
abbrev Table (κ α : Type) := List (κ × α)

namespace Table

variable {κ α : Type} [DecidableEq κ]

/-- Gives a key a value. -/
def set : Table κ α → κ → α → Table κ α
  | [], key, v => [(key, v)]
  | (k, w) :: rest, key, v => if k = key then (k, v) :: rest else (k, w) :: set rest key v

/-- Sets keys one after the other. -/
def setAll (t : Table κ α) (pairs : List (κ × α)) : Table κ α :=
  pairs.foldl (fun acc p => set acc p.1 p.2) t

theorem lookup_set (t : Table κ α) (key : κ) (v : α) (k : κ) :
    (set t key v).lookup k = if k = key then some v else t.lookup k := by
  fun_induction set t key v <;> grind

theorem keys_set (t : Table κ α) (key : κ) (v : α) :
    (set t key v).map Prod.fst =
      if key ∈ t.map Prod.fst then t.map Prod.fst else t.map Prod.fst ++ [key] := by
  fun_induction set t key v <;> grind

end Table

end Mcs51
