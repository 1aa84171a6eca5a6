import Mathlib.Tactic.SplitIfs
import Mcs51.Source.Region

/-! # Directives and the regions around them

A directive looks only at the innermost region. Reading a file inside other regions therefore goes
as reading it on its own: in an active place the regions of the file are the same
(`directive_append`), and in one that is not active they have the same shape, but none of them is
active (`directive_dormant`).

Whether a file is balanced is a matter of its directives alone (`Balanced`). -/

namespace Mcs51.Source.Regions

/-- The code of a line whose first field is a directive. -/
def isCondition (code : Text) : Bool :=
  match code.fields with
  | [] => false
  | word :: _ => (Condition.ofWord? word).isSome

/-- Whether a line applies a directive is a matter of its code. -/
theorem directive_eq_none {rs : Regions} {defined : List Text} {code : Text} :
    rs.directive defined code = .ok none ↔ isCondition code = false := by
  unfold directive isCondition
  generalize code.fields = fs
  cases fs with
  | nil => simp
  | cons word args =>
    simp only
    split
    · next hw => simp [hw]
    · next hw => split <;> simp [hw]
    · next hw =>
      split
      · simp [hw]
      · split_ifs <;> simp [hw]
    · next hw => split <;> simp [hw]

/-- **What a directive does**: it opens a region, or turns or closes the innermost one. -/
theorem directive_cases {rs rs' : Regions} {defined : List Text} {code : Text}
    (h : rs.directive defined code = .ok (some rs')) :
    ∃ word args, code.fields = word :: args ∧
      ((∃ ifDefined name rest, Condition.ofWord? word = some (.opens ifDefined) ∧
          args = name :: rest ∧ rs' = rs.enter defined ifDefined name) ∨
        (∃ r outer, Condition.ofWord? word = some .turns ∧ rs = r :: outer ∧ r.inElse = false ∧
          rs' = { r with inElse := true } :: outer) ∨
        ∃ r, Condition.ofWord? word = some .closes ∧ rs = r :: rs') := by
  unfold directive at h
  split at h
  · simp at h
  · next word args hf =>
    refine ⟨word, args, hf, ?_⟩
    split at h
    · simp at h
    · next ifDefined hw =>
      split at h
      · simp at h
      · next name rest =>
        cases h
        exact Or.inl ⟨ifDefined, name, rest, hw, rfl, rfl⟩
    · next hw =>
      split at h
      · simp at h
      · next r outer =>
        split_ifs at h with hr
        cases h
        exact Or.inr (Or.inl ⟨r, outer, hw, rfl, by simpa using hr, rfl⟩)
    · next hw =>
      split at h
      · simp at h
      · next r outer =>
        cases h
        exact Or.inr (Or.inr ⟨r, hw, rfl⟩)

/-! ### Active places -/

theorem active_append (rs : Regions) {base : Regions} (h : base.active = true) :
    active (rs ++ base) = rs.active := by
  cases rs with
  | nil => exact h
  | cons r rs => rfl

/-- In an active place a directive does what it does on its own. -/
theorem directive_append {rs rs' base : Regions} {defined : List Text} {code : Text}
    (hbase : base.active = true) (h : rs.directive defined code = .ok (some rs')) :
    directive (rs ++ base) defined code = .ok (some (rs' ++ base)) := by
  obtain ⟨word, args, hf, hcase⟩ := directive_cases h
  unfold directive
  rcases hcase with ⟨ifDefined, name, rest, hw, rfl, rfl⟩ | ⟨r, outer, hw, rfl, hr, rfl⟩ |
    ⟨r, hw, rfl⟩
  · simp only [hf, hw, enter, active_append rs hbase, List.cons_append]
  · simp [hf, hw, hr]
  · simp [hf, hw]

/-! ### Places that are not active -/

/-- The regions of a file that stands in a place that is not active, beside those that it would open
on its own: the same but for what is active. -/
structure Dormant (rs own : Regions) : Prop where
  shape : rs.map Region.inElse = own.map Region.inElse
  outer : ∀ r ∈ rs, r.outer = false

theorem Dormant.nil : Dormant [] [] := ⟨rfl, by simp⟩

theorem Dormant.active {rs own base : Regions} (h : Dormant rs own) (hbase : base.active = false) :
    active (rs ++ base) = false := by
  cases rs with
  | nil => exact hbase
  | cons r rs =>
    have hr : r.outer = false := h.outer r (by simp)
    simp [Regions.active, Region.active, hr]

/-- In a place that is not active a directive changes the regions as it does on its own, and none
becomes active. -/
theorem directive_dormant {rs own own' base : Regions} {names : List Text} {code : Text}
    (h : Dormant rs own) (hbase : base.active = false)
    (hown : own.directive names code = .ok (some own')) (defined : List Text) :
    ∃ rs', Dormant rs' own' ∧ directive (rs ++ base) defined code = .ok (some (rs' ++ base)) := by
  obtain ⟨word, args, hf, hcase⟩ := directive_cases hown
  unfold directive
  rcases hcase with ⟨ifDefined, name, rest, hw, rfl, rfl⟩ | ⟨r, outer, hw, rfl, hr, rfl⟩ |
    ⟨r, hw, rfl⟩
  · refine ⟨⟨false, defined.contains name.upper == ifDefined, false⟩ :: rs, ⟨?_, ?_⟩, ?_⟩
    · simp [enter, h.shape]
    · simpa using h.outer
    · simp [hf, hw, enter, h.active hbase]
  · obtain ⟨q, rs, rfl⟩ : ∃ q qs, rs = q :: qs := by
      cases rs with
      | nil => simpa using h.shape
      | cons q qs => exact ⟨q, qs, rfl⟩
    have hshape := h.shape
    rw [List.map_cons, List.map_cons, List.cons.injEq, hr] at hshape
    refine ⟨{ q with inElse := true } :: rs, ⟨?_, ?_⟩, ?_⟩
    · simp [hshape.2]
    · simpa using h.outer
    · simp [hf, hw, hshape.1]
  · obtain ⟨q, rs, rfl⟩ : ∃ q qs, rs = q :: qs := by
      cases rs with
      | nil => simpa using h.shape
      | cons q qs => exact ⟨q, qs, rfl⟩
    have hshape := h.shape
    rw [List.map_cons, List.map_cons, List.cons.injEq] at hshape
    exact ⟨rs, ⟨hshape.2, fun x hx => h.outer x (by simp [hx])⟩, by simp [hf, hw]⟩

/-! ### Balance -/

/-- The regions after the directives on lines, where no name is defined. -/
def through (rs : Regions) : List Text → Option Regions
  | [] => some rs
  | line :: lines =>
    match rs.directive [] line.code with
    | .error _ => none
    | .ok none => rs.through lines
    | .ok (some rs') => through rs' lines

/-- Every region that the lines open is closed by them, and no directive is out of place. -/
def Balanced (lines : List Text) : Prop := through [] lines = some []

instance (lines : List Text) : Decidable (Balanced lines) := by
  unfold Balanced
  infer_instance

end Mcs51.Source.Regions
