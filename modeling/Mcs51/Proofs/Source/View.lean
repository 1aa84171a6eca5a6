import Mathlib.Tactic.SplitIfs
import Mcs51.Proofs.Source.Position
import Mcs51.Source.Preprocessor

/-! # How a pass sees its lines

Whether a line counts depends on the regions that are open and on the names that are defined, and on
nothing else that a pass knows. `View.step` follows these two over a line and tells what the line
says (`Use`); `survey` does so for a stream. Both passes of a round see their lines in this way
(`Reader.Sees`), and so does anyone else who reads the same lines in order. -/

namespace Mcs51.Source

/-- What decides whether a line is active: the open regions and the names defined, in upper case. -/
structure View where
  regions : Regions
  defined : List Text
deriving DecidableEq, Repr

/-- What a line says where it stands. -/
inductive Use where
  /-- A marker, a condition or a line that is not active. -/
  | idle
  | defines (r : Replacement)
  /-- A definition without a name. -/
  | misdefines
  | includes (name? : Option Text)
  | plain
deriving DecidableEq, Repr

namespace Use

/-- What the code of an active line says. -/
def ofCode (code : Text) : Use :=
  if code.mentions defineWord then
    match definition code with
    | .ok r => .defines r
    | .error _ => .misdefines
  else if code.mentions includeWord then .includes (includedName? code)
  else .plain

/-- The name of the file to include, for a line that includes one. -/
def included? : Use → Option (Option Text)
  | .includes name? => some name?
  | _ => none

theorem includes_of_ofCode {code : Text} {name? : Option Text} (h : ofCode code = .includes name?) :
    includedName? code = name? := by
  unfold ofCode at h
  split_ifs at h
  · split at h <;> simp at h
  · exact Use.includes.inj h

end Use

namespace View

/-- The view after an active line. -/
def after (v : View) : Use → View
  | .defines r => { v with defined := r.name.upper :: v.defined }
  | _ => v

/-- The part that a line plays. -/
def role (v : View) (line : Text) : Option (View × Role) :=
  if (Marker.ofLine? line).isSome then some (v, .marker)
  else
    match v.regions.directive v.defined line.code with
    | .error _ => none
    | .ok (some regions) => some ({ v with regions := regions }, .inactive)
    | .ok none => some (v, if v.regions.active then .active else .inactive)

/-- Takes a line and tells what it says. There is no view after a directive that is out of place. -/
def step (v : View) (line : Text) : Option (View × Use) :=
  (v.role line).map fun
    | (v, .active) => (v.after (.ofCode line.code), .ofCode line.code)
    | (v, _) => (v, .idle)

theorem role_of_marker {v : View} {line : Text} {m : Marker} (h : Marker.ofLine? line = some m) :
    v.role line = some (v, .marker) := by
  simp [role, h]

theorem role_of_unmarked {v : View} {line : Text} (h : Marker.ofLine? line = none) :
    v.role line =
      match v.regions.directive v.defined line.code with
      | .error _ => none
      | .ok (some regions) => some ({ v with regions := regions }, .inactive)
      | .ok none => some (v, if v.regions.active then .active else .inactive) := by
  unfold role
  rw [h]
  rfl

theorem step_of_marker {v : View} {line : Text} {m : Marker} (h : Marker.ofLine? line = some m) :
    v.step line = some (v, .idle) := by
  simp [step, role_of_marker h]

/-- **The cases of a line.** It is a marker, or it applies a directive to the regions, or it applies
none and is read or not as the regions say. -/
theorem step_cases {v w : View} {line : Text} {use : Use} (h : v.step line = some (w, use)) :
    ((∃ m, Marker.ofLine? line = some m) ∧ w = v ∧ use = .idle) ∨
    (Marker.ofLine? line = none ∧ use = .idle ∧ w.defined = v.defined ∧
      v.regions.directive v.defined line.code = .ok (some w.regions)) ∨
    (Marker.ofLine? line = none ∧ v.regions.directive v.defined line.code = .ok none ∧
      ((v.regions.active = true ∧ use = .ofCode line.code ∧ w = v.after use) ∨
        (v.regions.active = false ∧ use = .idle ∧ w = v))) := by
  cases hm : Marker.ofLine? line with
  | some m =>
    rw [step_of_marker hm] at h
    simp only [Option.some.injEq, Prod.mk.injEq] at h
    exact Or.inl ⟨⟨m, rfl⟩, h.1.symm, h.2.symm⟩
  | none =>
    obtain ⟨⟨u, role⟩, hrole, hw⟩ := Option.map_eq_some_iff.mp h
    rw [role_of_unmarked hm] at hrole
    split at hrole
    · simp at hrole
    · next regions hd =>
      cases hrole
      cases hw
      exact Or.inr (Or.inl ⟨rfl, rfl, rfl, hd⟩)
    · next hd =>
      cases hactive : v.regions.active with
      | true =>
        rw [hactive] at hrole
        cases hrole
        cases hw
        exact Or.inr (Or.inr ⟨rfl, hd, Or.inl ⟨rfl, rfl, rfl⟩⟩)
      | false =>
        rw [hactive] at hrole
        cases hrole
        cases hw
        exact Or.inr (Or.inr ⟨rfl, hd, Or.inr ⟨rfl, rfl, rfl⟩⟩)

/-- A line that includes a file is active, and no marker or directive. -/
theorem includes_of_step {v w : View} {line : Text} {use : Use} {name? : Option Text}
    (h : v.step line = some (w, use)) (hinc : use.included? = some name?) :
    Marker.ofLine? line = none ∧ v.regions.directive v.defined line.code = .ok none ∧
      v.regions.active = true ∧ Use.ofCode line.code = use ∧ w = v := by
  rcases step_cases h with ⟨-, -, rfl⟩ | ⟨-, rfl, -⟩ | ⟨hm, hd, ⟨ha, huse, rfl⟩ | ⟨-, rfl, -⟩⟩
  · simp [Use.included?] at hinc
  · simp [Use.included?] at hinc
  · refine ⟨hm, hd, ha, huse.symm, ?_⟩
    cases use with
    | includes => rfl
    | _ => simp [Use.included?] at hinc
  · simp [Use.included?] at hinc

end View

/-! ### Streams -/

/-- What each line of a stream says, and the view after the last. -/
def survey : View → List Text → Option (List (Text × Use) × View)
  | v, [] => some ([], v)
  | v, line :: lines =>
    match v.step line with
    | none => none
    | some (v, use) => (survey v lines).map fun r => ((line, use) :: r.1, r.2)

theorem survey_cons {v w : View} {line : Text} {lines : List Text} {seen : List (Text × Use)} :
    survey v (line :: lines) = some (seen, w) ↔
      ∃ u use rest, v.step line = some (u, use) ∧ survey u lines = some (rest, w) ∧
        seen = (line, use) :: rest := by
  rw [survey]
  split
  · next h => simp [h]
  · next u use h =>
    simp only [h, Option.map_eq_some_iff, Option.some.injEq, Prod.mk.injEq]
    constructor
    · rintro ⟨⟨rest, x⟩, hx, rfl, rfl⟩
      exact ⟨u, use, rest, ⟨rfl, rfl⟩, hx, rfl⟩
    · rintro ⟨u', use', rest, ⟨rfl, rfl⟩, hrest, rfl⟩
      exact ⟨(rest, w), hrest, rfl, rfl⟩

theorem survey_append {v w : View} {b : List Text} : ∀ {a : List Text} {seen : List (Text × Use)},
    survey v (a ++ b) = some (seen, w) ↔
      ∃ u front back, survey v a = some (front, u) ∧ survey u b = some (back, w) ∧
        seen = front ++ back := by
  intro a
  induction a generalizing v with
  | nil =>
    intro seen
    constructor
    · intro h
      exact ⟨v, [], seen, rfl, h, rfl⟩
    · rintro ⟨u, front, back, hfront, hback, rfl⟩
      cases hfront
      exact hback
  | cons line a ih =>
    intro seen
    rw [List.cons_append, survey_cons]
    constructor
    · rintro ⟨u, use, rest, hu, hrest, rfl⟩
      obtain ⟨x, front, back, hfront, hback, rfl⟩ := ih.mp hrest
      exact ⟨x, (line, use) :: front, back, survey_cons.mpr ⟨u, use, front, hu, hfront, rfl⟩,
        hback, rfl⟩
    · rintro ⟨x, front, back, hfront, hback, rfl⟩
      obtain ⟨u, use, rest, hu, hrest, rfl⟩ := survey_cons.mp hfront
      exact ⟨u, use, rest ++ back, hu, ih.mpr ⟨x, rest, back, hrest, hback, rfl⟩, rfl⟩

/-- A survey goes over every line. -/
theorem fst_of_survey : ∀ {lines : List Text} {v w : View} {seen : List (Text × Use)},
    survey v lines = some (seen, w) → seen.map Prod.fst = lines
  | [], v, w, seen, h => by
    cases h
    rfl
  | line :: lines, v, w, seen, h => by
    obtain ⟨u, use, rest, -, hrest, rfl⟩ := survey_cons.mp h
    rw [List.map_cons, fst_of_survey hrest]

/-- The names of the files that the lines include where they stand. -/
def pending (seen : List (Text × Use)) : List (Option Text) := seen.filterMap fun l => l.2.included?

theorem pending_cons (line : Text) (use : Use) (seen : List (Text × Use)) :
    pending ((line, use) :: seen) = use.included?.toList ++ pending seen := by
  unfold pending
  rw [List.filterMap_cons]
  cases use.included? <;> rfl

theorem pending_append (a b : List (Text × Use)) : pending (a ++ b) = pending a ++ pending b :=
  List.filterMap_append

/-- A line that includes a file says so in its code. -/
theorem ofCode_of_survey {line : Text} {name? : Option Text} : ∀ {lines : List Text} {v w : View}
    {seen : List (Text × Use)}, survey v lines = some (seen, w) →
      (line, Use.includes name?) ∈ seen → Use.ofCode line.code = .includes name?
  | [], v, w, seen, h, hmem => by
    cases h
    simp at hmem
  | l :: lines, v, w, seen, h, hmem => by
    obtain ⟨u, use, rest, hstep, hrest, rfl⟩ := survey_cons.mp h
    rcases List.mem_cons.mp hmem with heq | hmem
    · cases heq
      exact (View.includes_of_step hstep rfl).2.2.2.1
    · exact ofCode_of_survey hrest hmem

theorem mem_pending {seen : List (Text × Use)} {name? : Option Text} (h : name? ∈ pending seen) :
    ∃ line, (line, Use.includes name?) ∈ seen := by
  obtain ⟨⟨line, use⟩, hmem, hinc⟩ := List.mem_filterMap.mp h
  refine ⟨line, ?_⟩
  cases use with
  | includes n =>
    obtain rfl : n = name? := Option.some.inj hinc
    exact hmem
  | _ => simp [Use.included?] at hinc

/-! ### Readers -/

namespace Reader

/-- The view of a reader. -/
def view (r : Reader) : View := ⟨r.regions, r.defined⟩

/-- A reader that takes a line, and what the line says to it. -/
structure Sees (r : Reader) (line : Text) (use : Use) (s : Reader) : Prop where
  stack : ∃ b, r.stack.step line = (s.stack, .ok b)
  view : r.view.step line = some (s.view, use)

theorem role_of_step {r s : Reader} {line : Text} {role : Role} (h : r.step line = (s, .ok role)) :
    (∃ b, r.stack.step line = (s.stack, .ok b)) ∧ r.view.role line = some (s.view, role) := by
  unfold step at h
  split at h
  · simp at h
  · next stack hs =>
    obtain ⟨m, hm⟩ := FileStack.marked_of_step hs
    cases h
    exact ⟨⟨true, hs⟩, View.role_of_marker hm⟩
  · next stack hs =>
    have hm := FileStack.unmarked_of_step hs
    have hrole := View.role_of_unmarked (v := r.view) hm
    cases hd : r.regions.directive r.defined line.code with
    | error e =>
      simp only [hd] at h
      simp at h
    | ok regions? =>
      cases regions? with
      | some regions =>
        simp only [hd] at h
        cases h
        exact ⟨⟨false, hs⟩, by rw [hrole, view, hd]; rfl⟩
      | none =>
        simp only [hd] at h
        cases h
        exact ⟨⟨false, hs⟩, by rw [hrole, view, hd]; rfl⟩

theorem exists_step {r : Reader} {line : Text} {v : View} {role : Role}
    (hstack : ∃ b, (r.stack.step line).2 = .ok b) (hview : r.view.role line = some (v, role)) :
    ∃ s, r.step line = (s, .ok role) := by
  obtain ⟨b, hb⟩ := hstack
  have hstep : r.stack.step line = ((r.stack.step line).1, .ok b) := by rw [← hb]
  unfold step
  cases b with
  | true =>
    obtain ⟨m, hm⟩ := FileStack.marked_of_step hstep
    rw [View.role_of_marker hm] at hview
    cases hview
    rw [hstep]
    exact ⟨_, rfl⟩
  | false =>
    have hm := FileStack.unmarked_of_step hstep
    rw [View.role_of_unmarked hm, view] at hview
    rw [hstep]
    simp only
    cases hd : r.regions.directive r.defined line.code with
    | error e =>
      rw [hd] at hview
      simp at hview
    | ok regions? =>
      rw [hd] at hview
      cases regions? <;> cases hview <;> exact ⟨_, rfl⟩

end Reader

end Mcs51.Source
