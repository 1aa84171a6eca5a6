import Mcs51.Source.FileStack

/-! # Positions along a stream of lines

Where the file stack stands after some lines (`FileStack.after`), what the last of them was, and
whether the stack gets past all of them (`FileStack.Passes`). Lines that bring the stack back to the
file it was in count for a number of lines of that file (`FileStack.Counts`): a line for one, and a
file between its markers for none. -/

namespace Mcs51.Source.FileStack

/-- The stack after lines. -/
def after (s : FileStack) (lines : List Text) : FileStack :=
  lines.foldl (fun s line => (s.step line).1) s

theorem after_cons (s : FileStack) (line : Text) (lines : List Text) :
    s.after (line :: lines) = (s.step line).1.after lines :=
  rfl

theorem after_append (s : FileStack) (lines more : List Text) :
    s.after (lines ++ more) = (s.after lines).after more :=
  List.foldl_append

/-- Stepping over the lines never fails. -/
def Passes : FileStack → List Text → Prop
  | _, [] => True
  | s, line :: lines => (∃ b, (s.step line).2 = .ok b) ∧ Passes (s.step line).1 lines

theorem passes_append {more : List Text} : ∀ {lines : List Text} {s : FileStack},
    s.Passes (lines ++ more) ↔ s.Passes lines ∧ (s.after lines).Passes more
  | [], s => by simp [Passes, after]
  | line :: lines, s => by
    have ih : (s.step line).1.Passes (lines ++ more) ↔ _ := passes_append
    simp only [List.cons_append, Passes, ih, and_assoc]
    rfl

theorem step_of_unmarked {s : FileStack} {line : Text} (h : Marker.ofLine? line = none) :
    s.step line = (s.count, .ok false) := by
  unfold step
  simp only [h]

/-- Lines without markers only count. -/
theorem after_unmarked (frames : List Pos) (file : Text) : ∀ {lines : List Text} (n : Nat),
    (∀ line ∈ lines, Marker.ofLine? line = none) →
      after ⟨frames, ⟨file, n⟩⟩ lines = ⟨frames, ⟨file, n + lines.length⟩⟩
  | [], n, _ => rfl
  | line :: lines, n, h => by
    rw [after_cons, step_of_unmarked (h line (by simp))]
    show after ⟨frames, ⟨file, n + 1⟩⟩ lines = _
    rw [after_unmarked frames file (n + 1) fun l hl => h l (by simp [hl]), List.length_cons]
    congr 2
    omega

theorem step_enter {name : Text} (hn : name ≠ []) (hb : ∀ c ∈ name, Text.isBlank c = false)
    (frames : List Pos) (file : Text) (n : Nat) :
    step ⟨frames, ⟨file, n⟩⟩ (Marker.enter name).line =
      (⟨⟨file, n + 1⟩ :: frames, ⟨name, 0⟩⟩, .ok true) := by
  have h : Marker.ofLine? (Marker.enter name).line = some (.enter name) :=
    Marker.ofLine?_line hn hb
  simp [step, h, count, enter]

theorem step_leave {name : Text} (hn : name ≠ []) (hb : ∀ c ∈ name, Text.isBlank c = false)
    (frames : List Pos) (file : Text) (n : Nat) (pos : Pos) :
    step ⟨⟨file, n + 1⟩ :: frames, pos⟩ (Marker.leave name).line =
      (⟨frames, ⟨file, n⟩⟩, .ok true) := by
  have h : Marker.ofLine? (Marker.leave name).line = some (.leave name) :=
    Marker.ofLine?_line hn hb
  simp [step, h, count]

/-! ### Lines of one file -/

/-- The stack gets past the lines and comes out in the same file, so many lines further. -/
def Counts (k : Nat) (lines : List Text) : Prop :=
  ∀ (frames : List Pos) (file : Text) (n : Nat), Passes ⟨frames, ⟨file, n⟩⟩ lines ∧
    after ⟨frames, ⟨file, n⟩⟩ lines = ⟨frames, ⟨file, n + k⟩⟩

theorem counts_nil : Counts 0 [] := fun _ _ _ => ⟨trivial, rfl⟩

theorem Counts.append {j k : Nat} {lines more : List Text} (h : Counts j lines)
    (hmore : Counts k more) : Counts (j + k) (lines ++ more) := by
  intro frames file n
  obtain ⟨hpasses, hafter⟩ := h frames file n
  obtain ⟨hpasses', hafter'⟩ := hmore frames file (n + j)
  rw [passes_append, after_append, hafter, hafter', Nat.add_assoc]
  exact ⟨⟨hpasses, hpasses'⟩, rfl⟩

theorem counts_line {line : Text} (h : Marker.ofLine? line = none) : Counts 1 [line] := by
  intro frames file n
  have hstep : step ⟨frames, ⟨file, n⟩⟩ line = (⟨frames, ⟨file, n + 1⟩⟩, .ok false) :=
    step_of_unmarked h
  rw [Passes, after_cons, hstep]
  exact ⟨⟨⟨false, rfl⟩, trivial⟩, rfl⟩

/-- **A file between its markers** takes up no line of the file around it. -/
theorem Counts.bracket {k : Nat} {name : Text} {lines : List Text} (hn : name ≠ [])
    (hb : ∀ c ∈ name, Text.isBlank c = false) (h : Counts k lines) :
    Counts 0 ((Marker.enter name).line :: (lines ++ [(Marker.leave name).line])) := by
  intro frames file n
  have henter := step_enter hn hb frames file n
  have hleave := step_leave hn hb frames file n ⟨name, 0 + k⟩
  obtain ⟨hpasses, hafter⟩ := h (⟨file, n + 1⟩ :: frames) name 0
  simp only [Passes, after_cons, passes_append, after_append, henter, hafter, hleave]
  exact ⟨⟨⟨true, rfl⟩, hpasses, ⟨true, rfl⟩, trivial⟩, rfl⟩

/-! ### Steps -/

theorem unmarked_of_step {s t : FileStack} {line : Text} (h : s.step line = (t, .ok false)) :
    Marker.ofLine? line = none := by
  unfold step at h
  simp only at h
  split at h
  · next hm => exact hm
  · simp at h
  · split at h <;> simp at h

theorem marked_of_step {s t : FileStack} {line : Text} (h : s.step line = (t, .ok true)) :
    ∃ m, Marker.ofLine? line = some m := by
  cases hm : Marker.ofLine? line with
  | none => simp [step, hm] at h
  | some m => exact ⟨m, rfl⟩

end Mcs51.Source.FileStack
