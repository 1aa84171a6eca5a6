import Mcs51.Proofs.Instruction.Listing

/-! # The length of what is filled

Filling a form compares the length of the encoding with that of the form, and a difference would be
a fault of the assembler. It never comes to that: an operand that a slot admits adds as many bytes
as the slot is wide (`width_of_fillSlot`), so the fields of an encoding are as wide as the slots of
its form. All that can go wrong with a line is a problem of the line (`exists_problem_of_assemble`).
-/

namespace Mcs51.Instruction

theorem fieldsWidth_append (fs gs : List Field) :
    fieldsWidth (fs ++ gs) = fieldsWidth fs + fieldsWidth gs := by
  induction fs with
  | nil => simp [fieldsWidth]
  | cons f fs ih => rw [List.cons_append, fieldsWidth_cons, fieldsWidth_cons, ih, Nat.add_assoc]

theorem fieldsWidth_reverse (fields : List Field) :
    fieldsWidth fields.reverse = fieldsWidth fields := by
  induction fields with
  | nil => rfl
  | cons f fields ih =>
    rw [List.reverse_cons, fieldsWidth_append, ih]
    exact Nat.add_comm _ _

theorem fieldsWidth_wordFields (v : Value) : fieldsWidth (wordFields v) = 2 := by
  cases v <;> rfl

/-- **An operand adds as many bytes as its slot is wide.** -/
theorem width_of_fillSlot {pc : UInt16} {op op' : UInt8} {slot : Slot} {operand : Operand}
    {fields : List Field} (hfit : operand.fits slot = true)
    (h : fillSlot pc op slot operand = .ok (op', fields)) : fieldsWidth fields = slot.width := by
  have hone {v : Value} (h : (byteOf v).map (fun b => (op, [Field.byte b])) = .ok (op', fields)) :
      fieldsWidth fields = 1 := by
    obtain ⟨-, b, -, rfl⟩ := map_byteOf_ok h
    rfl
  cases operand with
  | immediate v =>
    cases slot with
    | immediate => exact hone h
    | immediateWord =>
      cases h
      exact fieldsWidth_wordFields v
    | _ => cases hfit
  | complement v =>
    cases slot with
    | complement => exact hone h
    | _ => cases hfit
  | address v =>
    cases slot with
    | direct | bit => exact hone h
    | absolute =>
      cases h
      exact fieldsWidth_wordFields v
    | relative =>
      cases v with
      | const n => exact hone h
      | label name =>
        cases h
        rfl
    | page =>
      cases v with
      | const target =>
        cases hfold : foldPage op (pc + 2) target with
        | error p => simp [fillSlot, hfold, Except.map] at h
        | ok op₁ =>
          simp only [fillSlot, hfold, Except.map] at h
          cases h
          rfl
      | label name =>
        cases h
        rfl
    | _ => cases hfit
  | _ =>
    -- a fixed operand fits only slots that live in the opcode
    cases slot <;> first | (cases h; rfl) | cases hfit

theorem width_of_fillSlots {pc : UInt16} : ∀ {ps : List (Slot × Operand)} {op op' : UInt8}
    {fields : List Field}, (∀ p ∈ ps, p.2.fits p.1 = true) →
      fillSlots pc op ps = .ok (op', fields) → fieldsWidth fields = slotsWidth (ps.map Prod.fst)
  | [], _, _, _, _, h => by
    cases h
    rfl
  | (slot, operand) :: ps, _, _, _, hfit, h => by
    obtain ⟨op₁, fields₁, fields₂, hslot, hrest, rfl⟩ := fillSlots_cons_ok h
    rw [fieldsWidth_append, width_of_fillSlot (hfit _ List.mem_cons_self) hslot,
      width_of_fillSlots (fun p hp => hfit p (List.mem_cons_of_mem _ hp)) hrest]
    rfl

/-- Filling a form with operands that it admits can go wrong for a problem of the source only. -/
theorem exists_problem_of_fill {f : Form} (hassigned : f.isAssigned = true)
    {operands : List Operand} (hadmits : f.admits operands = true) {pc : UInt16} {s : Stop}
    (h : fill f operands pc = .error s) : ∃ p, s = .ofProblem p := by
  unfold fill at h
  split at h
  · next p hp => exact ⟨p, (Except.error.inj h).symm⟩
  · next op fields hslots =>
    obtain ⟨hlen, hfit⟩ := Form.admits_iff.mp hadmits
    have hwidth : fieldsWidth fields = slotsWidth f.slots := by
      rw [width_of_fillSlots hfit hslots, List.map_fst_zip (Nat.le_of_eq hlen)]
    have hlength : (Encoding.mk op
        (if f.opcode = swappedOpcode then fields.reverse else fields)).length = f.length := by
      rw [Encoding.length_eq, length_form hassigned, ← hwidth]
      split_ifs
      · rw [fieldsWidth_reverse]
      · rfl
    rw [if_pos hlength] at h
    cases h

theorem exists_problem_of_assembleTokens {tokens : List Text} {pc : UInt16} {s : Stop}
    (h : assembleTokens tokens pc = .error s) : ∃ p, s = .ofProblem p := by
  unfold assembleTokens at h
  split at h
  · exact ⟨_, (Except.error.inj h).symm⟩
  · split at h
    · exact ⟨_, (Except.error.inj h).symm⟩
    · next m hm =>
      split_ifs at h
      · exact ⟨_, (Except.error.inj h).symm⟩
      · exact ⟨_, (Except.error.inj h).symm⟩
      · split at h
        · exact ⟨_, (Except.error.inj h).symm⟩
        · next operands hclass =>
          unfold fillFirst at h
          split at h
          · exact ⟨_, (Except.error.inj h).symm⟩
          · next f hfind =>
            obtain ⟨-, hassigned, -⟩ := mem_forms (List.mem_of_find?_eq_some hfind)
            exact exists_problem_of_fill hassigned (by simpa using List.find?_some hfind) h

/-- **A line that has no encoding has a problem.** The assembler commits no fault on it. -/
theorem exists_problem_of_assemble {line : Text} {pc : UInt16} {s : Stop}
    (h : assemble line pc = .error s) : ∃ p, s = .ofProblem p := by
  rw [assemble_eq_assembleTokens] at h
  exact exists_problem_of_assembleTokens h

end Mcs51.Instruction
