import Mathlib.Data.List.Nodup
import Mcs51.Proofs.Instruction.Form

/-! # The choice of a form

An assembler takes the first form of a mnemonic that admits the operands. Here it is shown that
there is nothing to choose: operands have a shape, a form admits only operands of its own shapes
(`Operand.fits_text`), and no two forms that an assembler chooses from have the same shapes
(`nodup_forms`). The number of tokens is right for every form (`arity_forms`), and a line that is
the pattern of an instruction of one byte has no other reading (`assemble_eq_assembleTokens`). So
whatever form of its mnemonic admits the operands of a line is the one that is filled
(`assemble_of_form`).

A form of the catalog is one that an assembler chooses from, jumps within a page aside: these have a
form for each page and the first stands for all (`mem_forms_self`, `forms_page`). -/

namespace Mcs51.Instruction

/-! ### Shapes -/

/-- An operand is shown as the slots are that admit it. -/
theorem Operand.fits_text {o : Operand} {s : Slot} (h : o.fits s = true) : s.text = o.text := by
  cases o with
  | register n =>
    cases s with
    | register m => rw [show n = m by simpa [fits] using h]; rfl
    | _ => cases h
  | indirect n =>
    cases s with
    | indirect m => rw [show n = m by simpa [fits] using h]; rfl
    | _ => cases h
  | _ => cases s <;> first | (cases h; done) | rfl

theorem text_of_fits : ∀ {slots : List Slot} {operands : List Operand},
    slots.length = operands.length → (∀ p ∈ slots.zip operands, p.2.fits p.1 = true) →
      slots.map Slot.text = operands.map Operand.text
  | [], [], _, _ => rfl
  | [], _ :: _, hlen, _ => by simp at hlen
  | _ :: _, [], hlen, _ => by simp at hlen
  | s :: slots, o :: operands, hlen, h => by
    have hrest : slots.map Slot.text = operands.map Operand.text :=
      text_of_fits (by simpa using hlen) fun p hp => h p (by simp [hp])
    rw [List.map_cons, List.map_cons, hrest, Operand.fits_text (h (s, o) (by simp))]

/-- The shapes of the operands that a form admits. -/
def Form.shapes (f : Form) : List Text := f.slots.map Slot.text

theorem Form.shapes_of_admits {f : Form} {operands : List Operand} (h : f.admits operands = true) :
    f.shapes = operands.map Operand.text := by
  simp only [admits, Bool.and_eq_true, beq_iff_eq, List.all_eq_true] at h
  exact text_of_fits h.1 h.2

/-! ### The forms to choose from -/

/-- What the forms of each mnemonic are like: no two admit the same operands, all have the same
number of operands, and they are all that the catalog has, jumps within a page aside. -/
theorem forms_facts : ∀ m ∈ Mnemonic.all, ((forms m).map Form.shapes).Nodup ∧
    (∀ f ∈ forms m, arity m = 1 + f.slots.length) ∧
    (m ≠ .ajmp → m ≠ .acall →
      forms m = catalog.filter fun f => f.isAssigned && f.mnemonic == m) := by
  decide +kernel

theorem nodup_forms {m : Mnemonic} (hm : m ∈ Mnemonic.all) :
    ((forms m).map Form.shapes).Nodup :=
  (forms_facts m hm).1

theorem arity_forms {m : Mnemonic} (hm : m ∈ Mnemonic.all) {f : Form} (hf : f ∈ forms m) :
    arity m = 1 + f.slots.length :=
  (forms_facts m hm).2.1 f hf

set_option maxRecDepth 4000 in
theorem slots_of_pageMnemonic {f : Form} (hf : f ∈ catalog)
    (hm : f.mnemonic = .ajmp ∨ f.mnemonic = .acall) : f.slots = [.page] := by
  have hall : (catalog.all fun f =>
      (f.mnemonic != .ajmp && f.mnemonic != .acall) || f.slots == [.page]) = true := by
    decide
  have := List.all_eq_true.mp hall f hf
  rcases hm with hm | hm <;> simpa [hm] using this

/-- A form of the catalog may be chosen, unless it is a jump within a page. -/
theorem mem_forms_self {f : Form} (hf : f ∈ catalog) (ha : f.isAssigned = true)
    (hp : f.slots ≠ [.page]) : f ∈ forms f.mnemonic := by
  have hm : f.mnemonic ∈ Mnemonic.all := Mnemonic.mem_all (by simpa [Form.isAssigned] using ha)
  rw [(forms_facts f.mnemonic hm).2.2 (fun h => hp (slots_of_pageMnemonic hf (Or.inl h)))
    (fun h => hp (slots_of_pageMnemonic hf (Or.inr h))), List.mem_filter]
  simp [hf, ha]

set_option maxRecDepth 4000 in
/-- Of the jumps of a mnemonic within a page, the first stands for all. -/
theorem forms_page {f : Form} (hf : f ∈ catalog) (hp : f.slots = [.page]) :
    ∃ g ∈ forms f.mnemonic, g.slots = [.page] ∧ g.opcode.toNat % 32 = f.opcode.toNat % 32 := by
  have hajmp : forms .ajmp = [pageForm 0] := by decide
  have hacall : forms .acall = [pageForm 1] := by decide
  obtain ⟨i, hi, rfl⟩ := mem_catalog_page.mp ⟨hf, hp⟩
  have hop : (pageForm i).opcode.toNat % 32 = i % 2 * 16 + 1 := by
    show (UInt8.ofNat (i * 16 + 1)).toNat % 32 = _
    rw [UInt8.toNat_ofNat']
    omega
  rw [hop]
  by_cases heven : i % 2 = 0
  · have hm : (pageForm i).mnemonic = .ajmp := if_pos heven
    rw [hm, hajmp, heven]
    exact ⟨pageForm 0, by simp, rfl, rfl⟩
  · have hm : (pageForm i).mnemonic = .acall := if_neg heven
    rw [hm, hacall, show i % 2 = 1 by omega]
    exact ⟨pageForm 1, by simp, rfl, rfl⟩

theorem eq_of_admits {m : Mnemonic} (hm : m ∈ Mnemonic.all) {f g : Form} (hf : f ∈ forms m)
    (hg : g ∈ forms m) {operands : List Operand} (hfa : f.admits operands = true)
    (hga : g.admits operands = true) : f = g :=
  List.inj_on_of_nodup_map (nodup_forms hm) hf hg
    ((Form.shapes_of_admits hfa).trans (Form.shapes_of_admits hga).symm)

/-- A form that admits the operands is the first one that does. -/
theorem find?_of_admits {m : Mnemonic} (hm : m ∈ Mnemonic.all) {f : Form} (hf : f ∈ forms m)
    {operands : List Operand} (ha : f.admits operands = true) :
    ((forms m).find? fun g => g.admits operands) = some f := by
  cases hfind : (forms m).find? fun g => g.admits operands with
  | none => exact absurd ha (List.find?_eq_none.mp hfind f hf)
  | some g =>
    have hga : g.admits operands = true := by simpa using List.find?_some hfind
    rw [eq_of_admits hm hf (List.mem_of_find?_eq_some hfind) ha hga]

/-! ### Mnemonics -/

theorem Mnemonic.ofText?_congr {a b : Text} (h : a.upper = b.upper) : ofText? a = ofText? b := by
  unfold ofText? Text.sameWord
  rw [h]

theorem Mnemonic.ofText?_name {m : Mnemonic} (h : m ≠ reserved) : ofText? m.name = some m := by
  cases m <;> first | contradiction | decide

theorem Mnemonic.mem_all_of_ofText? {word : Text} {m : Mnemonic} (h : ofText? word = some m) :
    m ∈ all :=
  List.mem_of_find?_eq_some h

/-- A word spells one mnemonic only. -/
theorem Mnemonic.ofText?_of_sameWord {m : Mnemonic} (hm : m ≠ reserved) {word : Text}
    (h : m.name.sameWord word = true) : ofText? word = some m := by
  rw [← ofText?_congr (Text.sameWord_iff.mp h), ofText?_name hm]

theorem Form.ne_reserved {f : Form} (h : f.isAssigned = true) : f.mnemonic ≠ .reserved := by
  simpa [isAssigned] using h

/-! ### The count of tokens -/

theorem length_of_classifyAll : ∀ {args : List Text} {operands : List Operand},
    classifyAll args = .ok operands → args.length = operands.length
  | [], _, h => by cases h; rfl
  | t :: args, _, h => by
    simp only [classifyAll] at h
    split at h
    · simp at h
    · cases hrest : classifyAll args with
      | error p => rw [hrest] at h; cases h
      | ok os =>
        rw [hrest] at h
        cases h
        rw [List.length_cons, List.length_cons, length_of_classifyAll hrest]

/-- The count of tokens is right for every form that admits the operands. -/
theorem length_of_admits {word : Text} {args : List Text} {operands : List Operand} {m : Mnemonic}
    {f : Form} (hm : m ∈ Mnemonic.all) (hclass : classifyAll args = .ok operands)
    (hf : f ∈ forms m) (ha : f.admits operands = true) : (word :: args).length = arity m := by
  have hslots : f.slots.length = operands.length := by
    simp only [Form.admits, Bool.and_eq_true, beq_iff_eq] at ha
    exact ha.1
  rw [List.length_cons, arity_forms hm hf, hslots, length_of_classifyAll hclass, Nat.add_comm]

theorem assembleTokens_of_form {word : Text} {args : List Text} {operands : List Operand}
    {m : Mnemonic} {f : Form} (hword : Mnemonic.ofText? word = some m)
    (hclass : classifyAll args = .ok operands) (hf : f ∈ forms m) (ha : f.admits operands = true)
    (pc : UInt16) : assembleTokens (word :: args) pc = fill f operands pc := by
  have hm := Mnemonic.mem_all_of_ofText? hword
  have harity : (word :: args).length = arity m := length_of_admits hm hclass hf ha
  simp only [assembleTokens, hword, hclass]
  rw [if_neg (by omega), if_neg (by omega), fillFirst, find?_of_admits hm hf ha]

/-! ### Instructions of one byte among the others -/

/-- A line that is the pattern of an instruction of one byte reads, token by token, as the same
instruction. -/
theorem exists_form_of_oneByte? {line : Text} {f : Form} (h : oneByte? line = some f)
    (pc : UInt16) : ∃ word args operands, tokenize line = word :: args ∧
      Mnemonic.ofText? word = some f.mnemonic ∧ classifyAll args = .ok operands ∧
      f ∈ forms f.mnemonic ∧ f.admits operands = true ∧
      fill f operands pc = .ok ⟨f.opcode, []⟩ := by
  obtain ⟨word, args, operands, htok, hclass, hf, ha, hword, hadmits, hfill⟩ :=
    oneByte?_eq_some h pc
  have hpage : f.slots ≠ [.page] := by
    intro hp
    have hwidth := width_slots_oneByte (List.mem_of_find?_eq_some h) .page (by simp [hp])
    simp [Slot.width] at hwidth
  exact ⟨word, args, operands, htok, Mnemonic.ofText?_of_sameWord (Form.ne_reserved ha) hword,
    hclass, mem_forms_self hf ha hpage, hadmits, hfill⟩

theorem assembleTokens_of_oneByte? {line : Text} {f : Form} (h : oneByte? line = some f)
    (pc : UInt16) : assembleTokens (tokenize line) pc = .ok ⟨f.opcode, []⟩ := by
  obtain ⟨word, args, operands, htok, hword, hclass, hf, ha, hfill⟩ := exists_form_of_oneByte? h pc
  rw [htok, assembleTokens_of_form hword hclass hf ha, hfill]

/-- The look-up of a whole line changes nothing. -/
theorem assemble_eq_assembleTokens (line : Text) (pc : UInt16) :
    assemble line pc = assembleTokens (tokenize line) pc := by
  unfold assemble
  cases h : oneByte? line with
  | none => rfl
  | some f => exact (assembleTokens_of_oneByte? h pc).symm

/-- **One byte or token by token.** A line that the patterns of one byte find is an instruction for
the tokens as well: they start with the mnemonic, they are as many as it takes, they all denote
operands, the form found by its pattern is the first that admits these, and filling it adds no
field. So the look-up by pattern can be left out: every line has the same encoding or the same error
without it. -/
theorem oneByte_agrees_with_tokens (line : Text) (pc : UInt16) :
    (∀ f, oneByte? line = some f → ∃ word args operands, tokenize line = word :: args ∧
      Mnemonic.ofText? word = some f.mnemonic ∧ (word :: args).length = arity f.mnemonic ∧
      classifyAll args = .ok operands ∧
      ((forms f.mnemonic).find? fun g => g.admits operands) = some f ∧
      fill f operands pc = .ok ⟨f.opcode, []⟩ ∧
      assembleTokens (tokenize line) pc = .ok ⟨f.opcode, []⟩) ∧
    assemble line pc = assembleTokens (tokenize line) pc := by
  refine ⟨fun f h => ?_, assemble_eq_assembleTokens line pc⟩
  obtain ⟨word, args, operands, htok, hword, hclass, hf, ha, hfill⟩ := exists_form_of_oneByte? h pc
  have hm := Mnemonic.mem_all_of_ofText? hword
  exact ⟨word, args, operands, htok, hword, length_of_admits hm hclass hf ha, hclass,
    find?_of_admits hm hf ha, hfill, assembleTokens_of_oneByte? h pc⟩

/-- Letters of either case, between a blank and a carriage return that are cut off. -/
theorem oneByte_agrees_with_tokens_move :
    let line := "\u3000mOv a,@R1\r".toList
    ∃ f, oneByte? line = some f ∧ f.opcode = 0xE7 ∧ f.mnemonic = .mov ∧
      assembleTokens (tokenize line) 0 = .ok ⟨0xE7, []⟩ ∧
      assemble line 0 = assembleTokens (tokenize line) 0 := by
  intro line
  have hline : oneByte? line = some ⟨0xE7, .mov, [.accumulator, .indirect 1]⟩ := by decide +kernel
  obtain ⟨hfast, hsame⟩ := oneByte_agrees_with_tokens line 0
  obtain ⟨-, -, -, -, -, -, -, -, -, htokens⟩ := hfast _ hline
  exact ⟨_, hline, rfl, rfl, htokens, hsame⟩

/-! ### From a line -/

/-- **The form of a line.** If a form of its mnemonic admits the operands of a line, then this form
is filled, whichever way the line is looked up. -/
theorem assemble_of_form {line word : Text} {args : List Text} {operands : List Operand}
    {m : Mnemonic} {f : Form} (htok : tokenize line = word :: args)
    (hword : Mnemonic.ofText? word = some m) (hclass : classifyAll args = .ok operands)
    (hf : f ∈ forms m) (ha : f.admits operands = true) (pc : UInt16) :
    assemble line pc = fill f operands pc := by
  rw [assemble_eq_assembleTokens, htok, assembleTokens_of_form hword hclass hf ha]

end Mcs51.Instruction
