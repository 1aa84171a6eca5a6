import Mathlib.Data.List.Forall2
import Mcs51.Proofs.Instruction.Choice
import Mcs51.Proofs.Instruction.Reading
import Mcs51.Proofs.Text.Numeral

/-! # Instructions as lines of source

An instruction in memory (`MachineCode`) has a line in a listing: its mnemonic, and its operands
with commas between them (`Renders`). A number is written as a zero and upper-case hexadecimal
digits, however many; a distance as the byte that it is kept as; a target within a page as the
address that it names; and the operands stand in the order of the source, which for one form is the
opposite of the order in memory.

Main statement: `assemble_rendered`, the line of an instruction is assembled to its bytes. Each
operand is classified as what it was made from (`Operand.Spelled.classify`), the form is filled with
the bytes it came from (`MachineCode.fill_operands`), and no other form is chosen. -/

namespace Mcs51.Instruction

theorem formOf_spec (op : UInt8) : formOf op ∈ catalog ∧ (formOf op).opcode = op := by
  have hlt : op.toNat < catalog.length := by
    rw [length_catalog]
    exact op.toNat_lt
  have hform : formOf op = catalog[op.toNat] := by
    rw [formOf, List.getD_eq_getElem?_getD, List.getElem?_eq_getElem hlt, Option.getD_some]
  refine ⟨hform ▸ List.getElem_mem hlt, ?_⟩
  rw [hform, (opcode_getElem opcode_catalog hlt).2]
  exact UInt8.ofNat_toNat

/-! ### Instructions in memory -/

/-- An instruction in memory: an opcode that stands for one, and as many bytes after it as its form
asks for. -/
structure MachineCode where
  opcode : UInt8
  args : List UInt8
  assigned : (formOf opcode).isAssigned = true
  complete : (formOf opcode).length = 1 + args.length

/-- The number that the bytes of a slot spell, the high byte first. -/
def numberOf : List UInt8 → UInt16
  | [b] => b.toUInt16
  | [high, low] => wordAddress high low
  | _ => 0

/-- The operand that the bytes of a slot stand for. The opcode counts for a jump within a page, and
so does the address of the next instruction. -/
def operandAt (next : UInt16) (op : UInt8) (slot : Slot) (bytes : List UInt8) : Operand :=
  match slot with
  | .accumulator => .accumulator
  | .carry => .carry
  | .pair => .pair
  | .dataPointer => .dataPointer
  | .register n => .register n
  | .indirect n => .indirect n
  | .atDataPointer => .atDataPointer
  | .atIndexedData => .atIndexedData
  | .atIndexedCode => .atIndexedCode
  | .immediate | .immediateWord => .immediate (.const (numberOf bytes))
  | .direct | .bit | .relative | .absolute => .address (.const (numberOf bytes))
  | .complement => .complement (.const (numberOf bytes))
  | .page => .address (.const (pageAddress next op (bytes.headD 0)))

/-- The operands of slots whose bytes stand one after the other. -/
def operandsFrom (next : UInt16) (op : UInt8) : List Slot → List UInt8 → List Operand
  | [], _ => []
  | s :: slots, bytes =>
    operandAt next op s (bytes.take s.width) :: operandsFrom next op slots (bytes.drop s.width)

namespace MachineCode

/-- The form of the opcode. -/
def form (c : MachineCode) : Form := formOf c.opcode

/-- The bytes of an instruction. -/
def bytes (c : MachineCode) : List UInt8 := c.opcode :: c.args

/-- The operands of an instruction at an address, in the order of the source. -/
def operands (c : MachineCode) (n : Nat) : List Operand :=
  let stored := operandsFrom (UInt16.ofNat (n + c.bytes.length)) c.opcode c.form.slots c.args
  if c.opcode = swappedOpcode then stored.reverse else stored

end MachineCode

/-! ### Lines -/

/-- The text spells the operand: a number as a zero and upper-case hexadecimal digits, with the sign
of its kind before it, and any other operand by its name. -/
def Operand.Spelled : Operand → Text → Prop
  | .immediate v, t => ∃ n u, v = .const n ∧ t = '#' :: u ∧ Text.IsLiteral n.toNat u
  | .complement v, t => ∃ n u, v = .const n ∧ t = '/' :: u ∧ Text.IsLiteral n.toNat u
  | .address v, t => ∃ n, v = .const n ∧ Text.IsLiteral n.toNat t
  | o, t => t = o.text

/-- Operands with commas between them. -/
def commas : List Text → Text
  | [] => []
  | t :: ts => t ++ ts.flatMap (',' :: ·)

/-- The line of a mnemonic and its operands. -/
def lineOf (word : Text) (tokens : List Text) : Text :=
  if tokens = [] then word else word ++ ' ' :: commas tokens

/-- The line is the instruction at the address. -/
def Renders (n : Nat) (c : MachineCode) (line : Text) : Prop :=
  ∃ tokens, List.Forall₂ Operand.Spelled (c.operands n) tokens ∧
    line = lineOf c.form.mnemonic.name tokens

/-! ### Tokens -/

/-- A character of a token in a listing: a sign, a digit or an upper-case letter, but none that ends
a token, a label or a code. -/
def isPrinted (c : Char) : Bool :=
  33 ≤ c.toNat && c.toNat ≤ 90 && c != ',' && c != ':' && c != ';'

/-- A word that a listing may hold. -/
def IsPrinted (t : Text) : Prop := t ≠ [] ∧ ∀ c ∈ t, isPrinted c = true

theorem isBlank_of_isPrinted {c : Char} (h : isPrinted c = true) : Text.isBlank c = false := by
  simp only [isPrinted, Bool.and_eq_true, decide_eq_true_eq] at h
  simp only [Text.isBlank, Text.blankRanges, List.any_cons, List.any_nil, Bool.or_eq_false_iff,
    Bool.and_eq_false_iff, decide_eq_false_iff_not, and_true]
  omega

theorem IsPrinted.isToken {t : Text} (h : IsPrinted t) : IsToken t := by
  refine ⟨h.1, fun c hc => ?_⟩
  have hp := h.2 c hc
  rw [isBlank_of_isPrinted hp, Bool.or_false]
  simp only [isPrinted, Bool.and_eq_true, bne_iff_ne] at hp
  simpa using hp.1.1.2

theorem isPrinted_of_all {t : Text} (h : (!t.isEmpty && t.all isPrinted) = true) : IsPrinted t := by
  rw [Bool.and_eq_true, List.all_eq_true] at h
  exact ⟨by simpa using h.1, h.2⟩

theorem isPrinted_literal {n : Nat} {t : Text} (h : Text.IsLiteral n t) : IsPrinted t := by
  obtain ⟨digits, rfl, hdigits, -⟩ := h
  refine ⟨by simp, fun c hc => ?_⟩
  rcases List.mem_cons.mp hc with rfl | hc
  · decide
  · have hc := Text.isUpperHex_iff.mp (hdigits c hc)
    have hsign {d : Char} (hd : d.toNat = 44 ∨ d.toNat = 58 ∨ d.toNat = 59) : c ≠ d := by
      rintro rfl
      omega
    simp only [isPrinted, Bool.and_eq_true, decide_eq_true_eq, bne_iff_ne]
    exact ⟨⟨⟨⟨by omega, by omega⟩, hsign (by decide)⟩, hsign (by decide)⟩, hsign (by decide)⟩

theorem isPrinted_cons {c : Char} {t : Text} (hc : isPrinted c = true) (h : IsPrinted t) :
    IsPrinted (c :: t) := by
  refine ⟨by simp, fun d hd => ?_⟩
  rcases List.mem_cons.mp hd with rfl | hd
  · exact hc
  · exact h.2 d hd

theorem Operand.Spelled.isPrinted {o : Operand} {t : Text} (h : o.Spelled t) : IsPrinted t := by
  cases o with
  | immediate v =>
    obtain ⟨n, u, -, rfl, hu⟩ := h
    exact isPrinted_cons (by decide) (isPrinted_literal hu)
  | complement v =>
    obtain ⟨n, u, -, rfl, hu⟩ := h
    exact isPrinted_cons (by decide) (isPrinted_literal hu)
  | address v =>
    obtain ⟨n, -, ht⟩ := h
    exact isPrinted_literal ht
  | register n =>
    obtain rfl : t = _ := h
    apply isPrinted_of_all
    revert n
    decide
  | indirect n =>
    obtain rfl : t = _ := h
    apply isPrinted_of_all
    revert n
    decide
  | _ =>
    obtain rfl : t = _ := h
    exact isPrinted_of_all (by decide)

/-! ### What a token denotes -/

/-- The first letters of two words that are the same. -/
theorem head_of_sameWord {a b : Text} (h : a.sameWord b = true) :
    a.head?.map Char.toUpper = b.head?.map Char.toUpper := by
  have h := congrArg List.head? (Text.sameWord_iff.mp h)
  simpa [Text.upper] using h

/-- The signs that a number may start with. -/
def numberSigns : List (Option Char) := [some '0', some '#', some '/']

theorem find?_eq_none_of_head {α : Type} (words : List α) (word : α → Text)
    (h : ∀ w ∈ words, (word w).head?.map Char.toUpper ∉ numberSigns) {c : Char}
    (hc : some c.toUpper ∈ numberSigns) (t : Text) :
    words.find? (fun w => (word w).sameWord (c :: t)) = none := by
  rw [List.find?_eq_none]
  intro w hw hsame
  apply h w hw
  rw [head_of_sameWord hsame]
  exact hc

/-- A token that starts as a number does names no register, flag or pointer. -/
theorem fixedOperand?_of_head {c : Char} (hc : some c.toUpper ∈ numberSigns) (t : Text) :
    fixedOperand? (c :: t) = none := by
  have hnamed := find?_eq_none_of_head namedOperands Prod.fst (by decide) hc t
  have hpointer :=
    find?_eq_none_of_head pointers (fun n => (Slot.indirect n).text) (by decide) hc t
  have hregister :=
    find?_eq_none_of_head registers (fun n => (Slot.register n).text) (by decide) hc t
  unfold fixedOperand? pointerNumber? registerNumber?
  rw [hnamed, hpointer, hregister]
  rfl

theorem readAddress_literal {n : UInt16} {t : Text} (h : Text.IsLiteral n.toNat t) :
    readAddress t = .ok (.const n) := by
  have hread := h.readHex? n.toNat_lt
  rw [UInt16.ofNat_toNat] at hread
  obtain ⟨digits, rfl, -, -⟩ := h
  have hname : specialRegister? ('0' :: digits) = none := by
    unfold specialRegister?
    rw [find?_eq_none_of_head specialRegisters Prod.fst (by decide) (by decide)]
    rfl
  have hstart : Text.isIdentStart '0' = false := by decide
  simp [readAddress, hname, hstart, hread]

theorem readImmediate_literal {n : UInt16} {t : Text} (h : Text.IsLiteral n.toNat t) :
    readImmediate t = .ok (.const n) := by
  have hread := h.readHex? n.toNat_lt
  rw [UInt16.ofNat_toNat] at hread
  rw [readImmediate, hread]

/-- **A token denotes the operand that it spells.** -/
theorem Operand.Spelled.classify {o : Operand} {t : Text} (h : o.Spelled t) :
    Instruction.classify t = .ok o := by
  cases o with
  | immediate v =>
    obtain ⟨n, u, rfl, rfl, hu⟩ := h
    simp [Instruction.classify, fixedOperand?_of_head (c := '#') (by decide),
      readImmediate_literal hu, Except.map]
  | complement v =>
    obtain ⟨n, u, rfl, rfl, hu⟩ := h
    simp [Instruction.classify, fixedOperand?_of_head (c := '/') (by decide),
      readAddress_literal hu, Except.map]
  | address v =>
    obtain ⟨n, rfl, ht⟩ := h
    have haddress := readAddress_literal ht
    obtain ⟨digits, rfl, -, -⟩ := ht
    simp [Instruction.classify, fixedOperand?_of_head (c := '0') (by decide), haddress, Except.map]
  | register n =>
    obtain rfl : t = _ := h
    revert n
    decide
  | indirect n =>
    obtain rfl : t = _ := h
    revert n
    decide
  | _ =>
    obtain rfl : t = _ := h
    decide

theorem classifyAll_spelled {operands : List Operand} {tokens : List Text}
    (h : List.Forall₂ Operand.Spelled operands tokens) : classifyAll tokens = .ok operands := by
  induction h with
  | nil => rfl
  | cons ht _ ih =>
    rw [classifyAll, ht.classify, ih]
    rfl

/-! ### Filling a form with its own bytes -/

theorem fits_operandAt (next : UInt16) (op : UInt8) (s : Slot) (bytes : List UInt8) :
    (operandAt next op s bytes).fits s = true := by
  cases s <;> simp [operandAt, Operand.fits]

theorem byteOf_toUInt16 (b : UInt8) : byteOf (.const b.toUInt16) = .ok b := by
  have hb := b.toNat_lt
  rw [byteOf, UInt8.toNat_toUInt16, if_pos hb, UInt8.toUInt8_toUInt16]

theorem wordFields_wordAddress (high low : UInt8) :
    wordFields (.const (wordAddress high low)) = [.byte high, .byte low] := by
  have hh := high.toNat_lt
  have hl := low.toNat_lt
  have hword : (wordAddress high low).toNat = high.toNat * 256 + low.toNat := by
    rw [wordAddress, UInt16.toNat_ofNat']
    omega
  have hhigh : highByte (wordAddress high low) = high := by
    apply UInt8.toNat.inj
    rw [toNat_highByte, hword]
    omega
  have hlow : lowByte (wordAddress high low) = low := by
    apply UInt8.toNat.inj
    rw [toNat_lowByte, hword]
    omega
  rw [wordFields, hhigh, hlow]

/-- A slot that is filled with the operand of its bytes has these bytes. -/
theorem fillSlot_operandAt {pc next : UInt16} {op op' : UInt8} {s : Slot} {bytes : List UInt8}
    (hlen : bytes.length = s.width) (hp : s ≠ .page) :
    fillSlot pc op s (operandAt next op' s bytes) = .ok (op, bytes.map .byte) := by
  cases s with
  | page => exact absurd rfl hp
  | immediate | direct | bit | complement | relative =>
    obtain ⟨b, rfl⟩ := List.length_eq_one_iff.mp hlen
    simp [operandAt, numberOf, fillSlot, byteOf_toUInt16, Except.map]
  | immediateWord | absolute =>
    obtain ⟨high, low, rfl⟩ := List.length_eq_two.mp hlen
    simp [operandAt, numberOf, fillSlot, wordFields_wordAddress]
  | _ =>
    obtain rfl := List.length_eq_zero_iff.mp hlen
    rfl

/-- The bytes that slots add after the opcode. -/
def slotsWidth (slots : List Slot) : Nat := slots.foldr (fun s n => s.width + n) 0

theorem length_form {f : Form} (h : f.isAssigned = true) : f.length = 1 + slotsWidth f.slots := by
  rw [Form.length, if_pos h, slotsWidth]
  generalize f.slots = slots
  induction slots with
  | nil => rfl
  | cons s slots ih =>
    rw [List.foldr_cons, ih, List.foldr_cons]
    omega

theorem fillSlots_operandsFrom {pc next : UInt16} {op op' : UInt8} :
    ∀ {slots : List Slot} {bytes : List UInt8}, bytes.length = slotsWidth slots →
      Slot.page ∉ slots →
      fillSlots pc op (slots.zip (operandsFrom next op' slots bytes)) = .ok (op, bytes.map .byte)
  | [], bytes, hlen, _ => by
    obtain rfl := List.length_eq_zero_iff.mp hlen
    rfl
  | s :: slots, bytes, hlen, hp => by
    rw [slotsWidth, List.foldr_cons] at hlen
    have hp : Slot.page ≠ s ∧ Slot.page ∉ slots := by simpa using hp
    have htake : (bytes.take s.width).length = s.width := by
      rw [List.length_take]
      omega
    have hdrop : (bytes.drop s.width).length = slotsWidth slots := by
      rw [List.length_drop, slotsWidth]
      omega
    rw [operandsFrom, List.zip_cons_cons, fillSlots, fillSlot_operandAt htake (Ne.symm hp.1)]
    simp only [fillSlots_operandsFrom hdrop hp.2, Except.map]
    rw [← List.map_append, List.take_append_drop]

theorem length_operandsFrom (next : UInt16) (op : UInt8) : ∀ (slots : List Slot)
    (bytes : List UInt8), (operandsFrom next op slots bytes).length = slots.length
  | [], _ => rfl
  | s :: slots, bytes => by
    rw [operandsFrom, List.length_cons, length_operandsFrom, List.length_cons]

theorem fits_operandsFrom (next : UInt16) (op : UInt8) : ∀ (slots : List Slot)
    (bytes : List UInt8), ∀ p ∈ slots.zip (operandsFrom next op slots bytes), p.2.fits p.1 = true
  | [], _, p, hp => by simp at hp
  | s :: slots, bytes, p, hp => by
    rw [operandsFrom, List.zip_cons_cons] at hp
    rcases List.mem_cons.mp hp with rfl | hp
    · exact fits_operandAt _ _ _ _
    · exact fits_operandsFrom next op slots _ p hp

namespace MachineCode

variable (c : MachineCode) (n : Nat)

theorem form_mem : c.form ∈ catalog := (formOf_spec c.opcode).1

theorem form_opcode : c.form.opcode = c.opcode := (formOf_spec c.opcode).2

theorem length_args : c.args.length = slotsWidth c.form.slots := by
  have h := length_form c.assigned
  rw [c.complete] at h
  exact Nat.add_left_cancel h

theorem operands_of_ne (h : c.opcode ≠ swappedOpcode) :
    c.operands n =
      operandsFrom (UInt16.ofNat (n + c.bytes.length)) c.opcode c.form.slots c.args := if_neg h

/-- The one instruction that keeps its operands in the opposite order. -/
theorem swapped (h : c.opcode = swappedOpcode) :
    c.form.slots = [.direct, .direct] ∧ ∃ source target, c.args = [source, target] ∧
      c.operands n = [.address (.const target.toUInt16), .address (.const source.toUInt16)] := by
  have hslots := slots_swapped c.form_mem (c.form_opcode.trans h)
  have hlen := c.length_args
  rw [hslots] at hlen
  obtain ⟨source, target, hargs⟩ := List.length_eq_two.mp hlen
  refine ⟨hslots, source, target, hargs, ?_⟩
  rw [operands, if_pos h, hslots, hargs]
  rfl

theorem admits_operands : c.form.admits (c.operands n) = true := by
  rw [Form.admits_iff]
  by_cases h : c.opcode = swappedOpcode
  · obtain ⟨hslots, source, target, -, hops⟩ := c.swapped n h
    rw [hslots, hops]
    exact ⟨rfl, by simp [Operand.fits]⟩
  · rw [c.operands_of_ne n h]
    exact ⟨(length_operandsFrom _ _ _ _).symm, fits_operandsFrom _ _ _ _⟩

theorem length_encoding : (⟨c.opcode, c.args.map .byte⟩ : Encoding).length = c.form.length := by
  have hfields : ∀ bs : List UInt8, fieldsWidth (bs.map .byte) = bs.length := by
    intro bs
    induction bs with
    | nil => rfl
    | cons b bs ih =>
      rw [List.map_cons, fieldsWidth_cons, ih, List.length_cons]
      exact Nat.add_comm 1 _
  rw [form, c.complete, Encoding.length_eq, hfields]

/-- Filling a form goes through if its slots give the bytes of the instruction. -/
theorem fill_eq {f : Form} {operands : List Operand} {pc : UInt16}
    (fields : List Field) (hlength : f.length = c.form.length)
    (hfill : fillSlots pc f.opcode (f.slots.zip operands) = .ok (c.opcode, fields))
    (hfields : (if f.opcode = swappedOpcode then fields.reverse else fields) =
      c.args.map .byte) :
    fill f operands pc = .ok ⟨c.opcode, c.args.map .byte⟩ := by
  unfold fill
  rw [hfill]
  simp only [hfields, c.length_encoding, hlength, if_true]

/-- **A form filled with its own operands** has the bytes that they came from. -/
theorem fill_operands (hp : c.form.slots ≠ [.page]) (pc : UInt16) :
    fill c.form (c.operands n) pc = .ok ⟨c.opcode, c.args.map .byte⟩ := by
  by_cases h : c.opcode = swappedOpcode
  · obtain ⟨hslots, source, target, hargs, hops⟩ := c.swapped n h
    refine c.fill_eq [.byte target, .byte source] rfl ?_ ?_
    · rw [hslots, hops, c.form_opcode]
      simp [fillSlots, fillSlot, byteOf_toUInt16, Except.map]
    · rw [c.form_opcode, if_pos h, hargs]
      rfl
  · refine c.fill_eq (c.args.map .byte) rfl ?_ ?_
    · rw [c.operands_of_ne n h, c.form_opcode]
      exact fillSlots_operandsFrom c.length_args
        fun hpage => hp (slots_eq_page c.form_mem hpage)
    · rw [c.form_opcode, if_neg h]

/-- A jump within a page names its target from any opcode of the jump. -/
theorem fill_page (hp : c.form.slots = [.page]) {f : Form} (hf : f ∈ catalog)
    (hslots : f.slots = [.page]) (hassigned : f.isAssigned = true)
    (hop : f.opcode.toNat % 32 = c.opcode.toNat % 32) :
    fill f (c.operands n) (UInt16.ofNat n) = .ok ⟨c.opcode, c.args.map .byte⟩ := by
  have hne {g : Form} (hg : g ∈ catalog) (hpage : g.slots = [.page]) :
      g.opcode ≠ swappedOpcode := by
    intro h
    have := slots_swapped hg h
    rw [hpage] at this
    simp at this
  have hlen := c.length_args
  rw [hp] at hlen
  obtain ⟨low, hargs⟩ := List.length_eq_one_iff.mp hlen
  have hnext : UInt16.ofNat (n + c.bytes.length) = UInt16.ofNat n + 2 := by
    rw [bytes, hargs, UInt16.ofNat_add]
    rfl
  have hops : c.operands n =
      [.address (.const (pageAddress (UInt16.ofNat n + 2) c.opcode low))] := by
    rw [c.operands_of_ne n (c.form_opcode ▸ hne c.form_mem hp), hnext, hp, hargs]
    rfl
  have hnlt := (UInt16.ofNat n + 2).toNat_lt
  have holt := c.opcode.toNat_lt
  have hllt := low.toNat_lt
  have htarget : (pageAddress (UInt16.ofNat n + 2) c.opcode low).toNat =
      (UInt16.ofNat n + 2).toNat / 2048 * 2048 + c.opcode.toNat / 32 * 256 + low.toNat := by
    rw [pageAddress, UInt16.toNat_ofNat']
    omega
  have hfold : foldPage f.opcode (UInt16.ofNat n + 2)
      (pageAddress (UInt16.ofNat n + 2) c.opcode low) = .ok c.opcode := by
    rw [foldPage_ok_iff, htarget]
    constructor <;> omega
  have hlow : lowByte (pageAddress (UInt16.ofNat n + 2) c.opcode low) = low := by
    apply UInt8.toNat.inj
    rw [toNat_lowByte, htarget]
    omega
  refine c.fill_eq [.byte low] ?_ ?_ ?_
  · have hform : c.form.length = 1 + slotsWidth c.form.slots := length_form c.assigned
    rw [length_form hassigned, hform, hslots, hp]
  · rw [hslots, hops]
    simp [fillSlots, fillSlot, hfold, hlow, Except.map]
  · rw [if_neg (hne hf hslots), hargs]
    rfl

end MachineCode

/-! ### From a line -/

theorem isPrinted_name (m : Mnemonic) : IsPrinted m.name := by
  apply isPrinted_of_all
  cases m <;> decide

section Line

variable {word : Text} {tokens : List Text} (hword : IsPrinted word)
  (htokens : ∀ t ∈ tokens, IsPrinted t)

include htokens in
theorem mem_commas {c : Char} (hc : c ∈ commas tokens) : c = ',' ∨ isPrinted c = true := by
  cases tokens with
  | nil => simp [commas] at hc
  | cons t ts =>
    rcases List.mem_append.mp hc with hc | hc
    · exact Or.inr ((htokens t (by simp)).2 c hc)
    · obtain ⟨u, hu, hc⟩ := List.mem_flatMap.mp hc
      rcases List.mem_cons.mp hc with rfl | hc
      · exact Or.inl rfl
      · exact Or.inr ((htokens u (by simp [hu])).2 c hc)

include htokens in
theorem isBlank_commas : ∀ c ∈ commas tokens, Text.isBlank c = false := by
  intro c hc
  rcases mem_commas htokens hc with rfl | hc
  · decide
  · exact isBlank_of_isPrinted hc

include htokens in
theorem commas_ne_nil (h : tokens ≠ []) : commas tokens ≠ [] := by
  cases tokens with
  | nil => exact absurd rfl h
  | cons t ts => simp [commas, (htokens t (by simp)).1]

include hword in
theorem isBlank_word : ∀ c ∈ word, Text.isBlank c = false :=
  fun c hc => isBlank_of_isPrinted (hword.2 c hc)

include hword htokens

theorem tokenize_line : tokenize (word ++ ' ' :: commas tokens) = word :: tokens := by
  rw [tokenize_append (by decide), hword.isToken.tokenize]
  cases tokens with
  | nil => rfl
  | cons t ts =>
    rw [commas, tokenize_commas (htokens t (by simp)).isToken
      fun u hu => (htokens u (by simp [hu])).isToken]
    rfl

theorem mem_lineOf {c : Char} (hc : c ∈ lineOf word tokens) :
    c = ' ' ∨ c = ',' ∨ isPrinted c = true := by
  unfold lineOf at hc
  split_ifs at hc
  · exact Or.inr (Or.inr (hword.2 c hc))
  · rcases List.mem_append.mp hc with hc | hc
    · exact Or.inr (Or.inr (hword.2 c hc))
    · rcases List.mem_cons.mp hc with rfl | hc
      · exact Or.inl rfl
      · exact Or.inr (mem_commas htokens hc)

theorem trim_lineOf : (lineOf word tokens).trim = lineOf word tokens := by
  have hlast : ∀ d ∈ (lineOf word tokens).getLast?, Text.isBlank d = false := by
    intro d hd
    unfold lineOf at hd
    split_ifs at hd with hnil
    · exact isBlank_word hword d (List.mem_of_getLast? hd)
    · rw [List.append_cons, List.getLast?_append_of_ne_nil _ (commas_ne_nil htokens hnil)] at hd
      exact isBlank_commas htokens d (List.mem_of_getLast? hd)
  obtain ⟨c, w, rfl⟩ := List.exists_cons_of_ne_nil hword.1
  obtain ⟨t, ht⟩ : ∃ t, lineOf (c :: w) tokens = c :: t := by
    unfold lineOf
    split_ifs
    · exact ⟨w, rfl⟩
    · exact ⟨w ++ ' ' :: commas tokens, rfl⟩
  rw [ht] at hlast ⊢
  exact Text.trim_of_ends (isBlank_word hword c (by simp)) hlast

theorem collapse_lineOf : (lineOf word tokens).collapse = word ++ ' ' :: commas tokens := by
  have hspace : Text.isBlank ' ' = true := by decide
  have htrim := trim_lineOf hword htokens
  unfold lineOf at htrim ⊢
  split_ifs at htrim ⊢ with hnil
  · subst hnil
    have h := Text.collapse_append (isBlank_word hword) (t := []) (by simp) (by simpa using htrim)
    rw [List.append_nil] at h
    exact h
  · have hblanks : Text.removeBlanks (' ' :: commas tokens) = commas tokens := by
      have h := Text.removeBlanks_of_forall (isBlank_commas htokens)
      unfold Text.removeBlanks at h ⊢
      rw [List.filter_cons_of_neg (by simp [hspace]), h]
    rw [Text.collapse_append (isBlank_word hword) (by simp [hspace]) htrim, hblanks]

end Line

/-- The tokens of an instruction are words of a listing. -/
theorem isPrinted_tokens {operands : List Operand} {tokens : List Text}
    (h : List.Forall₂ Operand.Spelled operands tokens) : ∀ t ∈ tokens, IsPrinted t := by
  induction h with
  | nil => simp
  | cons ht _ ih =>
    intro t hmem
    rcases List.mem_cons.mp hmem with rfl | hmem
    · exact ht.isPrinted
    · exact ih t hmem

/-- Some form of its mnemonic makes the bytes of an instruction of its operands: its own, or for a
jump within a page the one that stands for all pages. -/
theorem MachineCode.exists_form (c : MachineCode) (n : Nat) :
    ∃ f ∈ forms c.form.mnemonic, f.admits (c.operands n) = true ∧
      fill f (c.operands n) (UInt16.ofNat n) = .ok ⟨c.opcode, c.args.map .byte⟩ := by
  by_cases hp : c.form.slots = [.page]
  · obtain ⟨f, hf, hslots, hop⟩ := forms_page c.form_mem hp
    obtain ⟨hcat, hassigned, -⟩ := mem_forms hf
    refine ⟨f, hf, ?_, c.fill_page n hp hcat hslots hassigned (c.form_opcode ▸ hop)⟩
    have hadmits := c.admits_operands n
    rw [Form.admits_iff] at hadmits ⊢
    rwa [hslots, ← hp]
  · exact ⟨c.form, mem_forms_self c.form_mem c.assigned hp, c.admits_operands n,
      c.fill_operands n hp _⟩

/-- **The line of an instruction is assembled to its bytes.** -/
theorem assemble_rendered {n : Nat} {c : MachineCode} {line : Text} (h : Renders n c line) :
    assemble line.collapse (UInt16.ofNat n) = .ok ⟨c.opcode, c.args.map .byte⟩ := by
  obtain ⟨tokens, hspelled, rfl⟩ := h
  have htokens := isPrinted_tokens hspelled
  have hword := isPrinted_name c.form.mnemonic
  obtain ⟨f, hf, hadmits, hfill⟩ := c.exists_form n
  rw [collapse_lineOf hword htokens, ← hfill]
  have hname : Mnemonic.ofText? c.form.mnemonic.name = some c.form.mnemonic :=
    Mnemonic.ofText?_name (Form.ne_reserved c.assigned)
  exact assemble_of_form (tokenize_line hword htokens) hname (classifyAll_spelled hspelled) hf
    hadmits _

/-! ### A listing -/

/-- An operand as its text, a number with at least two digits after the zero. -/
def Operand.listing : Operand → Text
  | .immediate (.const n) => '#' :: '0' :: Text.hex 2 n.toNat
  | .complement (.const n) => '/' :: '0' :: Text.hex 2 n.toNat
  | .address (.const n) => '0' :: Text.hex 2 n.toNat
  | o => o.text

/-- The line of an instruction at an address. -/
def MachineCode.listing (n : Nat) (c : MachineCode) : Text :=
  lineOf c.form.mnemonic.name ((c.operands n).map Operand.listing)

theorem spelled_operandAt (next : UInt16) (op : UInt8) (s : Slot) (bytes : List UInt8) :
    (operandAt next op s bytes).Spelled (operandAt next op s bytes).listing := by
  cases s with
  | immediate | immediateWord | complement => exact ⟨_, _, rfl, rfl, Text.isLiteral_hex 2 _⟩
  | direct | bit | relative | absolute | page => exact ⟨_, rfl, Text.isLiteral_hex 2 _⟩
  | _ => rfl

theorem spelled_operandsFrom (next : UInt16) (op : UInt8) : ∀ (slots : List Slot)
    (bytes : List UInt8), ∀ o ∈ operandsFrom next op slots bytes, o.Spelled o.listing
  | [], _, o, ho => by simp [operandsFrom] at ho
  | s :: slots, bytes, o, ho => by
    rw [operandsFrom] at ho
    rcases List.mem_cons.mp ho with rfl | ho
    · exact spelled_operandAt _ _ _ _
    · exact spelled_operandsFrom next op slots _ o ho

/-- Every instruction has a line. -/
theorem renders_listing (n : Nat) (c : MachineCode) : Renders n c (c.listing n) := by
  refine ⟨(c.operands n).map Operand.listing, ?_, rfl⟩
  rw [List.forall₂_map_right_iff, List.forall₂_same]
  intro o ho
  unfold MachineCode.operands at ho
  simp only at ho
  split_ifs at ho
  · exact spelled_operandsFrom _ _ _ _ o (List.mem_reverse.mp ho)
  · exact spelled_operandsFrom _ _ _ _ o ho

end Mcs51.Instruction
