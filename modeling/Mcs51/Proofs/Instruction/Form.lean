import Mathlib.Tactic.SplitIfs
import Mcs51.Instruction.Encoding
import Mcs51.Proofs.Text.Words

/-! # The form behind an encoding

`assemble` has two ways to an encoding: a whole line that is the pattern of an instruction of one
byte, and a choice among the forms of a mnemonic. `assemble_ok` says that they are one: every
encoding comes from filling a form of the catalog whose mnemonic and slots are those of the tokens
of the line. The lemmas before it say what the catalog is like. -/

namespace Mcs51.Instruction

/-! ### The catalog -/

theorem opcode_getElem {fs : List Form} (h : fs.map Form.opcode = (List.range 256).map UInt8.ofNat)
    {i : Nat} (hi : i < fs.length) : i < 256 ∧ fs[i].opcode = UInt8.ofNat i := by
  have hlen : fs.length = 256 := by simpa using congrArg List.length h
  have hop := congrArg (fun l => l[i]?) h
  simp only [List.getElem?_map, List.getElem?_eq_getElem hi,
    List.getElem?_range (by omega : i < 256), Option.map_some, Option.some.injEq] at hop
  exact ⟨by omega, hop⟩

/-- A form of the catalog is the form of its opcode. -/
theorem formOf_opcode {f : Form} (h : f ∈ catalog) : formOf f.opcode = f := by
  obtain ⟨i, hi, rfl⟩ := List.getElem_of_mem h
  obtain ⟨hlt, hop⟩ := opcode_getElem opcode_catalog hi
  have hnat : (UInt8.ofNat i).toNat = i := by
    rw [UInt8.toNat_ofNat']; omega
  unfold formOf
  rw [hop, hnat, List.getD_eq_getElem?_getD, List.getElem?_eq_getElem hi, Option.getD_some]

theorem mem_firstOfShape {f : Form} : ∀ (fs kept : List Form),
    f ∈ fs.foldl (fun kept f => if kept.any f.sameShape then kept else kept ++ [f]) kept →
      f ∈ kept ∨ f ∈ fs
  | [], kept, h => Or.inl h
  | g :: fs, kept, h => by
    rw [List.foldl_cons] at h
    rcases mem_firstOfShape fs _ h with h | h
    · split_ifs at h
      · exact Or.inl h
      · rcases List.mem_append.mp h with h | h
        · exact Or.inl h
        · exact Or.inr (by simp [List.mem_singleton.mp h])
    · exact Or.inr (by simp [h])

/-- The forms of a mnemonic are assigned forms of the catalog. -/
theorem mem_forms {f : Form} {m : Mnemonic} (h : f ∈ forms m) :
    f ∈ catalog ∧ f.isAssigned = true ∧ f.mnemonic = m := by
  have hmem := (mem_firstOfShape _ [] h).resolve_left (by simp)
  obtain ⟨hc, ha⟩ := List.mem_filter.mp hmem
  rw [Bool.and_eq_true, beq_iff_eq] at ha
  exact ⟨hc, ha⟩

set_option maxRecDepth 4000 in
/-- A slot for an address in a page is the only slot of its form. -/
theorem slots_eq_page {f : Form} (h : f ∈ catalog) (hp : Slot.page ∈ f.slots) :
    f.slots = [.page] := by
  have hall : (catalog.all fun f => !f.slots.contains .page || f.slots == [.page]) = true := by
    decide
  have := List.all_eq_true.mp hall f h
  simpa [hp] using this

set_option maxRecDepth 4000 in
/-- A distance is the last operand of its form. -/
theorem relative_last {f : Form} (h : f ∈ catalog) : Slot.relative ∉ f.slots.dropLast := by
  have hall : (catalog.all fun f => !f.slots.dropLast.contains .relative) = true := by
    decide
  have := List.all_eq_true.mp hall f h
  simpa using this

set_option maxRecDepth 4000 in
/-- The form that keeps its fields in the opposite order has two direct addresses. -/
theorem slots_swapped {f : Form} (h : f ∈ catalog) (hop : f.opcode = swappedOpcode) :
    f.slots = [.direct, .direct] := by
  have hall : (catalog.all fun f =>
      f.opcode != swappedOpcode || f.slots == [.direct, .direct]) = true := by
    decide
  have := List.all_eq_true.mp hall f h
  simpa [hop] using this

/-- The jumps and calls within a page, by turns: a jump and a call for each page. -/
def pageForm (i : Nat) : Form :=
  ⟨UInt8.ofNat (i * 16 + 1), if i % 2 = 0 then .ajmp else .acall, [.page]⟩

set_option maxRecDepth 4000 in
theorem filter_page :
    (catalog.filter fun f => f.slots == [.page]) = (List.range 16).map pageForm := by
  decide

theorem mem_catalog_page {f : Form} :
    f ∈ catalog ∧ f.slots = [.page] ↔ ∃ i < 16, f = pageForm i := by
  have h : f ∈ (catalog.filter fun f => f.slots == [.page]) ↔ f ∈ (List.range 16).map pageForm := by
    rw [filter_page]
  rw [List.mem_filter, beq_iff_eq, List.mem_map] at h
  rw [h]
  constructor
  · rintro ⟨i, hi, rfl⟩; exact ⟨i, List.mem_range.mp hi, rfl⟩
  · rintro ⟨i, hi, rfl⟩; exact ⟨i, List.mem_range.mpr hi, rfl⟩

/-- Another page in the opcode of a jump within a page makes the same jump in another page. -/
theorem formOf_page {f : Form} (h : f ∈ catalog) (hp : f.slots = [.page]) {op : UInt8}
    (hop : op.toNat % 32 = f.opcode.toNat % 32) : formOf op = { f with opcode := op } := by
  obtain ⟨i, hi, rfl⟩ := mem_catalog_page.mp ⟨h, hp⟩
  have hnat : (pageForm i).opcode.toNat = i * 16 + 1 := by
    show (UInt8.ofNat (i * 16 + 1)).toNat = _
    rw [UInt8.toNat_ofNat']; omega
  rw [hnat] at hop
  have hlt := op.toNat_lt
  have hform : { pageForm i with opcode := op } = pageForm (op.toNat / 16) := by
    have hopcode : op = UInt8.ofNat (op.toNat / 16 * 16 + 1) := by
      apply UInt8.toNat.inj
      rw [UInt8.toNat_ofNat']; omega
    have hparity : op.toNat / 16 % 2 = i % 2 := by omega
    unfold pageForm
    rw [hparity, ← hopcode]
  have hg := mem_catalog_page.mpr ⟨op.toNat / 16, by omega, rfl⟩
  rw [hform, ← formOf_opcode hg.1, ← hform]

/-! ### Tokens and letter case -/

theorem separates_toUpper (c : Char) :
    (c.toUpper == ',' || Text.isBlank c.toUpper) = (c == ',' || Text.isBlank c) := by
  have h : (c.toUpper == ',') = (c == ',') := by
    rw [Bool.eq_iff_iff, beq_iff_eq, beq_iff_eq]
    exact Text.toUpper_eq_iff (by decide)
  rw [h, Text.isBlank_toUpper]

/-- The tokens of a line in upper case. -/
theorem tokenize_upper (t : Text) : tokenize t.upper = (tokenize t).map Text.upper :=
  Text.splitWords_map separates_toUpper t

/-- Blanks at the ends of a line are in none of its tokens. -/
theorem tokenize_trim (t : Text) : tokenize t.trim = tokenize t :=
  Text.splitWords_trim (fun c hc => by simp [hc]) t

/-- What lives in the opcode is told from a token by its letters, not by their case. -/
theorem fixedOperand?_congr {a b : Text} (h : a.upper = b.upper) :
    fixedOperand? a = fixedOperand? b := by
  unfold fixedOperand? pointerNumber? registerNumber? Text.sameWord
  rw [h]

/-! ### Instructions of one byte -/

/-- A word that is one token. -/
def IsToken (w : Text) : Prop := w ≠ [] ∧ ∀ c ∈ w, (c == ',' || Text.isBlank c) = false

theorem isToken_of_all {w : Text}
    (h : (!w.isEmpty && w.all fun c => !(c == ',' || Text.isBlank c)) = true) : IsToken w := by
  rw [Bool.and_eq_true, List.all_eq_true] at h
  exact ⟨by simpa using h.1, fun c hc => by simpa using h.2 c hc⟩

theorem isToken_name (m : Mnemonic) : IsToken m.name := by
  apply isToken_of_all
  cases m <;> decide

theorem isToken_text (s : Slot) : IsToken s.text := by
  apply isToken_of_all
  cases s with
  | register n => revert n; decide
  | indirect n => revert n; decide
  | _ => decide

theorem IsToken.tokenize {w : Text} (h : IsToken w) : tokenize w = [w] :=
  Text.splitWords_of_forall h.2 h.1

theorem tokenize_append {a b : Text} {c : Char} (hc : (c == ',' || Text.isBlank c) = true) :
    tokenize (a ++ c :: b) = tokenize a ++ tokenize b :=
  Text.splitWords_append hc a b

/-- Tokens with commas between them. -/
theorem tokenize_commas : ∀ {w : Text} {ts : List Text}, IsToken w → (∀ t ∈ ts, IsToken t) →
    tokenize (w ++ ts.flatMap (',' :: ·)) = w :: ts
  | w, [], hw, _ => by simpa using hw.tokenize
  | w, t :: ts, hw, hts => by
    rw [List.flatMap_cons, List.cons_append, tokenize_append (by decide), hw.tokenize,
      tokenize_commas (hts t (by simp)) fun u hu => hts u (by simp [hu])]
    rfl

/-- The tokens of the pattern of a form. -/
theorem tokenize_pattern (f : Form) :
    tokenize f.pattern = f.mnemonic.name :: f.slots.map Slot.text := by
  unfold Form.pattern
  cases f.slots with
  | nil => simpa [Form.slotsText] using (isToken_name f.mnemonic).tokenize
  | cons s slots =>
    have hslots : (slots.flatMap fun t => ',' :: t.text) =
        (slots.map Slot.text).flatMap (',' :: ·) := by
      rw [List.flatMap_map]
    have htexts : ∀ t ∈ slots.map Slot.text, IsToken t := by
      intro t ht
      obtain ⟨u, -, rfl⟩ := List.mem_map.mp ht
      exact isToken_text u
    rw [Form.slotsText, List.cons_append, tokenize_append (by decide),
      (isToken_name f.mnemonic).tokenize, hslots, tokenize_commas (isToken_text s) htexts]
    rfl

set_option maxRecDepth 4000 in
theorem width_slots_oneByte {f : Form} (h : f ∈ oneByteForms) : ∀ s ∈ f.slots, s.width = 0 := by
  have hall : (oneByteForms.all fun f => f.slots.all fun s => s.width == 0) = true := by
    decide
  simpa using List.all_eq_true.mp hall f h

/-- A slot that lives in the opcode admits what its own text spells, and adds no field for it. -/
theorem exists_fixedOperand {s : Slot} (h : s.width = 0) :
    ∃ o, fixedOperand? s.text = some o ∧ o.fits s = true ∧
      ∀ pc op, fillSlot pc op s o = .ok (op, []) := by
  cases s with
  | register n => exact ⟨.register n, by revert n; decide, by simp [Operand.fits], fun _ _ => rfl⟩
  | indirect n => exact ⟨.indirect n, by revert n; decide, by simp [Operand.fits], fun _ _ => rfl⟩
  | accumulator => exact ⟨.accumulator, by decide, rfl, fun _ _ => rfl⟩
  | carry => exact ⟨.carry, by decide, rfl, fun _ _ => rfl⟩
  | pair => exact ⟨.pair, by decide, rfl, fun _ _ => rfl⟩
  | dataPointer => exact ⟨.dataPointer, by decide, rfl, fun _ _ => rfl⟩
  | atDataPointer => exact ⟨.atDataPointer, by decide, rfl, fun _ _ => rfl⟩
  | atIndexedData => exact ⟨.atIndexedData, by decide, rfl, fun _ _ => rfl⟩
  | atIndexedCode => exact ⟨.atIndexedCode, by decide, rfl, fun _ _ => rfl⟩
  | immediate | immediateWord | direct | bit | complement | relative | page | absolute =>
    simp [Slot.width] at h

/-- Tokens that spell slots living in the opcode are operands for these slots. -/
theorem classifyAll_fixed : ∀ {slots : List Slot} {tokens : List Text},
    (∀ s ∈ slots, s.width = 0) →
    tokens.map Text.upper = (slots.map Slot.text).map Text.upper →
      ∃ operands, classifyAll tokens = .ok operands ∧ slots.length = operands.length ∧
        ((slots.zip operands).all fun p => p.2.fits p.1) = true ∧
        ∀ pc op, fillSlots pc op (slots.zip operands) = .ok (op, [])
  | [], tokens, _, h => by
    have : tokens = [] := by simpa using h
    subst this
    exact ⟨[], rfl, rfl, rfl, fun _ _ => rfl⟩
  | s :: slots, [], _, h => by simp at h
  | s :: slots, t :: tokens, hw, h => by
    simp only [List.map_cons, List.cons.injEq] at h
    obtain ⟨o, ho, hfit, hfill⟩ := exists_fixedOperand (hw s (by simp))
    obtain ⟨os, hos, hlen, hfits, hfills⟩ :=
      classifyAll_fixed (fun s hs => hw s (by simp [hs])) h.2
    have ht : classify t = .ok o := by
      unfold classify
      rw [fixedOperand?_congr h.1, ho]
    refine ⟨o :: os, ?_, by simp [hlen], ?_, fun pc op => ?_⟩
    · simp only [classifyAll, ht, hos]
      rfl
    · simp only [List.zip_cons_cons, List.all_cons, hfit, hfits, Bool.and_self]
    · simp only [List.zip_cons_cons, fillSlots, hfill, hfills]
      rfl

/-! ### From a line -/

theorem oneByte?_eq_some {line : Text} {f : Form} (h : oneByte? line = some f) (pc : UInt16) :
    ∃ word args operands, tokenize line = word :: args ∧ classifyAll args = .ok operands ∧
      f ∈ catalog ∧ f.isAssigned = true ∧ f.mnemonic.name.sameWord word = true ∧
      f.admits operands = true ∧ fill f operands pc = .ok ⟨f.opcode, []⟩ := by
  unfold oneByte? at h
  have hmem : f ∈ oneByteForms := List.mem_of_find?_eq_some h
  have hsame : f.pattern.sameWord line.trim = true := by simpa using List.find?_some h
  obtain ⟨hcat, hlen⟩ := List.mem_filter.mp hmem
  have hlen : f.length = 1 := by simpa using hlen
  have hassigned : f.isAssigned = true := by
    by_contra hn
    simp [Form.length, hn] at hlen
  -- the tokens of the line are those of the pattern, up to letter case
  have htokens : (tokenize line).map Text.upper =
      (f.mnemonic.name :: f.slots.map Slot.text).map Text.upper := by
    calc (tokenize line).map Text.upper = tokenize line.trim.upper := by
          rw [tokenize_upper, tokenize_trim]
      _ = tokenize f.pattern.upper := by rw [Text.sameWord_iff.mp hsame]
      _ = _ := by rw [tokenize_upper, tokenize_pattern]
  cases htok : tokenize line with
  | nil => simp [htok] at htokens
  | cons word args =>
    rw [htok] at htokens
    simp only [List.map_cons, List.cons.injEq] at htokens
    obtain ⟨operands, hclass, hlen', hfits, hfill⟩ :=
      classifyAll_fixed (width_slots_oneByte hmem) htokens.2
    refine ⟨word, args, operands, rfl, hclass, hcat, hassigned,
      Text.sameWord_iff.mpr htokens.1.symm, ?_, ?_⟩
    · simp [Form.admits, hlen', hfits]
    · have hnil : (⟨f.opcode, []⟩ : Encoding).length = f.length := hlen.symm
      unfold fill
      simp [hfill, hnil]

theorem Mnemonic.sameWord_of_ofText? {word : Text} {m : Mnemonic} (h : ofText? word = some m) :
    m.name.sameWord word = true := by
  unfold ofText? at h
  simpa using List.find?_some h

theorem fillFirst_ok {fs : List Form} {operands : List Operand} {pc : UInt16} {p : Problem}
    {e : Encoding} (h : fillFirst fs operands pc p = .ok e) :
    ∃ f ∈ fs, f.admits operands = true ∧ fill f operands pc = .ok e := by
  unfold fillFirst at h
  split at h
  · simp at h
  · next f hfind =>
    exact ⟨f, List.mem_of_find?_eq_some hfind, by simpa using List.find?_some hfind, h⟩

theorem assembleTokens_ok {word : Text} {args : List Text} {pc : UInt16} {e : Encoding}
    (h : assembleTokens (word :: args) pc = .ok e) :
    ∃ m operands f, m.name.sameWord word = true ∧ classifyAll args = .ok operands ∧
      f ∈ forms m ∧ f.admits operands = true ∧ fill f operands pc = .ok e := by
  unfold assembleTokens at h
  cases hm : Mnemonic.ofText? word with
  | none => simp [hm] at h
  | some m =>
    simp only [hm] at h
    split_ifs at h
    cases hclass : classifyAll args with
    | error p => simp [hclass] at h
    | ok operands =>
      simp only [hclass] at h
      obtain ⟨f, hf, hadmits, hfill⟩ := fillFirst_ok h
      exact ⟨m, operands, f, Mnemonic.sameWord_of_ofText? hm, rfl, hf, hadmits, hfill⟩

/-- **Every encoding fills a form of the catalog** that the mnemonic and the operands of the line
call for. -/
theorem assemble_ok {line : Text} {pc : UInt16} {e : Encoding} (h : assemble line pc = .ok e) :
    ∃ word args operands f, tokenize line = word :: args ∧ classifyAll args = .ok operands ∧
      f ∈ catalog ∧ f.isAssigned = true ∧ f.mnemonic.name.sameWord word = true ∧
      f.admits operands = true ∧ fill f operands pc = .ok e := by
  unfold assemble at h
  cases hone : oneByte? line with
  | some f =>
    simp only [hone] at h
    cases h
    obtain ⟨word, args, operands, h⟩ := oneByte?_eq_some hone pc
    exact ⟨word, args, operands, f, h⟩
  | none =>
    simp only [hone] at h
    cases htok : tokenize line with
    | nil => simp [htok, assembleTokens] at h
    | cons word args =>
      rw [htok] at h
      obtain ⟨m, operands, f, hword, hclass, hf, hadmits, hfill⟩ := assembleTokens_ok h
      obtain ⟨hcat, hassigned, rfl⟩ := mem_forms hf
      exact ⟨word, args, operands, f, rfl, hclass, hcat, hassigned, hword, hadmits, hfill⟩

end Mcs51.Instruction
