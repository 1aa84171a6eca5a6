import Mcs51.Proofs.Object.Replay

/-! # A label stands for its address

Wherever an instruction takes a code address, the name of a label may stand for it, and the bytes of
the operand then lead to the address that the symbols have for the label. `codeAddress?` is what the
bytes of such a slot lead to: the target of a branch, of a jump within a page or of a long jump, or
the word that goes to the data pointer.

Names share their spelling with other operands. A name of a special function register is read as the
register wherever an address may stand, and after `#` a name that is a hexadecimal literal is read
as the number; a label of such a name can be defined and is not what the operand means
(`label_taken_for_number`). All other names of labels are labels (`classify_label`,
`readImmediate_label`).

Main statement: `label_leads_to_address`. -/

namespace Mcs51.Instruction

/-! ### The bytes of a slot -/

/-- The bytes of the slot with the given number, the operands being kept in their order. -/
def Form.slotBytes (f : Form) (args : List UInt8) (i : Nat) : List UInt8 :=
  (args.drop (slotsWidth (f.slots.take i))).take ((f.slots[i]?.map Slot.width).getD 0)

/-- The slots for a code address. -/
def codeSlots : List Slot := [.relative, .page, .absolute]

/-- The code address that the bytes of a slot lead to. The opcode counts for a jump within a page,
and the address of the next instruction for that and for a branch. -/
def codeAddress? (next : UInt16) (op : UInt8) : Slot → List UInt8 → Option UInt16
  | .relative, [b] => some (branchAddress next b)
  | .page, [b] => some (pageAddress next op b)
  | .absolute, [high, low] => some (wordAddress high low)
  | _, _ => none

variable {symbols : Table Text UInt16}

/-- What all bytes of an instruction say, the bytes of each slot say. -/
theorem Spells.says_at {next : UInt16} {op : UInt8} : ∀ {ps : List (Slot × Operand)}
    {bytes : List UInt8} {i : Nat} {slot : Slot} {operand : Operand},
    Spells symbols next op ps bytes → ps[i]? = some (slot, operand) →
      Says symbols next op slot operand
        ((bytes.drop (slotsWidth ((ps.map Prod.fst).take i))).take slot.width)
  | [], _, _, _, _, _, hi => by simp at hi
  | p :: ps, bytes, 0, slot, operand, h, hi => by
    obtain rfl : p = (slot, operand) := by simpa using hi
    exact h.1
  | (s, o) :: ps, bytes, i + 1, slot, operand, h, hi => by
    have hrest := Spells.says_at h.2 (by simpa using hi)
    have hwidth : slotsWidth (((s, o) :: ps).map Prod.fst |>.take (i + 1)) =
        s.width + slotsWidth ((ps.map Prod.fst).take i) := rfl
    rw [hwidth, ← List.drop_drop]
    exact hrest

/-- A slot takes as many bytes as it is wide. -/
theorem Says.length {next : UInt16} {op : UInt8} {slot : Slot} {operand : Operand}
    {bytes : List UInt8} (h : Says symbols next op slot operand bytes) :
    bytes.length = slot.width := by
  unfold Says at h
  split at h
  all_goals first | rfl | exact h.1.symm | exact h.elim

/-- Where the operand of a slot for a code address is a label, its bytes lead to the label. -/
theorem codeAddress?_of_says {next : UInt16} {op : UInt8} {slot : Slot} {name : Text}
    {bytes : List UInt8} (hslot : slot ∈ codeSlots)
    (h : Says symbols next op slot (.address (.label name)) bytes) :
    codeAddress? next op slot bytes = symbols.lookup name := by
  simp only [codeSlots, List.mem_cons, List.not_mem_nil, or_false] at hslot
  rcases hslot with rfl | rfl | rfl
  · obtain ⟨b, rfl⟩ := List.length_eq_one_iff.mp h.length
    exact h.symm
  · obtain ⟨b, rfl⟩ := List.length_eq_one_iff.mp h.length
    exact h.symm
  · obtain ⟨high, low, rfl⟩ := List.length_eq_two.mp h.length
    exact h.symm

/-! ### Names of labels -/

theorem fixedOperand?_ne_address {token : Text} {v : Value} :
    fixedOperand? token ≠ some (.address v) := by
  have hnamed : ∀ p ∈ namedOperands, ∀ v, p.2 ≠ .address v := by
    intro p hp v
    simp only [namedOperands, List.mem_cons, List.not_mem_nil, or_false] at hp
    rcases hp with rfl | rfl | rfl | rfl | rfl | rfl | rfl <;> simp
  unfold fixedOperand?
  split
  · next p hp => exact fun h => hnamed p (List.mem_of_find?_eq_some hp) v (Option.some.inj h)
  · split
    · simp
    · cases registerNumber? token <;> simp

/-- A token that is read as an address is read by the rules for an address. -/
theorem readAddress_of_classify {token : Text} {v : Value}
    (h : classify token = .ok (.address v)) : readAddress token = .ok v := by
  unfold classify at h
  split at h
  · next o ho =>
    rw [Except.ok.inj h] at ho
    exact absurd ho fixedOperand?_ne_address
  · split at h
    · obtain ⟨w, -, hw⟩ := Source.except_map_ok h
      simp at hw
    · obtain ⟨w, -, hw⟩ := Source.except_map_ok h
      simp at hw
    · obtain ⟨w, hw, rfl⟩ : ∃ w, readAddress token = .ok w ∧ v = w := by
        obtain ⟨w, hw, hv⟩ := Source.except_map_ok h
        exact ⟨w, hw, Operand.address.inj hv⟩
      exact hw

/-- **A name is read as a label** where an address may stand, unless it names a special function
register. -/
theorem classify_label {name : Text} {v : Value} (hident : name.isIdent = true)
    (hname : specialRegister? name = none) (h : classify name = .ok (.address v)) :
    v = .label name := by
  have hread := readAddress_of_classify h
  unfold readAddress at hread
  rw [hname] at hread
  cases name with
  | nil => simp [Text.isIdent] at hident
  | cons c rest =>
    have hstart : Text.isIdentStart c = true := by
      simp only [Text.isIdent, Bool.and_eq_true] at hident
      exact hident.1
    simp only [hstart, hident, if_true] at hread
    exact (Except.ok.inj hread).symm

/-- **A name is read as a label** after `#`, unless it is a hexadecimal literal. -/
theorem readImmediate_label {name : Text} (hident : name.isIdent = true)
    (hname : name.readHex? = none) : readImmediate name = .ok (.label name) := by
  rw [readImmediate, hname]
  exact if_pos hident

theorem classifyAll_getElem? : ∀ {tokens : List Text} {operands : List Operand} {i : Nat}
    {token : Text}, classifyAll tokens = .ok operands → tokens[i]? = some token →
      ∃ o, operands[i]? = some o ∧ classify token = .ok o
  | [], _, _, _, _, hi => by simp at hi
  | t :: tokens, operands, i, token, h, hi => by
    simp only [classifyAll] at h
    split at h
    · simp at h
    · next o ho =>
      obtain ⟨os, hos, rfl⟩ := Source.except_map_ok h
      cases i with
      | zero =>
        obtain rfl : t = token := by simpa using hi
        exact ⟨o, rfl, ho⟩
      | succ i =>
        obtain ⟨o', ho', hread⟩ := classifyAll_getElem? hos (by simpa using hi)
        exact ⟨o', by simpa using ho', hread⟩

/-! ### Labels in an instruction -/

theorem Form.stored_getElem? {f : Form} {operands : List Operand} {i : Nat} {slot : Slot}
    {o : Operand} (hne : f.opcode ≠ swappedOpcode) (hslot : f.slots[i]? = some slot)
    (ho : operands[i]? = some o) : (f.stored operands)[i]? = some (slot, o) := by
  rw [stored, if_neg hne]
  exact List.getElem?_zip_eq_some.mpr ⟨hslot, ho⟩

/-- **A label in a slot for a code address.** -/
theorem Reads.codeAddress? {n : Nat} {code name : Text} {op : UInt8} {args : List UInt8} {i : Nat}
    {slot : Slot} (h : Reads symbols n code op args) (hident : name.isIdent = true)
    (hname : specialRegister? name = none) (hslot : (formOf op).slots[i]? = some slot)
    (hcode : slot ∈ codeSlots) (htoken : (tokenize code)[i + 1]? = some name) :
    Instruction.codeAddress? (UInt16.ofNat (n + 1 + args.length)) op slot
      ((formOf op).slotBytes args i) = symbols.lookup name := by
  obtain ⟨word, tokens, operands, htok, -, hclass, hadmits, hspells⟩ := h.spells
  rw [htok, List.getElem?_cons_succ] at htoken
  obtain ⟨o, ho, hread⟩ := classifyAll_getElem? hclass htoken
  obtain ⟨hcat, hop⟩ := formOf_spec op
  have hne : (formOf op).opcode ≠ swappedOpcode := by
    intro hswapped
    have hmem := List.mem_of_getElem? hslot
    rw [slots_swapped hcat hswapped] at hmem
    obtain rfl : slot = .direct := by simpa using hmem
    simp [codeSlots] at hcode
  have hstored := Form.stored_getElem? hne hslot ho
  have hfits : o.fits slot = true :=
    Form.fits_stored hadmits _ (List.mem_of_getElem? hstored)
  obtain ⟨v, rfl⟩ : ∃ v, o = .address v := by
    simp only [codeSlots, List.mem_cons, List.not_mem_nil, or_false] at hcode
    rcases hcode with rfl | rfl | rfl <;> cases o <;> first | exact ⟨_, rfl⟩ | cases hfits
  obtain rfl := classify_label hident hname hread
  have hsays := hspells.says_at hstored
  rw [Form.map_fst_stored hcat hadmits] at hsays
  rw [← codeAddress?_of_says hcode hsays, Form.slotBytes, hslot]
  rfl

set_option maxRecDepth 4000 in
theorem slots_dataPointer {f : Form} {s : Slot} (hf : f ∈ catalog)
    (hslots : f.slots = [.dataPointer, s]) : s = .immediateWord := by
  have hall : (catalog.all fun f => f.slots.head? != some .dataPointer ||
      f.slots.tail.all (· == .immediateWord)) = true := by
    decide
  have := List.all_eq_true.mp hall f hf
  simpa [hslots] using this

/-- **A label for the data pointer.** -/
theorem Reads.wordAddress {n : Nat} {code word target name : Text} {op : UInt8} {args : List UInt8}
    (h : Reads symbols n code op args) (hident : name.isIdent = true)
    (hname : name.readHex? = none) (htokens : tokenize code = [word, target, '#' :: name])
    (htarget : target.sameWord "DPTR".toList = true) :
    ∃ high low, args = [high, low] ∧
      symbols.lookup name = some (Instruction.wordAddress high low) := by
  obtain ⟨word', tokens, operands, htok, -, hclass, hadmits, hspells⟩ := h.spells
  obtain ⟨rfl, rfl⟩ : word = word' ∧ [target, '#' :: name] = tokens := by
    rw [htokens] at htok
    exact List.cons.inj htok
  have hpointer : classify target = .ok .dataPointer := by
    have hfixed : fixedOperand? target = some .dataPointer := by
      rw [fixedOperand?_congr (Text.sameWord_iff.mp htarget)]
      decide
    simp only [classify, hfixed]
  have hvalue : classify ('#' :: name) = .ok (.immediate (.label name)) := by
    simp [classify, fixedOperand?_of_head (c := '#') (by decide), readImmediate_label hident hname,
      Except.map]
  obtain rfl : operands = [.dataPointer, .immediate (.label name)] := by
    simp only [classifyAll, hpointer, hvalue, Except.map, Except.ok.injEq] at hclass
    exact hclass.symm
  obtain ⟨hcat, -⟩ := formOf_spec op
  obtain ⟨hlen, hfits⟩ := Form.admits_iff.mp hadmits
  obtain ⟨s₁, s₂, hslots⟩ := List.length_eq_two.mp hlen
  rw [hslots] at hfits
  obtain rfl : s₁ = .dataPointer := by
    have := hfits (s₁, .dataPointer) (by simp)
    cases s₁ <;> first | rfl | cases this
  obtain rfl := slots_dataPointer hcat hslots
  have hne : (formOf op).opcode ≠ swappedOpcode := by
    intro hswapped
    have := slots_swapped hcat hswapped
    rw [hslots] at this
    simp at this
  rw [Form.stored, if_neg hne, hslots] at hspells
  obtain ⟨-, hsays, -⟩ := hspells
  have hlength : args.length = 2 := by
    have hwidth := h.length
    rw [length_form h.assigned, hslots] at hwidth
    exact (Nat.add_left_cancel hwidth).symm
  obtain ⟨high, low, rfl⟩ := List.length_eq_two.mp hlength
  exact ⟨high, low, rfl, hsays⟩

end Mcs51.Instruction

namespace Mcs51.Object

open Instruction Source

/-! ### Labels in a program -/

theorem mem_of_lookup_eq_some {symbols : Table Text UInt16} {name : Text} {a : UInt16}
    (h : symbols.lookup name = some a) : (name, a) ∈ symbols := by
  induction symbols with
  | nil => simp at h
  | cons p symbols ih =>
    rw [List.lookup_cons] at h
    split at h
    · next hp =>
      obtain rfl := Option.some.inj h
      rw [beq_iff_eq.mp hp]
      exact List.mem_cons_self
    · exact List.mem_cons_of_mem _ (ih h)

theorem Takes.names_isIdent {s t : Session} {line : Text} {new : List Placement}
    (h : Takes s line t new) (hs : ∀ p ∈ s.symbols, p.1.isIdent = true) :
    ∀ p ∈ t.symbols, p.1.isIdent = true := by
  cases h with
  | marker step counter symbols entries => rwa [symbols]
  | @statement st _ step reads defines acts entries =>
    generalize st.label = label, t.symbols = symbols at defines
    cases defines with
    | none => exact hs
    | some ident =>
      intro p hp
      rcases List.mem_append.mp hp with hp | hp
      · exact hs p hp
      · rw [List.mem_singleton.mp hp]
        exact ident

/-- All names of labels are identifiers. -/
theorem Run.names_isIdent {s t : Session} {lines : List Text} {ps : List Placement}
    (h : Run s lines t ps) (hs : ∀ p ∈ s.symbols, p.1.isIdent = true) :
    ∀ p ∈ t.symbols, p.1.isIdent = true := by
  induction h with
  | nil => exact hs
  | cons takes rest ih => exact ih (takes.names_isIdent hs)

/-- **The bytes of a line.** The bytes of an instruction stand in the image after one byte for each
entry of the lines before, and they read as the instruction. -/
theorem reads_of_line {file : Text} {origin : UInt16} {before after : List Text}
    {line code : Text} {label : Option Text} {s : Session} {image : Image}
    (hfeed : (Session.start file origin).feed (before ++ line :: after) = (s, none))
    (hlink : link s.symbols s.entries.toList = .ok image)
    (hm : Marker.ofLine? line = none)
    (hst : Statement.ofLine? line = some ⟨label, .instruction code⟩) :
    ∃ n op args front back, image = front ++ placeBytes n (op :: args) ++ back ∧
      front.length = (entriesAfter file origin before).length ∧
      Reads s.symbols n code op args := by
  obtain ⟨u, v, e, ps, qs, hu, hps, hassemble, htakes, hqs⟩ :=
    placement_of_line (Session.walk_of_feed hfeed) hm hst
  have hbefore : entriesAfter file origin before = ps.flatMap Placement.entries := by
    rw [entriesAfter, hu]
    exact hps.entries_eq
  have hstream : Stream ((Placement.mk code v.stack.pos u.counter e).entries ++
      qs.flatMap Placement.entries) := stream_placement hassemble hqs.stream
  rw [entries_of_line hps htakes hqs] at hlink
  have hres := link_ok (hps.stream.append hstream) hlink
  obtain ⟨front, rest, rfl, hfront, hrest⟩ := (resolves_append hps.stream hstream).mp hres
  obtain ⟨op, args, back, rfl, hbecomes, -⟩ := resolves_placement hassemble hqs.stream hrest
  refine ⟨u.counter, op, args, front, back, (List.append_assoc _ _ _).symm, ?_,
    reads_of_assemble hassemble hbecomes⟩
  have hlength := congrArg List.length hfront.addresses
  rw [hbefore]
  simpa using hlength

/-- **A label leads to its address.** If both passes succeed, the bytes of the instruction on any
line stand in the image after one byte for each entry of the lines before. Where an operand for a
code address is the name of a label, and no special function register has that name, its bytes lead
to the address of the label. The word that goes to the data pointer is the address of a label whose
name stands after `#` and is not a hexadecimal literal. -/
theorem label_leads_to_address {file : Text} {origin : UInt16} {before after : List Text}
    {line code : Text} {label : Option Text} {s : Session} {image : Image}
    (hfeed : (Session.start file origin).feed (before ++ line :: after) = (s, none))
    (hlink : link s.symbols s.entries.toList = .ok image)
    (hm : Marker.ofLine? line = none)
    (hst : Statement.ofLine? line = some ⟨label, .instruction code⟩) :
    ∃ n op args front back, image = front ++ placeBytes n (op :: args) ++ back ∧
      front.length = (entriesAfter file origin before).length ∧
      (formOf op).length = 1 + args.length ∧
      ∀ name a, s.symbols.lookup name = some a →
        (∀ i slot, (formOf op).slots[i]? = some slot → slot ∈ codeSlots →
          (tokenize code)[i + 1]? = some name → specialRegister? name = none →
          codeAddress? (UInt16.ofNat (n + 1 + args.length)) op slot
            ((formOf op).slotBytes args i) = some a) ∧
        (∀ word target : Text, tokenize code = [word, target, '#' :: name] →
          target.sameWord "DPTR".toList = true → name.readHex? = none →
          ∃ high low, args = [high, low] ∧ wordAddress high low = a) := by
  obtain ⟨n, op, args, front, back, himage, hfront, hreads⟩ := reads_of_line hfeed hlink hm hst
  refine ⟨n, op, args, front, back, himage, hfront, hreads.length, fun name a ha => ?_⟩
  have hident : name.isIdent = true := by
    obtain ⟨ps, hrun⟩ := run_of_walk (Session.walk_of_feed hfeed)
    exact hrun.names_isIdent (by simp [Session.start]) _ (mem_of_lookup_eq_some ha)
  constructor
  · intro i slot hslot hcode htoken hname
    rw [hreads.codeAddress? hident hname hslot hcode htoken, ha]
  · intro word target htokens htarget hname
    obtain ⟨high, low, rfl, hword⟩ := hreads.wordAddress hident hname htokens htarget
    exact ⟨high, low, rfl, Option.some.inj (hword.symm.trans ha)⟩

/-- A loop with a branch back to its first line, whose operand follows another one. -/
def spinLines : List Text :=
  ["spin: MOV DPTR,#last".toList] ++ " cjne A,#05,spin".toList :: ["last: ajmp spin".toList]

/-- The image of `spinLines` from address `800` on. -/
def spinImage : Image :=
  [(0x800, 0x90), (0x801, 0x08), (0x802, 0x06), (0x803, 0xB4), (0x804, 0x05), (0x805, 0xFA),
    (0x806, 0x01), (0x807, 0x00)]

theorem label_leads_to_address_spin :
    ∃ s, (Session.start "main.asm".toList 0x800).feed spinLines = (s, none) ∧
      link s.symbols s.entries.toList = .ok spinImage ∧
      ∃ n op args front back, spinImage = front ++ placeBytes n (op :: args) ++ back ∧
        front.length = 3 ∧ codeAddress? (UInt16.ofNat (n + 1 + args.length)) op .relative
          ((formOf op).slotBytes args 2) = some 0x800 := by
  have hfed : ((Session.start "main.asm".toList 0x800).feed spinLines).2 = none ∧
      link ((Session.start "main.asm".toList 0x800).feed spinLines).1.symbols
        ((Session.start "main.asm".toList 0x800).feed spinLines).1.entries.toList =
          .ok spinImage ∧
      ((Session.start "main.asm".toList 0x800).feed spinLines).1.symbols.lookup "spin".toList =
        some 0x800 := by
    decide +kernel
  have hbefore : (entriesAfter "main.asm".toList 0x800
      ["spin: MOV DPTR,#last".toList]).length = 3 := by
    decide +kernel
  generalize hfeed : (Session.start "main.asm".toList 0x800).feed spinLines = fed at *
  obtain ⟨s, stop⟩ := fed
  obtain ⟨rfl, hlink, hspin⟩ := hfed
  have hst : Statement.ofLine? " cjne A,#05,spin".toList =
      some ⟨none, .instruction "cjne A,#05,spin".toList⟩ := by
    decide +kernel
  obtain ⟨n, op, args, front, back, himage, hfront, -, hlabels⟩ :=
    label_leads_to_address hfeed hlink (by decide +kernel) hst
  rw [hbefore] at hfront
  obtain rfl : op = 0xB4 := by
    have hop : spinImage[front.length]? = some (UInt16.ofNat n, op) := by
      rw [himage]
      simp [placeBytes]
    rw [hfront] at hop
    exact (Prod.mk.inj (Option.some.inj hop)).2.symm
  exact ⟨s, rfl, hlink, n, 0xB4, args, front, back, himage, hfront,
    (hlabels _ _ hspin).1 2 .relative (by decide +kernel) (by decide) (by decide +kernel)
      (by decide +kernel)⟩

/-- **A label may be taken for a number.** `B` is a special function register and `FACE` a
hexadecimal literal: the branch does not lead to the label `B`, and the word is not the address of
the label `FACE`. -/
theorem label_taken_for_number :
    let lines := ["B: SJMP B".toList, "FACE: MOV DPTR,#FACE".toList]
    let s := ((Session.start "main.asm".toList 0).feed lines).1
    ((Session.start "main.asm".toList 0).feed lines).2 = none ∧
      s.symbols = [("B".toList, 0), ("FACE".toList, 2)] ∧
      link s.symbols s.entries.toList =
        .ok (placeBytes 0 [0x80, 0xF0] ++ placeBytes 2 [0x90, 0xFA, 0xCE]) ∧
      (formOf 0x80).slots = [.relative] ∧
      codeAddress? 2 0x80 .relative [0xF0] ≠ s.symbols.lookup "B".toList ∧
      (formOf 0x90).slots = [.dataPointer, .immediateWord] ∧
      some (wordAddress 0xFA 0xCE) ≠ s.symbols.lookup "FACE".toList := by
  decide +kernel

end Mcs51.Object
