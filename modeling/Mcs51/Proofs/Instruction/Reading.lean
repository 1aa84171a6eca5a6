import Mcs51.Proofs.Instruction.Form
import Mcs51.Table

/-! # Reading an instruction back

What a processor reads out of the bytes of an instruction, and what a source line says. A branch, a
jump within a page and a word each name a code address (`branchAddress`, `pageAddress`,
`wordAddress`), and these undo what the assembler computes (`displacement_ok`, `foldPage_ok`,
`wordAddress_bytes`).

`Says` compares the bytes of one slot with an operand, once labels have addresses; `Spells` does so
for all operands of an instruction, slot after slot. `Written` is the way from the fields of an
encoding to bytes, and `spells_of_fill` closes the circle: the bytes written for the fields of a
filled form say what the operands say. -/

namespace Mcs51.Instruction

/-! ### Code addresses -/

/-- A byte as a number in two's complement. -/
def signed (b : UInt8) : Int := if b.toNat < 128 then b.toNat else (b.toNat : Int) - 256

/-- Where a branch goes that keeps a distance from the next instruction. -/
def branchAddress (next : UInt16) (b : UInt8) : UInt16 := UInt16.ofInt (next.toNat + signed b)

/-- Where a jump goes that keeps three address bits in its opcode and eight after it: into the page
of the next instruction. -/
def pageAddress (next : UInt16) (opcode low : UInt8) : UInt16 :=
  UInt16.ofNat (next.toNat / 2048 * 2048 + opcode.toNat / 32 * 256 + low.toNat)

/-- The word of two bytes, the high one first. -/
def wordAddress (high low : UInt8) : UInt16 := UInt16.ofNat (high.toNat * 256 + low.toNat)

theorem toNat_lowByte (w : UInt16) : (lowByte w).toNat = w.toNat % 256 := by
  simp [lowByte]

theorem toNat_highByte (w : UInt16) : (highByte w).toNat = w.toNat / 256 := by
  have := w.toNat_lt
  simp [highByte, Nat.shiftRight_eq_div_pow]
  omega

theorem wordAddress_bytes (w : UInt16) : wordAddress (highByte w) (lowByte w) = w := by
  apply UInt16.toNat.inj
  have := w.toNat_lt
  rw [wordAddress, toNat_highByte, toNat_lowByte, UInt16.toNat_ofNat']
  omega

theorem signed_ofInt {i : Int} (h1 : -128 ≤ i) (h2 : i ≤ 127) : signed (UInt8.ofInt i) = i := by
  have h : (UInt8.ofInt i).toNat = (i % 256).toNat := by
    unfold UInt8.ofInt
    rw [UInt8.toNat_ofNat']
    omega
  unfold signed
  rw [h]
  split_ifs <;> omega

theorem displacement_ok {next target : UInt16} {d : UInt8} (h : displacement next target = .ok d) :
    branchAddress next d = target := by
  unfold displacement at h
  simp only at h
  split_ifs at h with hr
  · rw [← Except.ok.inj h, branchAddress, signed_ofInt hr.1 hr.2]
    apply UInt16.toNat.inj
    have := target.toNat_lt
    unfold UInt16.ofInt
    rw [UInt16.toNat_ofNat']
    omega

theorem toNat_and_page (w : UInt16) : (w &&& 0xF800).toNat = w.toNat / 2048 * 2048 := by
  have hw := w.toNat_lt
  rw [UInt16.toNat_and]
  show w.toNat &&& (2 ^ 5 - 1) * 2 ^ 11 = w.toNat / 2 ^ 11 * 2 ^ 11
  apply Nat.eq_of_testBit_eq
  intro i
  rw [Nat.testBit_and, Nat.testBit_mul_two_pow, Nat.testBit_mul_two_pow, Nat.testBit_two_pow_sub_one,
    Nat.testBit_div_two_pow]
  by_cases h1 : 11 ≤ i
  · by_cases h2 : i - 11 < 5
    · simp [h1, h2]
    · have hbit : w.toNat.testBit i = false :=
        Nat.testBit_lt_two_pow (Nat.lt_of_lt_of_le hw (Nat.pow_le_pow_right (by omega) (by omega)))
      simp [h1, hbit]
  · simp [h1]

theorem and_page_eq_iff {a b : UInt16} :
    a &&& 0xF800 = b &&& 0xF800 ↔ a.toNat / 2048 = b.toNat / 2048 := by
  rw [← UInt16.toNat_inj, toNat_and_page, toNat_and_page]
  omega

theorem toNat_withPage (opcode : UInt8) (target : UInt16) :
    (((target >>> 8) &&& 0x07).toUInt8 <<< 5 ||| (opcode &&& 0x1F)).toNat =
      target.toNat / 256 % 8 * 32 + opcode.toNat % 32 := by
  have hpage : ((target >>> 8) &&& 0x07).toUInt8.toNat = target.toNat / 256 % 8 := by
    have h7 := Nat.and_two_pow_sub_one_eq_mod (target.toNat / 256) 3
    simp only [UInt16.toNat_toUInt8, UInt16.toNat_and, UInt16.toNat_shiftRight]
    show ((target.toNat >>> 8) &&& (2 ^ 3 - 1)) % 2 ^ 8 = _
    rw [Nat.shiftRight_eq_div_pow, h7]
    omega
  have hlow : (opcode &&& 0x1F).toNat = opcode.toNat % 32 :=
    Nat.and_two_pow_sub_one_eq_mod opcode.toNat 5
  have hhigh : (((target >>> 8) &&& 0x07).toUInt8 <<< 5).toNat = (target.toNat / 256 % 8) <<< 5 := by
    rw [UInt8.toNat_shiftLeft, hpage]
    show _ <<< 5 % 2 ^ 8 = _
    rw [Nat.shiftLeft_eq]
    omega
  rw [UInt8.toNat_or, hhigh, hlow, ← Nat.shiftLeft_add_eq_or_of_lt (by omega), Nat.shiftLeft_eq]

/-- A target can be named exactly if it is in the page of the next instruction. -/
theorem foldPage_ok_iff {opcode op : UInt8} {next target : UInt16} :
    foldPage opcode next target = .ok op ↔
      target.toNat / 2048 = next.toNat / 2048 ∧
        op.toNat = target.toNat / 256 % 8 * 32 + opcode.toNat % 32 := by
  unfold foldPage
  by_cases h : target &&& 0xF800 = next &&& 0xF800
  · rw [if_neg (by simpa using h), Except.ok.injEq, ← UInt8.toNat_inj, toNat_withPage]
    simp [and_page_eq_iff.mp h, eq_comm]
  · rw [if_pos h]
    simp [mt and_page_eq_iff.mpr h]

theorem foldPage_ok {opcode op : UInt8} {next target : UInt16}
    (h : foldPage opcode next target = .ok op) :
    op.toNat % 32 = opcode.toNat % 32 ∧ pageAddress next op (lowByte target) = target := by
  obtain ⟨hpage, hop⟩ := foldPage_ok_iff.mp h
  refine ⟨by omega, ?_⟩
  apply UInt16.toNat.inj
  have := target.toNat_lt
  rw [pageAddress, UInt16.toNat_ofNat', toNat_lowByte]
  omega

/-! ### Operands and their bytes -/

/-- The number that a value stands for. -/
def Value.resolve (symbols : Table Text UInt16) : Value → Option UInt16
  | .const n => some n
  | .label name => symbols.lookup name

/-- The bytes of a slot say what the operand says. The opcode counts for a jump within a page, and
the address of the next instruction for that and for a branch. A number in place of a distance is
the distance itself. -/
def Says (symbols : Table Text UInt16) (next : UInt16) (op : UInt8) (slot : Slot)
    (operand : Operand) (bytes : List UInt8) : Prop :=
  match slot, operand, bytes with
  | .immediate, .immediate v, [b] | .direct, .address v, [b] | .bit, .address v, [b]
  | .complement, .complement v, [b] => v = .const b.toUInt16
  | .immediateWord, .immediate v, [high, low] | .absolute, .address v, [high, low] =>
    v.resolve symbols = some (wordAddress high low)
  | .relative, .address (.const n), [b] => n = b.toUInt16
  | .relative, .address (.label name), [b] => symbols.lookup name = some (branchAddress next b)
  | .page, .address v, [b] => v.resolve symbols = some (pageAddress next op b)
  | slot, operand, [] => slot.width = 0 ∧ operand.fits slot = true
  | _, _, _ => False

/-- The bytes say what the operands say, each as many as its slot is wide. -/
def Spells (symbols : Table Text UInt16) (next : UInt16) (op : UInt8) :
    List (Slot × Operand) → List UInt8 → Prop
  | [], bytes => bytes = []
  | (slot, operand) :: rest, bytes =>
    Says symbols next op slot operand (bytes.take slot.width) ∧
      Spells symbols next op rest (bytes.drop slot.width)

/-- The operands in the order in which their bytes are kept. -/
def Form.stored (f : Form) (operands : List Operand) : List (Slot × Operand) :=
  if f.opcode = swappedOpcode then (f.slots.zip operands).reverse else f.slots.zip operands

/-- The bytes written for fields from an address on, none of them a label in a page. -/
inductive Written (symbols : Table Text UInt16) : Nat → List Field → List UInt8 → Prop
  | nil {n : Nat} : Written symbols n [] []
  | byte {n : Nat} {b : UInt8} {fields : List Field} {bytes : List UInt8}
      (rest : Written symbols (n + 1) fields bytes) :
      Written symbols n (.byte b :: fields) (b :: bytes)
  | relative {n : Nat} {name : Text} {target : UInt16} {d : UInt8} {fields : List Field}
      {bytes : List UInt8} (found : symbols.lookup name = some target)
      (reached : displacement (UInt16.ofNat n + 1) target = .ok d)
      (rest : Written symbols (n + 1) fields bytes) :
      Written symbols n (.label name .relative :: fields) (d :: bytes)
  | absolute {n : Nat} {name : Text} {target : UInt16} {fields : List Field} {bytes : List UInt8}
      (found : symbols.lookup name = some target) (rest : Written symbols (n + 2) fields bytes) :
      Written symbols n (.label name .absolute :: fields)
        (highByte target :: lowByte target :: bytes)

variable {symbols : Table Text UInt16}

theorem Written.of_append : ∀ {fs gs : List Field} {n : Nat} {bytes : List UInt8},
    Written symbols n (fs ++ gs) bytes → ∃ bs cs, bytes = bs ++ cs ∧ Written symbols n fs bs ∧
      Written symbols (n + bs.length) gs cs
  | [], _, _, bytes, h => ⟨[], bytes, rfl, .nil, h⟩
  | f :: fs, gs, n, bytes, h => by
    cases h with
    | byte rest =>
      obtain ⟨bs, cs, rfl, hbs, hcs⟩ := rest.of_append
      exact ⟨_ :: bs, cs, rfl, .byte hbs, by rwa [List.length_cons, Nat.add_left_comm, Nat.add_comm]⟩
    | relative found reached rest =>
      obtain ⟨bs, cs, rfl, hbs, hcs⟩ := rest.of_append
      refine ⟨_ :: bs, cs, rfl, .relative found reached hbs, ?_⟩
      rwa [List.length_cons, Nat.add_comm bs.length, ← Nat.add_assoc]
    | absolute found rest =>
      obtain ⟨bs, cs, rfl, hbs, hcs⟩ := rest.of_append
      refine ⟨_ :: _ :: bs, cs, rfl, .absolute found hbs, ?_⟩
      rwa [List.length_cons, List.length_cons, Nat.add_assoc bs.length, Nat.add_comm bs.length,
        ← Nat.add_assoc]

theorem byteOf_ok {v : Value} {b : UInt8} (h : byteOf v = .ok b) : v = .const b.toUInt16 := by
  cases v with
  | label name => simp [byteOf] at h
  | const n =>
    simp only [byteOf] at h
    split_ifs at h with hn
    rw [← Except.ok.inj h]
    congr 1
    apply UInt16.toNat.inj
    rw [UInt8.toNat_toUInt16, UInt16.toNat_toUInt8]
    omega

theorem map_byteOf_ok {v : Value} {op op' : UInt8} {fields : List Field}
    (h : ((byteOf v).map fun b => (op, [Field.byte b])) = .ok (op', fields)) :
    op' = op ∧ ∃ b, byteOf v = .ok b ∧ fields = [.byte b] := by
  cases hb : byteOf v with
  | error p => rw [hb] at h; cases h
  | ok b => rw [hb] at h; cases h; exact ⟨rfl, b, rfl, rfl⟩

theorem Written.eq_of_byte {n : Nat} {b : UInt8} {bytes : List UInt8}
    (h : Written symbols n [.byte b] bytes) : bytes = [b] := by
  cases h with | byte rest => cases rest; rfl

/-- The bytes of a word read as the word. -/
theorem resolve_of_written {n : Nat} {v : Value} {bytes : List UInt8}
    (h : Written symbols n (wordFields v) bytes) :
    ∃ high low, bytes = [high, low] ∧ v.resolve symbols = some (wordAddress high low) := by
  cases v with
  | const w =>
    cases h with | byte rest =>
      rw [rest.eq_of_byte]
      exact ⟨_, _, rfl, by rw [wordAddress_bytes]; rfl⟩
  | label name =>
    cases h with | absolute found rest =>
      cases rest
      exact ⟨_, _, rfl, by rw [wordAddress_bytes]; exact found⟩

theorem says_nil {next : UInt16} {op : UInt8} {slot : Slot} {operand : Operand}
    (hfit : operand.fits slot = true) (h0 : slot.width = 0) :
    Says symbols next op slot operand [] := by
  unfold Says
  split <;> simp_all

/-- **One slot.** What is written for the fields of an operand says what the operand says. -/
theorem says_of_fillSlot {pc next : UInt16} {op op' : UInt8} {slot : Slot} {operand : Operand}
    {fields : List Field} {n : Nat} {bytes : List UInt8} (hfit : operand.fits slot = true)
    (hpage : slot ≠ .page) (hfill : fillSlot pc op slot operand = .ok (op', fields))
    (hw : Written symbols n fields bytes)
    (hnext : slot = .relative → next = UInt16.ofNat n + UInt16.ofNat bytes.length) :
    op' = op ∧ bytes.length = slot.width ∧ Says symbols next op slot operand bytes := by
  have hnone (h : Except.ok (op, []) = fillSlot pc op slot operand) (h0 : slot.width = 0) :
      op' = op ∧ bytes.length = slot.width ∧ Says symbols next op slot operand bytes := by
    rw [← h] at hfill
    cases hfill
    cases hw
    exact ⟨rfl, h0.symm, says_nil hfit h0⟩
  have hone {v : Value} (h : (byteOf v).map (fun b => (op, [Field.byte b])) = .ok (op', fields)) :
      op' = op ∧ ∃ b, bytes = [b] ∧ v = .const b.toUInt16 := by
    obtain ⟨rfl, b, hb, rfl⟩ := map_byteOf_ok h
    exact ⟨rfl, b, hw.eq_of_byte, byteOf_ok hb⟩
  have htwo {v : Value} (h : Except.ok (op, wordFields v) = fillSlot pc op slot operand) :
      op' = op ∧ ∃ high low, bytes = [high, low] ∧
        v.resolve symbols = some (wordAddress high low) := by
    rw [← h] at hfill
    cases hfill
    exact ⟨rfl, resolve_of_written hw⟩
  cases operand with
  | immediate v =>
    cases slot with
    | immediate =>
      obtain ⟨hop, b, rfl, hv⟩ := hone hfill
      exact ⟨hop, rfl, hv⟩
    | immediateWord =>
      obtain ⟨hop, high, low, rfl, hv⟩ := htwo rfl
      exact ⟨hop, rfl, hv⟩
    | _ => cases hfit
  | complement v =>
    cases slot with
    | complement =>
      obtain ⟨hop, b, rfl, hv⟩ := hone hfill
      exact ⟨hop, rfl, hv⟩
    | _ => cases hfit
  | address v =>
    cases slot with
    | direct | bit =>
      obtain ⟨hop, b, rfl, hv⟩ := hone hfill
      exact ⟨hop, rfl, hv⟩
    | absolute =>
      obtain ⟨hop, high, low, rfl, hv⟩ := htwo rfl
      exact ⟨hop, rfl, hv⟩
    | relative =>
      cases v with
      | const m =>
        obtain ⟨hop, b, rfl, hv⟩ := hone hfill
        exact ⟨hop, rfl, Value.const.inj hv⟩
      | label name =>
        cases hfill
        cases hw with | relative found reached rest =>
          cases rest
          refine ⟨rfl, rfl, ?_⟩
          rw [hnext rfl]
          exact found.trans (congrArg some (displacement_ok reached).symm)
    | page => exact absurd rfl hpage
    | _ => cases hfit
  | _ =>
    -- a fixed operand fits only slots that live in the opcode
    cases slot <;> first | exact hnone rfl rfl | cases hfit

theorem fillSlots_cons_ok {pc : UInt16} {op op' : UInt8} {slot : Slot} {operand : Operand}
    {ps : List (Slot × Operand)} {fields : List Field}
    (h : fillSlots pc op ((slot, operand) :: ps) = .ok (op', fields)) :
    ∃ op₁ fields₁ fields₂, fillSlot pc op slot operand = .ok (op₁, fields₁) ∧
      fillSlots pc op₁ ps = .ok (op', fields₂) ∧ fields = fields₁ ++ fields₂ := by
  simp only [fillSlots] at h
  split at h
  · simp at h
  · next op₁ fields₁ hslot =>
    cases hrest : fillSlots pc op₁ ps with
    | error p => rw [hrest] at h; cases h
    | ok r => rw [hrest] at h; cases h; exact ⟨op₁, fields₁, r.2, hslot, hrest, rfl⟩

/-- **All slots.** What is written for the fields of the operands says what the operands say. A
distance has to come last, since it is kept from the byte after it. -/
theorem spells_of_fillSlots {pc next : UInt16} {op op' : UInt8} :
    ∀ {ps : List (Slot × Operand)} {fields : List Field} {n : Nat} {bytes : List UInt8},
      (∀ p ∈ ps, p.2.fits p.1 = true) → Slot.page ∉ ps.map Prod.fst →
      Slot.relative ∉ (ps.map Prod.fst).dropLast → fillSlots pc op ps = .ok (op', fields) →
      Written symbols n fields bytes → next = UInt16.ofNat n + UInt16.ofNat bytes.length →
      op' = op ∧ Spells symbols next op ps bytes
  | [], _, _, _, _, _, _, hfill, hw, _ => by
    cases hfill
    cases hw
    exact ⟨rfl, rfl⟩
  | (slot, operand) :: ps, fields, n, bytes, hfit, hpage, hrel, hfill, hw, hnext => by
    obtain ⟨op₁, fields₁, fields₂, hslot, hrest, rfl⟩ := fillSlots_cons_ok hfill
    obtain ⟨bs, cs, rfl, hbs, hcs⟩ := hw.of_append
    have hend : slot = .relative → next = UInt16.ofNat n + UInt16.ofNat bs.length := by
      rintro rfl
      cases ps with
      | nil =>
        cases hrest
        cases hcs
        rw [hnext, List.append_nil]
      | cons q ps => simp at hrel
    rw [List.map_cons, List.mem_cons, not_or] at hpage
    obtain ⟨rfl, hlen, hsays⟩ := says_of_fillSlot (hfit (slot, operand) (by simp))
      (Ne.symm hpage.1) hslot hbs hend
    have hrel' : Slot.relative ∉ (ps.map Prod.fst).dropLast := by
      cases ps with
      | nil => simp
      | cons q ps => exact fun h => hrel (List.mem_cons_of_mem _ h)
    have hnext' : next = UInt16.ofNat (n + bs.length) + UInt16.ofNat cs.length := by
      rw [hnext, List.length_append, UInt16.ofNat_add, UInt16.ofNat_add, UInt16.add_assoc]
    obtain ⟨rfl, hspells⟩ :=
      spells_of_fillSlots (fun p hp => hfit p (by simp [hp])) hpage.2 hrel' hrest hcs hnext'
    refine ⟨rfl, ?_, ?_⟩
    · rwa [← hlen, List.take_left]
    · rwa [← hlen, List.drop_left]

/-! ### Instructions -/

theorem page_not_mem_wordFields (v : Value) (name : Text) :
    Field.label name .page ∉ wordFields v := by
  cases v <;> simp [wordFields]

theorem fillSlot_page {pc : UInt16} {op op' : UInt8} {slot : Slot} {operand : Operand}
    {fields : List Field} {name : Text} (h : fillSlot pc op slot operand = .ok (op', fields))
    (hp : Field.label name .page ∈ fields) : slot = .page := by
  have hbyte {v : Value} (h : ((byteOf v).map fun b => (op, [Field.byte b])) = .ok (op', fields)) :
      False := by
    obtain ⟨-, b, -, rfl⟩ := map_byteOf_ok h
    simp at hp
  unfold fillSlot at h
  split at h
  case h_5 | h_6 => cases h; exact absurd hp (page_not_mem_wordFields _ _)
  case h_8 | h_11 => cases h; simp at hp
  case h_9 | h_10 => rfl
  all_goals exact (hbyte h).elim

/-- A label in a page comes from a slot for one. -/
theorem fillSlots_page {pc : UInt16} {name : Text} :
    ∀ {ps : List (Slot × Operand)} {op op' : UInt8} {fields : List Field},
      fillSlots pc op ps = .ok (op', fields) → Field.label name .page ∈ fields →
      Slot.page ∈ ps.map Prod.fst
  | [], _, _, _, h, hp => by cases h; simp at hp
  | (slot, operand) :: ps, op, op', fields, h, hp => by
    obtain ⟨op₁, fields₁, fields₂, hslot, hrest, rfl⟩ := fillSlots_cons_ok h
    rcases List.mem_append.mp hp with hp | hp
    · simp [fillSlot_page hslot hp]
    · exact List.mem_cons_of_mem _ (fillSlots_page hrest hp)

theorem fill_ok {f : Form} {operands : List Operand} {pc : UInt16} {e : Encoding}
    (h : fill f operands pc = .ok e) :
    e.length = f.length ∧ ∃ fields, fillSlots pc f.opcode (f.slots.zip operands) =
      .ok (e.opcode, fields) ∧
      e.fields = if f.opcode = swappedOpcode then fields.reverse else fields := by
  unfold fill at h
  split at h
  · simp at h
  · next opcode fields hfill =>
    by_cases hlen : (Encoding.mk opcode
        (if f.opcode = swappedOpcode then fields.reverse else fields)).length = f.length
    · rw [if_pos hlen] at h
      cases h
      exact ⟨hlen, fields, hfill, rfl⟩
    · rw [if_neg hlen] at h
      simp at h

/-- The bytes of an encoding at an address: the opcode, and what follows it. A label in a page
changes the opcode. -/
inductive Encoding.Becomes (symbols : Table Text UInt16) (n : Nat) :
    Encoding → UInt8 → List UInt8 → Prop
  | plain {op : UInt8} {fields : List Field} {args : List UInt8}
      (written : Written symbols (n + 1) fields args) : Becomes symbols n ⟨op, fields⟩ op args
  | page {op op' : UInt8} {name : Text} {target : UInt16}
      (found : symbols.lookup name = some target)
      (folded : foldPage op (UInt16.ofNat n + 2) target = .ok op') :
      Becomes symbols n ⟨op, [.label name .page]⟩ op' [lowByte target]

/-- The bytes that fields add after the opcode. -/
def fieldsWidth (fields : List Field) : Nat := fields.foldr (fun f n => f.width + n) 0

theorem fieldsWidth_cons (f : Field) (fields : List Field) :
    fieldsWidth (f :: fields) = f.width + fieldsWidth fields :=
  rfl

theorem Encoding.length_eq (e : Encoding) : e.length = 1 + fieldsWidth e.fields := by
  obtain ⟨opcode, fields⟩ := e
  show fields.foldr (fun f n => f.width + n) 1 = 1 + fieldsWidth fields
  induction fields with
  | nil => rfl
  | cons f fields ih =>
    rw [List.foldr_cons, ih, fieldsWidth_cons]
    omega

theorem Written.length : ∀ {fields : List Field} {n : Nat} {bytes : List UInt8},
    Written symbols n fields bytes → fieldsWidth fields = bytes.length
  | [], _, _, h => by cases h; rfl
  | f :: fields, n, bytes, h => by
    cases h with
    | byte rest | relative _ _ rest | absolute _ rest =>
      rw [fieldsWidth_cons, rest.length]
      simp only [Field.width, List.length_cons]
      omega

theorem Encoding.Becomes.length {n : Nat} {e : Encoding} {op : UInt8} {args : List UInt8}
    (h : e.Becomes symbols n op args) : e.length = 1 + args.length := by
  cases h with
  | plain written => rw [length_eq, written.length]
  | page found folded => rfl

/-- The opcode and the bytes after it, read at an address, are the instruction on the line: the form
of the opcode has the mnemonic of the line and admits its operands, and the bytes are as many as the
form asks for and say what the operands say. -/
structure Reads (symbols : Table Text UInt16) (n : Nat) (line : Text) (op : UInt8)
    (args : List UInt8) : Prop where
  assigned : (formOf op).isAssigned = true
  length : (formOf op).length = 1 + args.length
  spells : ∃ word tokens operands, tokenize line = word :: tokens ∧
    (formOf op).mnemonic.name.sameWord word = true ∧ classifyAll tokens = .ok operands ∧
    (formOf op).admits operands = true ∧
    Spells symbols (UInt16.ofNat (n + 1 + args.length)) op ((formOf op).stored operands) args

theorem Form.admits_iff {f : Form} {operands : List Operand} :
    f.admits operands = true ↔
      f.slots.length = operands.length ∧ ∀ p ∈ f.slots.zip operands, p.2.fits p.1 = true := by
  simp [admits]

theorem Form.map_fst_stored {f : Form} {operands : List Operand} (hf : f ∈ catalog)
    (h : f.admits operands = true) : (f.stored operands).map Prod.fst = f.slots := by
  have hzip : (f.slots.zip operands).map Prod.fst = f.slots :=
    List.map_fst_zip (Nat.le_of_eq (admits_iff.mp h).1)
  unfold stored
  split_ifs with hop
  · rw [List.map_reverse, hzip, slots_swapped hf hop]
    rfl
  · exact hzip

theorem Form.fits_stored {f : Form} {operands : List Operand} (h : f.admits operands = true) :
    ∀ p ∈ f.stored operands, p.2.fits p.1 = true := by
  intro p hp
  apply (admits_iff.mp h).2
  unfold stored at hp
  split_ifs at hp
  · exact List.mem_reverse.mp hp
  · exact hp

theorem fillSlot_direct {pc : UInt16} {op op' : UInt8} {operand : Operand} {fields : List Field}
    (hfit : operand.fits .direct = true) (h : fillSlot pc op .direct operand = .ok (op', fields)) :
    op' = op ∧ ∃ b, fields = [.byte b] := by
  cases operand with
  | address v =>
    obtain ⟨hop, b, -, hfields⟩ := map_byteOf_ok h
    exact ⟨hop, b, hfields⟩
  | _ => cases hfit

/-- The fields of a filled form are those of the operands in the order in which they are kept. -/
theorem fillSlots_stored {f : Form} {operands : List Operand} {pc : UInt16} {e : Encoding}
    (hf : f ∈ catalog) (hadmits : f.admits operands = true) (h : fill f operands pc = .ok e) :
    fillSlots pc f.opcode (f.stored operands) = .ok (e.opcode, e.fields) := by
  obtain ⟨-, fields, hfill, hfields⟩ := fill_ok h
  unfold Form.stored
  by_cases hop : f.opcode = swappedOpcode
  · rw [if_pos hop] at hfields ⊢
    have hslots := slots_swapped hf hop
    obtain ⟨hlen, hfits⟩ := Form.admits_iff.mp hadmits
    rw [hslots] at hlen hfits hfill ⊢
    obtain ⟨a, b, rfl⟩ : ∃ a b, operands = [a, b] := by
      match operands, hlen with
      | [a, b], _ => exact ⟨a, b, rfl⟩
    obtain ⟨op₁, fields₁, fields₂, h₁, hrest, rfl⟩ := fillSlots_cons_ok hfill
    obtain ⟨op₂, fields₃, fields₄, h₂, hnil, rfl⟩ := fillSlots_cons_ok hrest
    obtain ⟨rfl, x, rfl⟩ := fillSlot_direct (hfits (.direct, a) (by simp)) h₁
    obtain ⟨rfl, y, rfl⟩ := fillSlot_direct (hfits (.direct, b) (by simp)) h₂
    obtain ⟨hop₂, rfl⟩ := Prod.mk.inj (Except.ok.inj hnil)
    rw [hfields, ← hop₂]
    simp only [List.zip_cons_cons, List.zip_nil_right, List.reverse_cons, List.reverse_nil,
      List.nil_append, List.singleton_append, fillSlots, h₁, h₂]
    rfl
  · rw [if_neg hop] at hfields ⊢
    rw [hfields]
    exact hfill

theorem Form.stored_page {f : Form} (h : f.slots = [.page]) (op : UInt8) (o : Operand) :
    { f with opcode := op }.stored [o] = [(.page, o)] := by
  simp [stored, h]

/-- A form for a jump within a page has one operand. -/
theorem fillSlot_of_page {f : Form} {operands : List Operand} {pc : UInt16} {e : Encoding}
    (hf : f ∈ catalog) (hadmits : f.admits operands = true) (h : fill f operands pc = .ok e)
    (hp : Slot.page ∈ f.slots) :
    f.slots = [.page] ∧ ∃ o, operands = [o] ∧ o.fits .page = true ∧
      fillSlot pc f.opcode .page o = .ok (e.opcode, e.fields) := by
  have hslots := slots_eq_page hf hp
  have hstored := fillSlots_stored hf hadmits h
  obtain ⟨hlen, hfits⟩ := Form.admits_iff.mp hadmits
  rw [hslots] at hlen hfits
  obtain ⟨o, rfl⟩ := List.length_eq_one_iff.mp hlen.symm
  rw [Form.stored_page hslots f.opcode o] at hstored
  obtain ⟨op₁, fields₁, fields₂, hslot, hnil, hfields⟩ := fillSlots_cons_ok hstored
  cases hnil
  rw [List.append_nil] at hfields
  rw [← hfields] at hslot
  exact ⟨hslots, o, rfl, hfits (.page, o) (by simp), hslot⟩

/-- A label in a page is all that follows its opcode. -/
theorem page_alone {line : Text} {pc : UInt16} {e : Encoding} {name : Text}
    (h : assemble line pc = .ok e) (hp : Field.label name .page ∈ e.fields) :
    e.fields = [.label name .page] := by
  obtain ⟨-, -, operands, f, -, -, hf, -, -, hadmits, hfill⟩ := assemble_ok h
  have hpage : Slot.page ∈ f.slots := by
    rw [← Form.map_fst_stored hf hadmits]
    exact fillSlots_page (fillSlots_stored hf hadmits hfill) hp
  obtain ⟨-, o, -, hfit, hslot⟩ := fillSlot_of_page hf hadmits hfill hpage
  cases o with
  | address v =>
    cases v with
    | const target =>
      simp only [fillSlot] at hslot
      cases hfold : foldPage f.opcode (pc + 2) target with
      | error p => rw [hfold] at hslot; cases hslot
      | ok op =>
        rw [hfold] at hslot
        rw [← (Prod.mk.inj (Except.ok.inj hslot)).2] at hp
        simp at hp
    | label name' =>
      have hfields := (Prod.mk.inj (Except.ok.inj hslot)).2
      rw [← hfields] at hp ⊢
      rw [List.mem_singleton.mp hp]
  | _ => cases hfit

/-- What an instruction with a page in its opcode becomes, as its operand says. -/
theorem becomes_page {n : Nat} {opcode op : UInt8} {operand : Operand} {e : Encoding}
    {args : List UInt8} (hfit : operand.fits .page = true)
    (hfill : fillSlot (UInt16.ofNat n) opcode .page operand = .ok (e.opcode, e.fields))
    (hb : e.Becomes symbols n op args) :
    op.toNat % 32 = opcode.toNat % 32 ∧ args.length = 1 ∧
      Says symbols (UInt16.ofNat n + 2) op .page operand args := by
  cases operand with
  | address v =>
    cases v with
    | const target =>
      simp only [fillSlot] at hfill
      cases hfold : foldPage opcode (UInt16.ofNat n + 2) target with
      | error p => rw [hfold] at hfill; cases hfill
      | ok op₁ =>
        rw [hfold] at hfill
        obtain ⟨hop, haddr⟩ := foldPage_ok hfold
        obtain ⟨op₂, fields⟩ := e
        cases hfill
        cases hb with | plain written =>
          rw [written.eq_of_byte]
          exact ⟨hop, rfl, congrArg some haddr.symm⟩
    | label name =>
      obtain ⟨op₂, fields⟩ := e
      cases hfill
      cases hb with
      | plain written => cases written
      | page found folded =>
        obtain ⟨hop, haddr⟩ := foldPage_ok folded
        exact ⟨hop, rfl, found.trans (congrArg some haddr.symm)⟩
  | _ => cases hfit

/-- **An instruction reads back.** Whatever bytes an encoding becomes at its address, they are the
instruction on the line it was made from. -/
theorem reads_of_assemble {line : Text} {n : Nat} {e : Encoding} {op : UInt8} {args : List UInt8}
    (h : assemble line (UInt16.ofNat n) = .ok e) (hb : e.Becomes symbols n op args) :
    Reads symbols n line op args := by
  obtain ⟨word, tokens, operands, f, htok, hclass, hf, hassigned, hword, hadmits, hfill⟩ :=
    assemble_ok h
  have hstored := fillSlots_stored hf hadmits hfill
  have hlength : f.length = 1 + args.length := (fill_ok hfill).1.symm.trans hb.length
  by_cases hpage : Slot.page ∈ f.slots
  · obtain ⟨hslots, o, rfl, hfit, hslot⟩ := fillSlot_of_page hf hadmits hfill hpage
    obtain ⟨hop, hargs, hsays⟩ := becomes_page hfit hslot hb
    have hform := formOf_page hf hslots hop
    refine ⟨by rw [hform]; exact hassigned, by rw [hform]; exact hlength,
      word, tokens, [o], htok, by rw [hform]; exact hword, hclass, by rw [hform]; exact hadmits, ?_⟩
    rw [hform, Form.stored_page hslots, hargs, UInt16.ofNat_add, UInt16.ofNat_add,
      UInt16.add_assoc]
    have htake : args.take Slot.page.width = args := List.take_of_length_le (Nat.le_of_eq hargs)
    exact ⟨by rw [htake]; exact hsays, List.drop_of_length_le (Nat.le_of_eq hargs)⟩
  · have hslots := Form.map_fst_stored hf hadmits
    cases hb with
    | page found folded =>
      have := fillSlots_page hstored (List.mem_singleton_self _)
      rw [hslots] at this
      exact absurd this hpage
    | plain written =>
      obtain ⟨hop, hspells⟩ := spells_of_fillSlots (Form.fits_stored hadmits)
        (by rwa [hslots]) (by rw [hslots]; exact relative_last hf) hstored written
        (UInt16.ofNat_add _ _)
      simp only at hop
      rw [← hop] at hspells
      have hform := formOf_opcode hf
      rw [← hop] at hform
      exact ⟨by rwa [hform], by rwa [hform], word, tokens, operands, htok, by rwa [hform], hclass,
        by rwa [hform], by rwa [hform]⟩

end Mcs51.Instruction
