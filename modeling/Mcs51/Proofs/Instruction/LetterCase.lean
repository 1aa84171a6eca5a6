import Mcs51.Proofs.Instruction.Length

/-! # Letter case in instructions

Only the names of labels keep their letters as they are written. A line in upper case has the same
tokens in upper case, and each step from a token to a field does the same with both: what lives in
the opcode, registers, mnemonics and literals are told by their letters in either case, and a name
goes through unread. So every step commutes with `upper`, which puts the names in a value, in an
operand or in a field into upper case and leaves all else (`classify_upper`, `fillSlot_upper`). It
does so for its failures as well: a problem may quote a name or a token, and the problem of the line
in upper case quotes it in upper case (`Problem.upper`).

`recase` says of a result what becomes of its value and of its problem, so that each step is one
equation. -/

namespace Mcs51

open Instruction

/-! ### Names in upper case -/

namespace Instruction

/-- The name of a label in upper case. -/
def Value.upper : Value → Value
  | .const n => .const n
  | .label name => .label name.upper

/-- The name of a label in upper case, where the operand has one. -/
def Operand.upper : Operand → Operand
  | .immediate v => .immediate v.upper
  | .address v => .address v.upper
  | .complement v => .complement v.upper
  | o => o

/-- The name of a label in upper case, where the field is one. -/
def Field.upper : Field → Field
  | .byte b => .byte b
  | .label name mode => .label name.upper mode

/-- An encoding with the names of its labels in upper case. -/
def Encoding.upper (e : Encoding) : Encoding := ⟨e.opcode, e.fields.map Field.upper⟩

end Instruction

/-- What a problem of an instruction quotes from the line, in upper case. -/
def Problem.upper : Problem → Problem
  | .unknownMnemonic word => .unknownMnemonic word.upper
  | .notLabel token => .notLabel token.upper
  | .notNumber token => .notNumber token.upper
  | .notImmediate token => .notImmediate token.upper
  | .labelAsByte name => .labelAsByte name.upper
  | p => p

theorem Problem.kind_upper (p : Problem) : p.upper.kind = p.kind := by
  cases p <;> rfl

/-- The problem of a stop in upper case. -/
def Stop.upper : Stop → Stop
  | .error e => .error ⟨e.problem.upper, e.pos⟩
  | .fault f => .fault f

/-- A result with its value changed, or else its problem. -/
def recase {ε α : Type} (g : ε → ε) (f : α → α) : Except ε α → Except ε α
  | .ok a => .ok (f a)
  | .error e => .error (g e)

section

variable {ε α β : Type} {g : ε → ε} {f : α → α} {f' : β → β}

@[simp] theorem recase_ok (a : α) : recase g f (.ok a) = .ok (f a) := rfl

/-- Two ways to change a value that agree around a function of it. -/
theorem map_recase {h h' : α → β} (x : Except ε α) (hf : ∀ a, h' (f a) = f' (h a)) :
    (recase g f x).map h' = recase g f' (x.map h) := by
  cases x with
  | ok a => exact congrArg Except.ok (hf a)
  | error e => rfl

end

namespace Instruction

/-! ### Tokens -/

theorem specialRegister?_congr {a b : Text} (h : a.upper = b.upper) :
    specialRegister? a = specialRegister? b := by
  unfold specialRegister? Text.sameWord
  rw [h]

theorem readAddress_upper (t : Text) :
    readAddress t.upper = recase Problem.upper Value.upper (readAddress t) := by
  unfold readAddress
  rw [specialRegister?_congr t.upper_upper]
  cases specialRegister? t with
  | some a => rfl
  | none =>
    cases t with
    | nil => rfl
    | cons c rest =>
      show (if Text.isIdentStart c.toUpper then _ else _) = _
      simp only [Text.isIdentStart_toUpper, Text.isIdent_upper, Text.readHex?_upper]
      split_ifs
      · rfl
      · rfl
      · cases Text.readHex? (c :: rest) <;> rfl

theorem readImmediate_upper (t : Text) :
    readImmediate t.upper = recase Problem.upper Value.upper (readImmediate t) := by
  unfold readImmediate
  rw [Text.readHex?_upper, Text.isIdent_upper]
  cases t.readHex? with
  | some n => rfl
  | none =>
    simp only
    split_ifs <;> rfl

/-- What lives in the opcode has no name in it. -/
theorem upper_of_fixedOperand? {t : Text} {o : Operand} (h : fixedOperand? t = some o) :
    o.upper = o := by
  have hnamed : ∀ p ∈ namedOperands, p.2.upper = p.2 := by decide
  unfold fixedOperand? at h
  split at h
  · next p hp =>
    cases h
    exact hnamed p (List.mem_of_find?_eq_some hp)
  · split at h
    · cases h
      rfl
    · obtain ⟨n, -, rfl⟩ := Option.map_eq_some_iff.mp h
      rfl

theorem classify_address {t : Text} (hfixed : fixedOperand? t = none)
    (hhash : t.head? ≠ some '#') (hslash : t.head? ≠ some '/') :
    classify t = (readAddress t).map .address := by
  unfold classify
  rw [hfixed]
  simp only
  split
  · exact absurd rfl hhash
  · exact absurd rfl hslash
  · rfl

/-- **A token in upper case denotes the same operand**, its name in upper case. -/
theorem classify_upper (t : Text) :
    classify t.upper = recase Problem.upper Operand.upper (classify t) := by
  have hupper : fixedOperand? t.upper = fixedOperand? t := fixedOperand?_congr t.upper_upper
  cases hfixed : fixedOperand? t with
  | some o =>
    rw [hfixed] at hupper
    simp only [classify, hupper, hfixed, recase_ok, upper_of_fixedOperand? hfixed]
  | none =>
    rw [hfixed] at hupper
    by_cases hhash : t.head? = some '#'
    · obtain ⟨rest, rfl⟩ := List.head?_eq_some_iff.mp hhash
      have hcut : Text.upper ('#' :: rest) = '#' :: Text.upper rest := rfl
      rw [hcut] at hupper ⊢
      simp only [classify, hupper, hfixed, readImmediate_upper]
      exact map_recase _ fun _ => rfl
    · by_cases hslash : t.head? = some '/'
      · obtain ⟨rest, rfl⟩ := List.head?_eq_some_iff.mp hslash
        have hcut : Text.upper ('/' :: rest) = '/' :: Text.upper rest := rfl
        rw [hcut] at hupper ⊢
        simp only [classify, hupper, hfixed, readAddress_upper]
        exact map_recase _ fun _ => rfl
      · have hhead {d : Char} (hd : d.toNat < 65) (h : t.head? ≠ some d) :
            t.upper.head? ≠ some d := by
          rw [Text.upper, List.head?_map]
          intro heq
          obtain ⟨c, hc, hcase⟩ := Option.map_eq_some_iff.mp heq
          rw [(Text.toUpper_eq_iff hd).mp hcase] at hc
          exact h hc
        rw [classify_address hfixed hhash hslash,
          classify_address hupper (hhead (by decide) hhash) (hhead (by decide) hslash),
          readAddress_upper]
        exact map_recase _ fun _ => rfl

theorem classifyAll_upper : ∀ ts : List Text, classifyAll (ts.map Text.upper) =
    recase Problem.upper (List.map Operand.upper) (classifyAll ts)
  | [] => rfl
  | t :: ts => by
    rw [List.map_cons]
    simp only [classifyAll, classify_upper, classifyAll_upper ts]
    cases classify t with
    | error p => rfl
    | ok o =>
      simp only [recase_ok]
      exact map_recase _ fun _ => rfl

/-! ### Forms and fields -/

theorem Operand.text_upper (o : Operand) : o.upper.text = o.text := by
  cases o <;> rfl

theorem Operand.fits_upper (o : Operand) (s : Slot) : o.upper.fits s = o.fits s := by
  cases o with
  | immediate v | address v | complement v => cases s <;> rfl
  | _ => rfl

theorem Form.admits_upper (f : Form) (operands : List Operand) :
    f.admits (operands.map Operand.upper) = f.admits operands := by
  simp only [admits, List.length_map, List.zip_map_right, List.all_map, Function.comp_def,
    Prod.map_fst, Prod.map_snd, id_eq, Operand.fits_upper]

theorem shapesText_upper (operands : List Operand) :
    shapesText (operands.map Operand.upper) = shapesText operands := by
  simp [shapesText, Function.comp_def, Operand.text_upper]

theorem Field.width_upper (f : Field) : f.upper.width = f.width := by
  cases f with
  | byte b => rfl
  | label name mode => cases mode <;> rfl

theorem fieldsWidth_upper (fields : List Field) :
    fieldsWidth (fields.map Field.upper) = fieldsWidth fields := by
  simp [fieldsWidth, List.foldr_map, Field.width_upper]

/-- An opcode with fields, the names in these in upper case. -/
def upperFields (r : UInt8 × List Field) : UInt8 × List Field := (r.1, r.2.map Field.upper)

theorem byteOf_upper (v : Value) : byteOf v.upper = recase Problem.upper id (byteOf v) := by
  cases v with
  | const n =>
    simp only [Value.upper, byteOf]
    split_ifs <;> rfl
  | label name => rfl

theorem wordFields_upper (v : Value) : wordFields v.upper = (wordFields v).map Field.upper := by
  cases v <;> rfl

theorem foldPage_upper (op : UInt8) (next target : UInt16) :
    foldPage op next target = recase Problem.upper id (foldPage op next target) := by
  unfold foldPage
  split_ifs <;> rfl

/-- **A slot is filled alike** with an operand in upper case. -/
theorem fillSlot_upper (pc : UInt16) (op : UInt8) (slot : Slot) (o : Operand) :
    fillSlot pc op slot o.upper = recase Problem.upper upperFields (fillSlot pc op slot o) := by
  have hbyte (v : Value) : (byteOf v.upper).map (fun b => (op, [Field.byte b])) =
      recase Problem.upper upperFields ((byteOf v).map fun b => (op, [Field.byte b])) := by
    rw [byteOf_upper]
    exact map_recase _ fun _ => rfl
  have hword (v : Value) : (Except.ok (op, wordFields v.upper) : Except Problem _) =
      recase Problem.upper upperFields (.ok (op, wordFields v)) := by
    rw [wordFields_upper]
    rfl
  cases o with
  | immediate v =>
    cases slot with
    | immediate => exact hbyte v
    | immediateWord => exact hword v
    | _ => rfl
  | complement v =>
    cases slot with
    | complement => exact hbyte v
    | _ => rfl
  | address v =>
    cases slot with
    | direct | bit => exact hbyte v
    | absolute => exact hword v
    | relative =>
      cases v with
      | const n => exact hbyte (.const n)
      | label name => rfl
    | page =>
      cases v with
      | const target =>
        show (foldPage op (pc + 2) target).map _ = recase _ _ ((foldPage op (pc + 2) target).map _)
        conv => lhs; rw [foldPage_upper]
        exact map_recase _ fun _ => rfl
      | label name => rfl
    | _ => rfl
  | _ => cases slot <;> rfl

theorem fillSlots_upper (pc : UInt16) : ∀ (slots : List Slot) (operands : List Operand)
    (op : UInt8), fillSlots pc op (slots.zip (operands.map Operand.upper)) =
      recase Problem.upper upperFields (fillSlots pc op (slots.zip operands))
  | [], _, _ => rfl
  | _ :: _, [], _ => rfl
  | slot :: slots, o :: operands, op => by
    rw [List.map_cons, List.zip_cons_cons, List.zip_cons_cons]
    simp only [fillSlots, fillSlot_upper]
    cases fillSlot pc op slot o with
    | error p => rfl
    | ok r =>
      obtain ⟨op₁, fields⟩ := r
      simp only [recase_ok, upperFields, fillSlots_upper pc slots operands op₁]
      exact map_recase _ fun s => by simp [upperFields]

theorem fill_upper (f : Form) (operands : List Operand) (pc : UInt16) :
    fill f (operands.map Operand.upper) pc =
      recase Stop.upper Encoding.upper (fill f operands pc) := by
  unfold fill
  rw [fillSlots_upper]
  cases fillSlots pc f.opcode (f.slots.zip operands) with
  | error p => rfl
  | ok r =>
    obtain ⟨op, fields⟩ := r
    have hfields : (if f.opcode = swappedOpcode then (fields.map Field.upper).reverse
        else fields.map Field.upper) =
        (if f.opcode = swappedOpcode then fields.reverse else fields).map Field.upper := by
      split_ifs
      · rw [List.map_reverse]
      · rfl
    simp only [recase_ok, upperFields, hfields, Encoding.length_eq, fieldsWidth_upper]
    split_ifs <;> rfl

/-! ### From a line -/

theorem assembleTokens_upper (tokens : List Text) (pc : UInt16) :
    assembleTokens (tokens.map Text.upper) pc =
      recase Stop.upper Encoding.upper (assembleTokens tokens pc) := by
  cases tokens with
  | nil => rfl
  | cons word args =>
    rw [List.map_cons]
    simp only [assembleTokens, Mnemonic.ofText?_congr word.upper_upper]
    cases Mnemonic.ofText? word with
    | none => rfl
    | some m =>
      simp only [List.length_cons, List.length_map, classifyAll_upper]
      split_ifs
      · rfl
      · rfl
      · cases classifyAll args with
        | error p => rfl
        | ok operands =>
          simp only [recase_ok, fillFirst, Form.admits_upper, shapesText_upper]
          cases (forms m).find? fun f => f.admits operands with
          | none => rfl
          | some f => exact fill_upper f operands pc

/-- A line in upper case has the encoding of the line, the names of its labels in upper case. -/
theorem assemble_upper (line : Text) (pc : UInt16) :
    assemble line.upper pc = recase Stop.upper Encoding.upper (assemble line pc) := by
  rw [assemble_eq_assembleTokens, assemble_eq_assembleTokens, tokenize_upper, assembleTokens_upper]

/-- **Letter case does not count but for the names of labels.** A line and the same line in upper
case both have an encoding or both have none. If they have one, the opcodes are the same, and so are
the fields, once the names of labels in them are put into upper case. If they have none, each has a
problem of the line, and the problems are of the same kind. -/
theorem assemble_ignores_case (line : Text) (pc : UInt16) :
    (∃ e u, assemble line pc = .ok e ∧ assemble line.upper pc = .ok u ∧ u.opcode = e.opcode ∧
      u.fields = e.fields.map Field.upper) ∨
    ∃ p q, assemble line pc = .error (.ofProblem p) ∧
      assemble line.upper pc = .error (.ofProblem q) ∧ q.kind = p.kind := by
  have hupper := assemble_upper line pc
  cases h : assemble line pc with
  | ok e =>
    rw [h] at hupper
    exact Or.inl ⟨e, e.upper, rfl, hupper, rfl, rfl⟩
  | error s =>
    obtain ⟨p, rfl⟩ := exists_problem_of_assemble h
    rw [h] at hupper
    exact Or.inr ⟨p, p.upper, rfl, hupper, p.kind_upper⟩

end Instruction

end Mcs51
