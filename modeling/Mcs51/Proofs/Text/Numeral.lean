import Mathlib.Tactic.SplitIfs
import Mcs51.Proofs.Text.Words
import Mcs51.Text.Numeral

/-! # Numerals read back

A number written in hexadecimal has the value it was written for (`value_hex`), with any number of
zeros before it. A byte takes two digits and a word four (`hex_byte`, `hex_word`), and a digit zero
in front makes a hexadecimal literal of it (`IsLiteral.readHex?`): no mark can be read into it. The
marks of a literal and its letters may be in either case (`readHex?_upper`). -/

namespace Mcs51.Text

/-! ### Digits -/

/-- The upper-case digit of a number below sixteen. -/
def upperDigit (d : Nat) : Char := (Nat.digitChar d).toUpper

theorem digitValue?_upperDigit : ∀ {d : Nat}, d < 16 → digitValue? (upperDigit d) = some d := by
  decide

theorem hexDigits_of_lt {n : Nat} (h : n < 16) : hexDigits n = [upperDigit n] := by
  rw [hexDigits, Nat.toDigits_of_lt_base h]
  rfl

theorem hexDigits_of_le {n : Nat} (h : 16 ≤ n) :
    hexDigits n = hexDigits (n / 16) ++ [upperDigit (n % 16)] := by
  rw [hexDigits, Nat.toDigits_of_base_le (by decide) h, List.map_append]
  rfl

/-- What holds of every upper-case digit holds of the digits of a number. -/
theorem forall_hexDigits {P : Char → Prop} (hP : ∀ d < 16, P (upperDigit d)) (n : Nat) :
    ∀ c ∈ hexDigits n, P c := by
  induction n using Nat.strongRecOn with
  | ind n ih =>
    by_cases hn : n < 16
    · rw [hexDigits_of_lt hn]
      simpa using hP n hn
    · rw [hexDigits_of_le (by omega)]
      intro c hc
      rcases List.mem_append.mp hc with hc | hc
      · exact ih (n / 16) (by omega) c hc
      · rw [List.mem_singleton.mp hc]
        exact hP (n % 16) (by omega)

/-- What holds of every upper-case digit holds of a number written with a least width. -/
theorem forall_hex {P : Char → Prop} (hP : ∀ d < 16, P (upperDigit d)) (width n : Nat) :
    ∀ c ∈ hex width n, P c := by
  intro c hc
  rcases List.mem_append.mp hc with hc | hc
  · rw [(List.mem_replicate.mp hc).2]
    exact hP 0 (by omega)
  · exact forall_hexDigits hP n c hc

/-! ### Values -/

theorem value_append_digit (base : Nat) (t : Text) (c : Char) :
    value base (t ++ [c]) = value base t * base + (digitValue? c).getD 0 := by
  simp [value]

theorem value_hexDigits (n : Nat) : value 16 (hexDigits n) = n := by
  induction n using Nat.strongRecOn with
  | ind n ih =>
    by_cases hn : n < 16
    · have hd := value_append_digit 16 [] (upperDigit n)
      rw [digitValue?_upperDigit hn] at hd
      rw [hexDigits_of_lt hn]
      simpa [value] using hd
    · rw [hexDigits_of_le (by omega), value_append_digit, ih (n / 16) (by omega),
        digitValue?_upperDigit (by omega)]
      show n / 16 * 16 + n % 16 = n
      omega

/-- Zeros before a numeral do not count. -/
theorem value_zeros (base k : Nat) (t : Text) :
    value base (List.replicate k '0' ++ t) = value base t := by
  have hzero : (digitValue? '0').getD 0 = 0 := by decide
  induction k with
  | zero => rfl
  | succ k ih =>
    rw [List.replicate_succ, List.cons_append, ← ih]
    simp [value, hzero]

theorem value_hex (width n : Nat) : value 16 (hex width n) = n := by
  rw [hex, value_zeros, value_hexDigits]

/-! ### Bytes and words -/

theorem hex_one {n : Nat} (h : n < 16) : hex 1 n = [upperDigit n] := by
  rw [hex, hexDigits_of_lt h]
  rfl

/-- The last digit of a numeral that has another one before it. -/
theorem hex_succ {width : Nat} (hw : 0 < width) (n : Nat) :
    hex (width + 1) n = hex width (n / 16) ++ [upperDigit (n % 16)] := by
  unfold hex
  by_cases hn : n < 16
  · have hdiv : n / 16 = 0 := by omega
    have hmod : n % 16 = n := by omega
    have hzero : hexDigits 0 = ['0'] := by decide
    rw [hdiv, hmod, hzero, hexDigits_of_lt hn]
    congr 1
    obtain ⟨k, rfl⟩ : ∃ k, width = k + 1 := ⟨width - 1, by omega⟩
    exact List.replicate_succ'
  · rw [hexDigits_of_le (by omega), List.length_append, ← List.append_assoc]
    congr 3
    simp

theorem hex_byte {n : Nat} (h : n < 256) :
    hex 2 n = [upperDigit (n / 16), upperDigit (n % 16)] := by
  rw [hex_succ (by decide), hex_one (by omega)]
  rfl

/-- A word is written as its high byte and its low byte. -/
theorem hex_word (n : Nat) : hex 4 n = hex 2 (n / 256) ++ hex 2 (n % 256) := by
  rw [hex_succ (by decide), hex_succ (by decide), hex_byte (n := n % 256) (by omega),
    List.append_assoc]
  have h1 : n / 16 / 16 = n / 256 := by omega
  have h2 : n / 16 % 16 = n % 256 / 16 := by omega
  have h3 : n % 16 = n % 256 % 16 := by omega
  rw [h1, h2, h3]
  rfl

/-! ### Literals -/

/-- A hexadecimal digit in upper case. -/
def isUpperHex (c : Char) : Bool := ('0' ≤ c && c ≤ '9') || ('A' ≤ c && c ≤ 'F')

theorem isUpperHex_upperDigit : ∀ d < 16, isUpperHex (upperDigit d) = true := by decide

/-- The literals of a number that start with a zero: one, and upper-case digits of that value. -/
def IsLiteral (n : Nat) (t : Text) : Prop :=
  ∃ digits, t = '0' :: digits ∧ (∀ c ∈ digits, isUpperHex c = true) ∧ value 16 digits = n

theorem isLiteral_hex (width n : Nat) : IsLiteral n ('0' :: hex width n) :=
  ⟨hex width n, rfl, forall_hex isUpperHex_upperDigit width n, value_hex width n⟩

theorem isUpperHex_iff {c : Char} :
    isUpperHex c = true ↔ (48 ≤ c.toNat ∧ c.toNat ≤ 57) ∨ (65 ≤ c.toNat ∧ c.toNat ≤ 70) := by
  simp only [isUpperHex, Bool.or_eq_true, Bool.and_eq_true, decide_eq_true_eq, Char.le_def,
    UInt32.le_iff_toNat_le]
  rfl

theorem isSome_digitValue? {c : Char} (h : isUpperHex c = true) :
    (digitValue? c).isSome = true := by
  simp only [isUpperHex, Bool.or_eq_true, Bool.and_eq_true, decide_eq_true_eq] at h
  unfold digitValue?
  rcases h with h | h
  · rw [if_pos h]
    rfl
  · split_ifs <;> rfl

theorem literalDigits_of_isUpperHex {digits : Text} (h : ∀ c ∈ digits, isUpperHex c = true) :
    literalDigits ('0' :: digits) = '0' :: digits := by
  have hmark {c : Char} (hc : c ∈ '0' :: digits) : c ≠ 'x' ∧ c ≠ 'X' ∧ c ≠ 'h' ∧ c ≠ 'H' := by
    have hup : isUpperHex c = true := by
      rcases List.mem_cons.mp hc with rfl | hc
      · decide
      · exact h c hc
    refine ⟨?_, ?_, ?_, ?_⟩ <;> rintro rfl <;> revert hup <;> decide
  unfold literalDigits
  split
  · next heq => exact absurd rfl (hmark (heq ▸ by simp)).1
  · next heq => exact absurd rfl (hmark (heq ▸ by simp)).2.1
  · split
    · next hlast => exact absurd rfl (hmark (List.mem_of_getLast? hlast)).2.2.1
    · next hlast => exact absurd rfl (hmark (List.mem_of_getLast? hlast)).2.2.2
    · rfl

/-- **A literal reads as its number**, whatever the number of its digits. -/
theorem IsLiteral.readHex? {n : Nat} {t : Text} (h : IsLiteral n t) (hn : n < 65536) :
    t.readHex? = some (UInt16.ofNat n) := by
  obtain ⟨digits, rfl, hdigits, hvalue⟩ := h
  have hzero : (digitValue? '0').isSome = true := by decide
  have hall : (('0' :: digits).all fun c => (digitValue? c).isSome) = true := by
    rw [List.all_cons, hzero, Bool.true_and, List.all_eq_true]
    exact fun c hc => isSome_digitValue? (hdigits c hc)
  have hvalue : value 16 ('0' :: digits) = n := (value_zeros 16 1 digits).trans hvalue
  unfold Text.readHex?
  simp only [literalDigits_of_isUpperHex hdigits, hall, hvalue, if_pos hn]
  rfl

/-! ### Literals and letter case -/

/-- The digits of a literal, by its marks in either case. -/
theorem literalDigits_eq (t : Text) : literalDigits t =
    if leads ['0', 'X'] t then t.drop 2
    else if t.getLast?.map Char.toUpper = some 'H' then t.dropLast else t := by
  have hx (c : Char) : c.toUpper = 'X' ↔ c = 'x' ∨ c = 'X' := toUpper_eq_capital_iff rfl rfl
  have hh (c : Char) : c.toUpper = 'H' ↔ c = 'h' ∨ c = 'H' := toUpper_eq_capital_iff rfl rfl
  have hmark (digits : Text) : leads ['0', 'X'] ('0' :: 'x' :: digits) = true ∧
      leads ['0', 'X'] ('0' :: 'X' :: digits) = true :=
    ⟨rfl, rfl⟩
  unfold literalDigits
  split
  · next digits => rw [if_pos (hmark digits).1]; rfl
  · next digits => rw [if_pos (hmark digits).2]; rfl
  · next hsmall hcapital =>
    have hno : ¬ leads ['0', 'X'] t = true := by
      rcases t with _ | ⟨c, _ | ⟨d, rest⟩⟩
      · simp [leads_cons_nil]
      · simp [leads_cons_cons, leads_cons_nil]
      · rw [leads_cons_cons, leads_cons_cons]
        rintro ⟨hc, hd, -⟩
        obtain rfl : c = '0' := (toUpper_eq_iff (by decide)).mp hc
        rcases (hx d).mp hd with rfl | rfl
        · exact hsmall rest rfl
        · exact hcapital rest rfl
    rw [if_neg hno]
    split
    · next hlast => rw [hlast]; rfl
    · next hlast => rw [hlast]; rfl
    · next hnot hnot' =>
      rw [if_neg]
      intro h
      obtain ⟨c, hc, hcase⟩ := Option.map_eq_some_iff.mp h
      rcases (hh c).mp hcase with rfl | rfl
      · exact hnot hc
      · exact hnot' hc

theorem literalDigits_upper (t : Text) : literalDigits t.upper = (literalDigits t).upper := by
  have hlast : t.upper.getLast?.map Char.toUpper = t.getLast?.map Char.toUpper := by
    simp only [upper, List.getLast?_map, Option.map_map, Function.comp_def, toUpper_toUpper]
  rw [literalDigits_eq, literalDigits_eq, leads_upper, hlast]
  split_ifs <;> simp [upper, List.map_drop, List.map_dropLast]

theorem digitValue?_toUpper (c : Char) : digitValue? c.toUpper = digitValue? c := by
  rcases toNat_toUpper c with h | ⟨h1, h2, h3⟩
  · rw [h]
  · have hval (d : Char) : d.val.toNat = d.toNat := rfl
    simp only [digitValue?, Char.le_def, UInt32.le_iff_toNat_le, hval, h3, Char.reduceToNat]
    split_ifs <;> first | omega | rfl

/-- **Letter case does not count in a literal.** -/
theorem readHex?_upper (t : Text) : readHex? t.upper = readHex? t := by
  have hvalue : value 16 (literalDigits t).upper = value 16 (literalDigits t) := by
    simp [value, upper, List.foldl_map, digitValue?_toUpper]
  have hall : ((literalDigits t).upper.all fun c => (digitValue? c).isSome) =
      (literalDigits t).all fun c => (digitValue? c).isSome := by
    simp [upper, Function.comp_def, digitValue?_toUpper]
  have hempty : (literalDigits t).upper.isEmpty = (literalDigits t).isEmpty := by simp [upper]
  unfold readHex?
  simp only [literalDigits_upper, hvalue, hall, hempty]

end Mcs51.Text
