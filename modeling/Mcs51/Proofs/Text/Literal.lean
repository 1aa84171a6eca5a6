import Mathlib.Data.List.Basic
import Mathlib.Data.Nat.Digits.Defs
import Mcs51.Proofs.Text.Numeral

/-! # The grammar of hexadecimal literals

A literal is a numeral in base sixteen (`IsHexNumeral`, `hexNumber`) in one of five spellings
(`Spells`). Its marks are no digits, so it has one reading (`literalDigits_of_spells`).

Main statement: `readHex?_eq_some_iff`, a text reads as a number exactly if it spells a numeral of
that value and the value fits sixteen bits. -/

namespace Mcs51.Text

/-! ### Numerals and their spellings -/

/-- The hexadecimal digits, in the order of their values. -/
def hexAlphabet : List Char := "0123456789ABCDEF".toList

/-- The place of a digit among the sixteen. -/
def placeOf (c : Char) : Nat := hexAlphabet.idxOf c.toUpper

/-- At least one hexadecimal digit, letters in either case, and nothing else. -/
def IsHexNumeral (digits : Text) : Prop := digits ≠ [] ∧ ∀ c ∈ digits, c.toUpper ∈ hexAlphabet

/-- The number that digits are written for in base sixteen. -/
def hexNumber (digits : Text) : Nat := Nat.ofDigits 16 (digits.reverse.map placeOf)

/-- The ways to spell digits as a literal: bare, after a mark `0x` or before a mark `h`. -/
def Spells (digits t : Text) : Prop :=
  t = digits ∨ t = '0' :: 'x' :: digits ∨ t = '0' :: 'X' :: digits ∨ t = digits ++ ['h'] ∨
    t = digits ++ ['H']

/-! ### Digits -/

set_option maxRecDepth 4000 in
/-- A character has a value as a digit if it is one of the sixteen, in either case. -/
theorem digitValue?_eq (c : Char) :
    digitValue? c = if c.toUpper ∈ hexAlphabet then some (placeOf c) else none := by
  have hascii : ∀ n < 128, digitValue? (Char.ofNat n) =
      if (Char.ofNat n).toUpper ∈ hexAlphabet then some (placeOf (Char.ofNat n)) else none := by
    decide
  by_cases hc : c.toNat < 128
  · simpa using hascii c.toNat hc
  · have hall : (hexAlphabet.all fun d => d.toNat < 128) = true := by decide
    have hsmall : ∀ d ∈ hexAlphabet, d.toNat < 128 := by simpa using hall
    have hupper : c.toUpper = c := (toNat_toUpper c).resolve_right fun h => by omega
    have hval (d : Char) : d.val.toNat = d.toNat := rfl
    rw [if_neg fun h => hc (hsmall c (hupper ▸ h))]
    simp only [digitValue?, Char.le_def, UInt32.le_iff_toNat_le, hval, Char.reduceToNat]
    rw [if_neg (by omega), if_neg (by omega), if_neg (by omega)]

theorem isSome_digitValue?_iff {c : Char} :
    (digitValue? c).isSome = true ↔ c.toUpper ∈ hexAlphabet := by
  rw [digitValue?_eq]
  split_ifs with h <;> simp [h]

theorem value_eq_hexNumber {digits : Text} (h : ∀ c ∈ digits, c.toUpper ∈ hexAlphabet) :
    value 16 digits = hexNumber digits := by
  have hdigit : ∀ c ∈ digits, (digitValue? c).getD 0 = placeOf c := fun c hc => by
    rw [digitValue?_eq, if_pos (h c hc)]
    rfl
  have hplaces : value 16 digits = (digits.map placeOf).foldl (fun acc d => acc * 16 + d) 0 := by
    rw [value, List.foldl_map]
    exact List.foldl_ext _ _ _ fun acc c hc => by rw [hdigit c hc]
  rw [hplaces, hexNumber, Nat.ofDigits_eq_foldr, List.map_reverse, List.foldr_reverse]
  simp [Nat.add_comm, Nat.mul_comm]

/-! ### Reading a literal -/

/-- The digits of a literal are spelled by it. -/
theorem spells_literalDigits (t : Text) : Spells (literalDigits t) t := by
  have hlast {m : Char} (h : t.getLast? = some m) : t = t.dropLast ++ [m] := by
    obtain ⟨front, rfl⟩ := List.getLast?_eq_some_iff.mp h
    simp
  unfold literalDigits
  split
  · exact Or.inr (Or.inl rfl)
  · exact Or.inr (Or.inr (Or.inl rfl))
  · split
    · next h => exact Or.inr (Or.inr (Or.inr (Or.inl (hlast h))))
    · next h => exact Or.inr (Or.inr (Or.inr (Or.inr (hlast h))))
    · exact Or.inl rfl

theorem leads_mark_eq_false {t : Text} (h : ∀ c ∈ t, c.toUpper ≠ 'X') :
    leads ['0', 'X'] t = false := by
  rw [Bool.eq_false_iff]
  intro hlead
  rcases t with _ | ⟨c, _ | ⟨d, t⟩⟩
  · simp [leads_cons_nil] at hlead
  · simp [leads_cons_cons, leads_cons_nil] at hlead
  · obtain ⟨-, hrest⟩ := leads_cons_cons.mp hlead
    exact h d (by simp) (leads_cons_cons.mp hrest).1

/-- **A literal has one reading**: its marks are no digits. -/
theorem literalDigits_of_spells {digits t : Text} (hdigits : IsHexNumeral digits)
    (h : Spells digits t) : literalDigits t = digits := by
  have hX : ∀ c ∈ digits, c.toUpper ≠ 'X' := fun c hc hx => by
    have hmem := hdigits.2 c hc
    rw [hx] at hmem
    exact absurd hmem (by decide)
  have hH : digits.getLast?.map Char.toUpper ≠ some 'H' := fun hlast => by
    obtain ⟨c, hc, hh⟩ := Option.map_eq_some_iff.mp hlast
    have hmem := hdigits.2 c (List.mem_of_getLast? hc)
    rw [hh] at hmem
    exact absurd hmem (by decide)
  have hsuffix (m : Char) (hm : m.toUpper = 'H') : literalDigits (digits ++ [m]) = digits := by
    have hX' : ∀ c ∈ digits ++ [m], c.toUpper ≠ 'X' := fun c hc => by
      rcases List.mem_append.mp hc with hc | hc
      · exact hX c hc
      · rw [List.mem_singleton.mp hc, hm]
        decide
    rw [literalDigits_eq, leads_mark_eq_false hX', if_neg (by simp), if_pos (by simp [hm])]
    simp
  rcases h with rfl | rfl | rfl | rfl | rfl
  · rw [literalDigits_eq, leads_mark_eq_false hX, if_neg (by simp), if_neg hH]
  · rfl
  · rfl
  · exact hsuffix 'h' rfl
  · exact hsuffix 'H' rfl

theorem readHex?_of_not_numeral {t : Text} (h : ¬ IsHexNumeral (literalDigits t)) :
    readHex? t = none := by
  unfold readHex?
  refine if_pos ?_
  by_contra hall
  refine h ?_
  simpa [isSome_digitValue?_iff, IsHexNumeral] using hall

/-- A literal is read as the number of its digits, if that is an address. -/
theorem readHex?_of_numeral {t : Text} (h : IsHexNumeral (literalDigits t)) :
    readHex? t = if hexNumber (literalDigits t) < 65536
      then some (UInt16.ofNat (hexNumber (literalDigits t))) else none := by
  unfold readHex?
  rw [← value_eq_hexNumber h.2]
  refine if_neg ?_
  simpa [isSome_digitValue?_iff, IsHexNumeral] using h

/-- **The grammar of literals.** A text reads as a number exactly if it spells hexadecimal digits
of that value, and the value fits sixteen bits: a larger one is refused, and so is a text with a
mark at either end. -/
theorem readHex?_eq_some_iff (t : Text) :
    (∀ n : Nat, (readHex? t).map UInt16.toNat = some n ↔
      ∃ digits, IsHexNumeral digits ∧ hexNumber digits = n ∧ n ≤ 65535 ∧ Spells digits t) ∧
    (∀ digits, IsHexNumeral digits → Spells digits t → 65535 < hexNumber digits →
      readHex? t = none) ∧
    (∀ digits, ∀ first ∈ ['x', 'X'], ∀ last ∈ ['h', 'H'],
      t = '0' :: first :: (digits ++ [last]) → readHex? t = none) := by
  refine ⟨fun n => ⟨fun h => ?_, ?_⟩, fun digits hdigits hspells hlarge => ?_, ?_⟩
  · obtain ⟨w, hw, rfl⟩ := Option.map_eq_some_iff.mp h
    by_cases hdigits : IsHexNumeral (literalDigits t)
    · rw [readHex?_of_numeral hdigits] at hw
      split_ifs at hw with hlt
      obtain rfl := Option.some.inj hw
      have hnumber : (UInt16.ofNat (hexNumber (literalDigits t))).toNat =
          hexNumber (literalDigits t) := UInt16.toNat_ofNat_of_lt' hlt
      exact ⟨literalDigits t, hdigits, hnumber.symm, by omega, spells_literalDigits t⟩
    · rw [readHex?_of_not_numeral hdigits] at hw
      cases hw
  · rintro ⟨digits, hdigits, rfl, hle, hspells⟩
    obtain rfl := literalDigits_of_spells hdigits hspells
    have hlt : hexNumber (literalDigits t) < 65536 := by omega
    rw [readHex?_of_numeral hdigits, if_pos hlt, Option.map_some, UInt16.toNat_ofNat_of_lt' hlt]
  · obtain rfl := literalDigits_of_spells hdigits hspells
    rw [readHex?_of_numeral hdigits, if_neg (by omega)]
  · rintro digits first hfirst last hlast rfl
    have hrest : literalDigits ('0' :: first :: (digits ++ [last])) = digits ++ [last] := by
      rcases List.mem_pair.mp hfirst with rfl | rfl <;> rfl
    refine readHex?_of_not_numeral fun hnumeral => ?_
    have hmem := hnumeral.2 last (by simp [hrest])
    rcases List.mem_pair.mp hlast with rfl | rfl <;> exact absurd hmem (by decide)

end Mcs51.Text
