import Mathlib.Data.List.TakeWhile
import Mcs51.Text.Basic

/-! # Words and letters

Cutting a text into words goes well with changes of single characters (`splitWords_map`) and with
trimming (`splitWords_trim`). Letter case is a change of ASCII letters only, so it keeps blanks,
characters of identifiers and every other sign what they are.

`leads` and `mentions` are searches that letter case does not matter to; here they are taken apart
character by character. -/

namespace Mcs51.Text

/-! ### Pieces between separators -/

theorem splitOnPPrepend_map {p : Char → Bool} {f : Char → Char} (h : ∀ c, p (f c) = p c) :
    ∀ (t acc : Text), (t.map f).splitOnPPrepend p (acc.map f) =
      (t.splitOnPPrepend p acc).map (List.map f)
  | [], acc => by simp
  | c :: t, acc => by
    rw [List.map_cons, List.splitOnPPrepend_cons_eq_if, List.splitOnPPrepend_cons_eq_if, h c]
    split
    · rw [List.map_cons, List.map_reverse]
      exact congrArg _ (splitOnPPrepend_map h t [])
    · exact splitOnPPrepend_map h t (c :: acc)

/-- Characters may be changed before or after a cut, if that makes no separators and loses none. -/
theorem splitWords_map {p : Char → Bool} {f : Char → Char} (h : ∀ c, p (f c) = p c) (t : Text) :
    splitWords p (t.map f) = (splitWords p t).map (List.map f) := by
  have hcut : (t.map f).splitOnP p = (t.splitOnP p).map (List.map f) :=
    splitOnPPrepend_map h t []
  unfold splitWords
  rw [hcut, List.filter_map]
  congr 1
  refine List.filter_congr fun w _ => ?_
  cases w <;> rfl

theorem isInfix_of_mem_splitOnPPrepend {p : Char → Bool} {w : Text} : ∀ {t acc : Text},
    w ∈ t.splitOnPPrepend p acc → w <:+: acc.reverse ++ t
  | [], acc, h => by
    rw [List.splitOnPPrepend_nil, List.mem_singleton] at h
    exact ⟨[], [], by simp [h]⟩
  | c :: t, acc, h => by
    rw [List.splitOnPPrepend_cons_eq_if] at h
    split at h
    · rcases List.mem_cons.mp h with rfl | h
      · exact (List.prefix_append _ _).isInfix
      · have hw : w <:+: t := isInfix_of_mem_splitOnPPrepend h
        exact hw.trans ((List.suffix_cons c t).trans (List.suffix_append _ _)).isInfix
    · have hw := isInfix_of_mem_splitOnPPrepend h
      rwa [List.reverse_cons, List.append_assoc] at hw

/-- A word of a text stands in the text. -/
theorem isInfix_of_mem_splitWords {p : Char → Bool} {w t : Text} (h : w ∈ splitWords p t) :
    w <:+: t :=
  isInfix_of_mem_splitOnPPrepend (List.mem_filter.mp h).1

theorem splitWords_cons {p : Char → Bool} {c : Char} (h : p c = true) (t : Text) :
    splitWords p (c :: t) = splitWords p t := by
  have := splitWords_append h [] t
  simpa [splitWords] using this

theorem splitWords_dropWhile {p q : Char → Bool} (h : ∀ c, q c = true → p c = true) :
    ∀ t : Text, splitWords p (t.dropWhile q) = splitWords p t
  | [] => rfl
  | c :: t => by
    by_cases hc : q c = true
    · rw [List.dropWhile_cons_of_pos hc, splitWords_dropWhile h t, splitWords_cons (h c hc)]
    · rw [List.dropWhile_cons_of_neg hc]

theorem splitWords_of_all {p : Char → Bool} : ∀ {t : Text}, (∀ c ∈ t, p c = true) →
    splitWords p t = []
  | [], _ => rfl
  | c :: t, h => by
    rw [splitWords_cons (h c (by simp)), splitWords_of_all fun d hd => h d (by simp [hd])]

theorem splitWords_append_of_all {p : Char → Bool} (t : Text) {u : Text}
    (h : ∀ c ∈ u, p c = true) : splitWords p (t ++ u) = splitWords p t := by
  cases u with
  | nil => rw [List.append_nil]
  | cons c u =>
    have hu : splitWords p u = [] := splitWords_of_all fun d hd => h d (by simp [hd])
    rw [splitWords_append (h c (by simp)), hu, List.append_nil]

/-- The last separator of a text, if there is one. -/
theorem exists_last_separator (p : Char → Bool) : ∀ t : Text,
    (∀ c ∈ t, p c = false) ∨
      ∃ front c back, t = front ++ c :: back ∧ p c = true ∧ ∀ x ∈ back, p x = false
  | [] => Or.inl (by simp)
  | x :: t => by
    rcases exists_last_separator p t with hnone | ⟨front, c, back, rfl, hc, hback⟩
    · cases hx : p x with
      | true => exact Or.inr ⟨[], x, t, rfl, hx, hnone⟩
      | false =>
        refine Or.inl fun c hc => ?_
        rcases List.mem_cons.mp hc with rfl | hc
        · exact hx
        · exact hnone c hc
    · exact Or.inr ⟨x :: front, c, back, rfl, hc, hback⟩

/-- One more character makes the last word longer, or is a word of its own. -/
theorem splitWords_concat {p : Char → Bool} {c : Char} (hc : p c = false) (t : Text) :
    ∃ front last, splitWords p (t ++ [c]) = front ++ [last ++ [c]] ∧ front <+: splitWords p t := by
  have hword : ∀ w : Text, (∀ x ∈ w, p x = false) → splitWords p (w ++ [c]) = [w ++ [c]] := by
    intro w hw
    refine splitWords_of_forall (fun x hx => ?_) (by simp)
    rcases List.mem_append.mp hx with hx | hx
    · exact hw x hx
    · rw [List.mem_singleton.mp hx]
      exact hc
  rcases exists_last_separator p t with hnone | ⟨front, b, back, rfl, hb, hback⟩
  · exact ⟨[], t, hword t hnone, List.nil_prefix⟩
  · refine ⟨splitWords p front, back, ?_, ?_⟩
    · rw [List.append_assoc, List.cons_append, splitWords_append hb, hword back hback]
    · rw [splitWords_append hb]
      exact List.prefix_append _ _

/-- A text is its part up to the last character that is not blank, and then blanks. -/
theorem exists_trimEnd_append (t : Text) :
    ∃ u, t = trimEnd t ++ u ∧ ∀ c ∈ u, isBlank c = true := by
  refine ⟨(t.reverse.takeWhile isBlank).reverse, ?_, fun c hc => ?_⟩
  · rw [trimEnd, ← List.reverse_append, List.takeWhile_append_dropWhile, List.reverse_reverse]
  · exact List.mem_takeWhile_imp (List.mem_reverse.mp hc)

/-- Blanks at the ends of a text are in none of its words, if blanks separate words. -/
theorem splitWords_trim {p : Char → Bool} (h : ∀ c, isBlank c = true → p c = true) (t : Text) :
    splitWords p (trim t) = splitWords p t := by
  obtain ⟨u, hu, hblank⟩ := exists_trimEnd_append (trimStart t)
  have hend : splitWords p (trimStart t) = splitWords p (trim t) := by
    conv => lhs; rw [hu]
    exact splitWords_append_of_all _ fun c hc => h c (hblank c hc)
  rw [← hend, trimStart, splitWords_dropWhile h]

theorem trimEnd_of_getLast? {t : Text} (h : ∀ c ∈ t.getLast?, isBlank c = false) :
    t.trimEnd = t := by
  unfold trimEnd
  rw [← List.head?_reverse] at h
  cases hr : t.reverse with
  | nil =>
    rw [List.reverse_eq_nil_iff.mp hr]
    rfl
  | cons c r =>
    have hc : isBlank c = false := h c (by simp [hr])
    rw [List.dropWhile_cons_of_neg (by simp [hc]), ← hr, List.reverse_reverse]

/-- A text that was trimmed does not end in a blank. -/
theorem isBlank_trimEnd {t : Text} {c : Char} (h : c ∈ (trimEnd t).getLast?) :
    isBlank c = false := by
  have hhead := List.head?_dropWhile_not isBlank t.reverse
  rw [trimEnd, List.getLast?_reverse] at h
  rw [Option.mem_def.mp h] at hhead
  simpa using hhead

/-- There is nothing to trim between two characters that are not blank. -/
theorem trim_of_ends {c : Char} {t : Text} (hc : isBlank c = false)
    (hlast : ∀ d ∈ (c :: t).getLast?, isBlank d = false) : trim (c :: t) = c :: t := by
  have hstart : trimStart (c :: t) = c :: t := List.dropWhile_cons_of_neg (by simp [hc])
  rw [trim, hstart, trimEnd_of_getLast? hlast]

theorem removeBlanks_of_forall {t : Text} (h : ∀ c ∈ t, isBlank c = false) :
    t.removeBlanks = t :=
  List.filter_eq_self.mpr fun c hc => by simp [h c hc]

/-- A word and what follows it after a blank, in their collapsed form. -/
theorem collapse_append {w t : Text} (hw : ∀ c ∈ w, isBlank c = false)
    (ht : ∀ c ∈ t.head?, isBlank c = true) (htrim : trim (w ++ t) = w ++ t) :
    collapse (w ++ t) = w ++ ' ' :: removeBlanks t := by
  have hw : ∀ c ∈ w, (!isBlank c) = true := fun c hc => by simp [hw c hc]
  have ht : t.takeWhile (fun c => !isBlank c) = [] ∧ t.dropWhile (fun c => !isBlank c) = t := by
    cases t with
    | nil => exact ⟨rfl, rfl⟩
    | cons c t => simp [ht c rfl]
  rw [collapse, htrim, firstField, afterField, List.takeWhile_append_of_pos hw,
    List.dropWhile_append_of_pos hw, ht.1, ht.2, List.append_nil]

/-! ### Letter case -/

theorem toNat_toUpper (c : Char) :
    c.toUpper = c ∨ (97 ≤ c.toNat ∧ c.toNat ≤ 122 ∧ c.toUpper.toNat = c.toNat - 32) := by
  unfold Char.toUpper
  split
  · next h =>
    right
    have h1 : 97 ≤ c.toNat := h.1
    have h2 : c.toNat ≤ 122 := h.2
    refine ⟨h1, h2, ?_⟩
    show (c.val + ('A'.val - 'a'.val)).toNat = c.val.toNat - 32
    rw [UInt32.toNat_add]
    have h3 : ('A'.val - 'a'.val).toNat = 4294967264 := by decide
    have h4 : c.val.toNat = c.toNat := rfl
    rw [h3]
    omega
  · exact Or.inl rfl

theorem isBlank_of_letter {c : Char} (h1 : 65 ≤ c.toNat) (h2 : c.toNat ≤ 122) :
    isBlank c = false := by
  simp only [isBlank, blankRanges, List.any_cons, List.any_nil, Bool.or_eq_false_iff,
    Bool.and_eq_false_iff, decide_eq_false_iff_not, and_true]
  omega

theorem isBlank_toUpper (c : Char) : isBlank c.toUpper = isBlank c := by
  rcases toNat_toUpper c with h | ⟨h1, h2, h3⟩
  · rw [h]
  · rw [isBlank_of_letter (by omega) (by omega), isBlank_of_letter (by omega) h2]

theorem toUpper_eq_iff {c d : Char} (hd : d.toNat < 65) : c.toUpper = d ↔ c = d := by
  rcases toNat_toUpper c with h | ⟨h1, h2, h3⟩
  · rw [h]
  · constructor
    · rintro rfl; omega
    · rintro rfl; omega

theorem toUpper_toUpper (c : Char) : c.toUpper.toUpper = c.toUpper := by
  rcases toNat_toUpper c with h | ⟨h1, h2, h3⟩
  · rw [h, h]
  · rcases toNat_toUpper c.toUpper with h | ⟨h4, -, -⟩
    · exact h
    · omega

@[simp] theorem upper_upper (t : Text) : t.upper.upper = t.upper := by
  rw [upper, upper, List.map_map]
  exact List.map_congr_left fun c _ => toUpper_toUpper c

/-- A letter and its capital are all that give the capital. -/
theorem toUpper_eq_capital_iff {c small capital : Char} (hcase : small.toUpper = capital)
    (hsmall : small.toNat = capital.toNat + 32) :
    c.toUpper = capital ↔ c = small ∨ c = capital := by
  constructor
  · intro h
    rcases toNat_toUpper c with hc | ⟨h1, -, h3⟩
    · exact Or.inr (hc.symm.trans h)
    · rw [h] at h3
      exact Or.inl (Char.toNat_inj.mp (by omega))
  · rintro (rfl | rfl)
    · exact hcase
    · rw [← hcase, toUpper_toUpper]

theorem isIdentChar_iff {c : Char} :
    isIdentChar c = true ↔ (65 ≤ c.toNat ∧ c.toNat ≤ 90) ∨ (97 ≤ c.toNat ∧ c.toNat ≤ 122) ∨
      (48 ≤ c.toNat ∧ c.toNat ≤ 57) ∨ c.toNat = 95 := by
  have hunder : c = '_' ↔ c.toNat = 95 := ⟨fun h => h ▸ rfl, fun h => Char.toNat_inj.mp h⟩
  have hident : isIdentChar c = (decide (65 ≤ c.toNat ∧ c.toNat ≤ 90) ||
      (decide (97 ≤ c.toNat) && decide (c.toNat ≤ 122)) ||
      (decide (48 ≤ c.toNat) && decide (c.toNat ≤ 57)) || c == '_') := rfl
  simp only [hident, Bool.or_eq_true, Bool.and_eq_true, decide_eq_true_eq, beq_iff_eq, hunder,
    or_assoc]

theorem isIdentChar_toUpper (c : Char) : isIdentChar c.toUpper = isIdentChar c := by
  rcases toNat_toUpper c with h | ⟨h1, h2, h3⟩
  · rw [h]
  · have hc : isIdentChar c = true := isIdentChar_iff.mpr (by omega)
    have hu : isIdentChar c.toUpper = true := isIdentChar_iff.mpr (by omega)
    rw [hc, hu]

theorem isIdentStart_iff {c : Char} :
    isIdentStart c = true ↔ (65 ≤ c.toNat ∧ c.toNat ≤ 90) ∨ (97 ≤ c.toNat ∧ c.toNat ≤ 122) ∨
      c.toNat = 95 := by
  have hunder : c = '_' ↔ c.toNat = 95 := ⟨fun h => h ▸ rfl, fun h => Char.toNat_inj.mp h⟩
  have hstart : isIdentStart c = (decide (65 ≤ c.toNat ∧ c.toNat ≤ 90) ||
      (decide (97 ≤ c.toNat) && decide (c.toNat ≤ 122)) || c == '_') := rfl
  simp only [hstart, Bool.or_eq_true, Bool.and_eq_true, decide_eq_true_eq, beq_iff_eq, hunder,
    or_assoc]

theorem isIdentStart_toUpper (c : Char) : isIdentStart c.toUpper = isIdentStart c := by
  rcases toNat_toUpper c with h | ⟨h1, h2, h3⟩
  · rw [h]
  · have hc : isIdentStart c = true := isIdentStart_iff.mpr (by omega)
    have hu : isIdentStart c.toUpper = true := isIdentStart_iff.mpr (by omega)
    rw [hc, hu]

/-- A text in upper case is an identifier if it was one. -/
theorem isIdent_upper (t : Text) : isIdent t.upper = isIdent t := by
  cases t with
  | nil => rfl
  | cons c t => simp [isIdent, upper, isIdentStart_toUpper, isIdentChar_toUpper, Function.comp_def]

/-- Characters that differ in letter case only are in identifiers both or neither. -/
theorem isIdentChar_congr {c d : Char} (h : c.toUpper = d.toUpper) :
    isIdentChar c = isIdentChar d := by
  rw [← isIdentChar_toUpper c, h, isIdentChar_toUpper]

theorem isBlank_of_isIdentChar {c : Char} (h : isIdentChar c = true) : isBlank c = false := by
  have := isIdentChar_iff.mp h
  simp only [isBlank, blankRanges, List.any_cons, List.any_nil, Bool.or_eq_false_iff,
    Bool.and_eq_false_iff, decide_eq_false_iff_not, and_true]
  omega

theorem utf8Size_of_isIdentChar {c : Char} (h : isIdentChar c = true) : c.utf8Size = 1 := by
  have := isIdentChar_iff.mp h
  have hval : c.val.toNat = c.toNat := rfl
  unfold Char.utf8Size
  rw [if_pos]
  rw [UInt32.le_iff_toNat_le]
  show c.val.toNat ≤ 127
  omega

/-! ### Search -/

@[simp] theorem leads_nil (text : Text) : leads [] text = true := by
  simp [leads, sameWord]

theorem leads_cons_nil (c : Char) (needle : Text) : leads (c :: needle) [] = false := by
  simp [leads, sameWord, upper]

theorem leads_cons_cons {c x : Char} {needle text : Text} :
    leads (c :: needle) (x :: text) = true ↔
      x.toUpper = c.toUpper ∧ leads needle text = true := by
  simp [leads_iff, upper]

theorem mentions_cons {x : Char} {needle text : Text} :
    mentions (x :: text) needle = true ↔
      leads needle (x :: text) = true ∨ mentions text needle = true := by
  unfold mentions
  rw [find?_cons]
  split <;> simp_all

/-- A sign that is no letter is found only where it stands. -/
theorem find?_eq_none_of_notMem {c : Char} (hc : c.toNat < 65) : ∀ {t : Text}, c ∉ t →
    find? [c] t = none
  | [], _ => rfl
  | x :: t, h => by
    have h : c ≠ x ∧ c ∉ t := by simpa using h
    have hx : leads [c] (x :: t) = false := by
      rw [Bool.eq_false_iff, Ne, leads_cons_cons, (toUpper_eq_iff hc).mpr rfl, toUpper_eq_iff hc]
      exact fun hx => h.1 hx.1.symm
    rw [find?_cons, hx, find?_eq_none_of_notMem hc h.2]
    rfl

theorem leads_iff_isPrefix {needle text : Text} :
    leads needle text = true ↔ upper needle <+: upper text := by
  rw [leads_iff, List.prefix_iff_eq_take, length_upper, eq_comm]
  unfold upper
  rw [List.map_take]

theorem leads_upper (needle text : Text) : leads needle text.upper = leads needle text := by
  rw [Bool.eq_iff_iff, leads_iff_isPrefix, leads_iff_isPrefix, upper_upper]

/-- What stands in the front of a text stands in the text. -/
theorem mentions_of_isPrefix {front text needle : Text} (h : front <+: text)
    (hm : mentions front needle = true) : mentions text needle = true := by
  obtain ⟨rest, rfl⟩ := h
  obtain ⟨k, hk, hlead⟩ := mentions_iff.mp hm
  refine mentions_iff.mpr ⟨k, by rw [List.length_append]; omega, ?_⟩
  rw [leads_iff_isPrefix] at hlead ⊢
  rw [List.drop_append_of_le_length hk, upper_append]
  exact hlead.trans (List.prefix_append _ _)

/-- A text mentions whatever stands in it, in any letter case. -/
theorem mentions_of_isInfix {w text needle : Text} (h : w <:+: text)
    (hw : w.sameWord needle = true) : mentions text needle = true := by
  obtain ⟨a, b, rfl⟩ := h
  refine mentions_iff.mpr ⟨a.length, by simp only [List.length_append]; omega, ?_⟩
  rw [List.append_assoc, List.drop_left, leads_iff_isPrefix, upper_append, sameWord_iff.mp hw]
  exact List.prefix_append _ _

theorem length_le_size : ∀ t : Text, t.length ≤ t.size
  | [] => Nat.le_refl 0
  | c :: t => by
    have := c.utf8Size_pos
    have := length_le_size t
    rw [List.length_cons, Text.size_cons]
    omega

/-- A search for a needle that is not empty finds a place before the end. -/
theorem find?_lt {needle text : Text} {n : Nat} (hne : needle ≠ [])
    (h : find? needle text = some n) : n < text.length ∧ leads needle (text.drop n) = true := by
  obtain ⟨hle, hlead, -⟩ := find?_eq_some_iff.mp h
  refine ⟨?_, hlead⟩
  by_contra hge
  rw [List.drop_of_length_le (by omega)] at hlead
  cases needle with
  | nil => exact hne rfl
  | cons c needle => simp [leads_cons_nil] at hlead

end Mcs51.Text
