import Mcs51.Proofs.Text.Words
import Mcs51.Text.Utf8

/-! # Searching bytes

A search may go over the UTF-8 form of a text and compare windows of bytes, ASCII letters in either
case (`windowIndex?`). It finds the same place as the search over characters (`byteIndex_eq`): the
first byte of a character continues none, so no window that begins in the middle of a character is
the form of a text (`exists_of_encode_isPrefix`), and forms that agree are forms of the same
characters (`encode_isPrefix_iff`).

What the search finds is therefore a place to cut the text at (`cutAt?_eq_some_iff`), and so is the
end of what it finds. -/

namespace Mcs51.Text

/-! ### Sizes and cuts -/

theorem size_toUpper (c : Char) : c.toUpper.utf8Size = c.utf8Size := by
  rcases toNat_toUpper c with h | ⟨-, h1, h2⟩
  · rw [h]
  · have hone (d : Char) (hd : d.toNat ≤ 122) : d.utf8Size = 1 := by
      have hval : d.val.toNat = d.toNat := rfl
      rw [Char.utf8Size_eq_one_iff, UInt32.le_iff_toNat_le, hval]
      exact Nat.le_trans hd (by decide)
    rw [hone c h1, hone c.toUpper (by omega)]

theorem size_upper (t : Text) : size (upper t) = size t := by
  induction t with
  | nil => rfl
  | cons c t ih =>
    rw [size_cons, ← ih, ← size_toUpper]
    rfl

theorem length_encode (t : Text) : (encode t).length = size t := by
  induction t with
  | nil => rfl
  | cons c t ih =>
    rw [size_cons, ← ih, ← String.length_utf8EncodeChar]
    simp [encode]

theorem encode_append (a b : Text) : encode (a ++ b) = encode a ++ encode b := List.flatMap_append

/-- **A cut** is a place between characters. -/
theorem cutAt?_eq_some_iff {n : Nat} {t a b : Text} :
    cutAt? n t = some (a, b) ↔ t = a ++ b ∧ size a = n := by
  fun_induction cutAt? n t generalizing a b with
  | case1 t =>
    constructor
    · intro h
      cases h
      exact ⟨rfl, rfl⟩
    · rintro ⟨rfl, hsize⟩
      cases a with
      | nil => rfl
      | cons c a =>
        have := c.utf8Size_pos
        rw [size_cons] at hsize
        omega
  | case2 n =>
    constructor
    · intro h
      cases h
    · rintro ⟨h, hsize⟩
      rw [(List.append_eq_nil_iff.mp h.symm).1] at hsize
      cases hsize
  | case3 n c t hle ih =>
    rw [Option.map_eq_some_iff]
    constructor
    · rintro ⟨⟨front, back⟩, hcut, h⟩
      cases h
      obtain ⟨rfl, hsize⟩ := ih.mp hcut
      exact ⟨rfl, by rw [size_cons, hsize]; omega⟩
    · rintro ⟨h, hsize⟩
      cases a with
      | nil => cases hsize
      | cons d a =>
        obtain ⟨rfl, rfl⟩ := List.cons_eq_cons.mp h
        rw [size_cons] at hsize
        exact ⟨(a, b), ih.mpr ⟨rfl, by omega⟩, rfl⟩
  | case4 n c t hle =>
    constructor
    · intro h
      cases h
    · rintro ⟨h, hsize⟩
      cases a with
      | nil => cases hsize
      | cons d a =>
        obtain ⟨rfl, rfl⟩ := List.cons_eq_cons.mp h
        rw [size_cons] at hsize
        omega

theorem cutAt?_size (a b : Text) : cutAt? (size a) (a ++ b) = some (a, b) :=
  cutAt?_eq_some_iff.mpr ⟨rfl, rfl⟩

/-- There is no cut after the first byte of a longer character. -/
theorem cutAt?_inside {c : Char} (hc : c.utf8Size ≠ 1) (a b : Text) :
    cutAt? (size a + 1) (a ++ c :: b) = none := by
  have hpos := c.utf8Size_pos
  by_contra hsome
  obtain ⟨⟨front, back⟩, hcut⟩ := Option.ne_none_iff_exists'.mp hsome
  obtain ⟨happend, hsize⟩ := cutAt?_eq_some_iff.mp hcut
  rcases List.append_eq_append_iff.mp happend with ⟨more, rfl, hmore⟩ | ⟨more, rfl, -⟩
  · rw [size_append] at hsize
    cases more with
    | nil => simp at hsize
    | cons d more =>
      obtain ⟨rfl, -⟩ := List.cons_eq_cons.mp hmore
      rw [size_cons] at hsize
      omega
  · rw [size_append] at hsize
    omega

/-! ### Forms of characters -/

/-- Forms that begin alike are forms of texts that begin alike. -/
theorem encode_isPrefix_iff {a b : Text} : encode a <+: encode b ↔ a <+: b := by
  constructor
  · intro h
    induction a generalizing b with
    | nil => exact List.nil_prefix
    | cons c a ih =>
      obtain ⟨more, hmore⟩ := h
      cases b with
      | nil => exact absurd (List.append_eq_nil_iff.mp hmore).1 (by simp [encode])
      | cons d b =>
        have hbytes : String.utf8EncodeChar c ++ (encode a ++ more) =
            String.utf8EncodeChar d ++ encode b := by
          rw [← List.append_assoc]
          exact hmore
        -- decoding gives back the character that the bytes begin with
        have hcd : c = d := by
          have hc := ByteArray.utf8DecodeChar?_utf8EncodeChar_append (c := c)
            (b := (encode a ++ more).toByteArray)
          have hd := ByteArray.utf8DecodeChar?_utf8EncodeChar_append (c := d)
            (b := (encode b).toByteArray)
          rw [← List.toByteArray_append, hbytes, List.toByteArray_append, hd] at hc
          exact (Option.some.inj hc).symm
        subst hcd
        exact List.cons_prefix_cons.mpr ⟨rfl, ih ⟨more, List.append_cancel_left hbytes⟩⟩
  · rintro ⟨rest, rfl⟩
    exact ⟨encode rest, (encode_append a rest).symm⟩

/-- **What begins in the middle of a character is no text.** -/
theorem exists_of_encode_isPrefix {p : Text} (hp : p ≠ []) : ∀ {t : Text} {i : Nat},
    encode p <+: (encode t).drop i → ∃ front rest, t = front ++ rest ∧ size front = i ∧ p <+: rest
  | [], i, h => by
    obtain ⟨c, p, rfl⟩ := List.exists_cons_of_ne_nil hp
    have hnil : encode (c :: p) <+: [].drop i := h
    rw [List.drop_nil] at hnil
    exact absurd (List.prefix_nil.mp hnil) (by simp [encode])
  | c :: t, 0, h => ⟨[], c :: t, rfl, rfl, encode_isPrefix_iff.mp h⟩
  | c :: t, i + 1, h => by
    have hcons : encode (c :: t) = String.utf8EncodeChar c ++ encode t := rfl
    have hlength := String.length_utf8EncodeChar c
    rw [hcons] at h
    rcases Nat.lt_or_ge (i + 1) c.utf8Size with hlt | hge
    · -- the first byte of the window continues a character, that of the form begins one
      obtain ⟨d, p, rfl⟩ := List.exists_cons_of_ne_nil hp
      have hlt' : i + 1 < (String.utf8EncodeChar c).length := by omega
      have hzero : 0 < (String.utf8EncodeChar d).length := by
        rw [String.length_utf8EncodeChar]
        exact d.utf8Size_pos
      have hbyte : (String.utf8EncodeChar d)[0] = (String.utf8EncodeChar c)[i + 1] := by
        have hd : (encode (d :: p))[0]? = some (String.utf8EncodeChar d)[0] := by
          rw [← List.getElem?_eq_getElem hzero]
          exact List.getElem?_append_left hzero
        have hc : ((String.utf8EncodeChar c ++ encode t).drop (i + 1))[0]? =
            some (String.utf8EncodeChar c)[i + 1] := by
          rw [List.getElem?_drop, List.getElem?_append_left hlt', List.getElem?_eq_getElem hlt']
        obtain ⟨more, hmore⟩ := h
        have hsize : 0 < (encode (d :: p)).length := Nat.lt_of_lt_of_le hzero (by simp [encode])
        rw [← hmore, List.getElem?_append_left hsize, hd] at hc
        exact Option.some.inj hc
      have hfirst := UInt8.isUTF8FirstByte_getElem_zero_utf8EncodeChar (c := d)
      rw [hbyte, UInt8.isUTF8FirstByte_getElem_utf8EncodeChar] at hfirst
      omega
    · rw [List.drop_append, List.drop_eq_nil_of_le (by omega), List.nil_append, hlength] at h
      obtain ⟨front, rest, rfl, hsize, hfront⟩ := exists_of_encode_isPrefix hp h
      exact ⟨c :: front, rest, rfl, by rw [size_cons]; omega, hfront⟩

/-! ### Letter case in bytes -/

/-- The form of an ASCII letter in upper case, any other byte unchanged. -/
def upperByte (b : UInt8) : UInt8 := if 97 ≤ b.toNat ∧ b.toNat ≤ 122 then b - 32 else b

/-- The bytes that continue a character, or begin a longer one, are no ASCII characters. -/
theorem le_of_mem_utf8EncodeChar {c : Char} (hc : ¬ c.toNat < 128) :
    ∀ b ∈ String.utf8EncodeChar c, 128 ≤ b.toNat := by
  have hval : c.val.toNat = c.toNat := rfl
  intro b hb
  simp only [String.utf8EncodeChar, hval] at hb
  split_ifs at hb
  · omega
  all_goals
    simp only [List.mem_cons, List.not_mem_nil, or_false] at hb
    rcases hb with rfl | rfl | rfl | rfl <;> simp only [UInt8.toNat_ofNat'] <;> omega

set_option maxRecDepth 4000 in
theorem map_upperByte_char (c : Char) :
    (String.utf8EncodeChar c).map upperByte = String.utf8EncodeChar c.toUpper := by
  have hascii : ∀ n < 128, (String.utf8EncodeChar (Char.ofNat n)).map upperByte =
      String.utf8EncodeChar (Char.ofNat n).toUpper := by decide
  by_cases hc : c.toNat < 128
  · simpa using hascii c.toNat hc
  · rw [(toNat_toUpper c).resolve_right fun h => by omega]
    refine (List.map_congr_left fun b hb => ?_).trans (List.map_id _)
    have hle := le_of_mem_utf8EncodeChar hc b hb
    exact if_neg (by omega)

/-- Upper case is the same in characters and in bytes. -/
theorem map_upperByte_encode (t : Text) : (encode t).map upperByte = encode (upper t) := by
  simp only [encode, upper, List.map_flatMap, List.flatMap_map, map_upperByte_char]

/-! ### Windows -/

/-- The number of bytes before the first window that is the pattern, ASCII letters in either
case. -/
def windowIndex? (bytes pattern : List UInt8) : Option Nat :=
  (List.range (bytes.length + 1 - pattern.length)).find? fun i =>
    ((bytes.drop i).take pattern.length).map upperByte == pattern.map upperByte

/-- A search over bytes: the position, counted from one, of the first window that is the needle. -/
def byteIndex (text needle : Text) : Option Nat :=
  (windowIndex? (encode text) (encode needle)).map (· + 1)

/-- A window is the form of the needle where the needle stands in the text. -/
theorem window_iff {text needle : Text} (hne : needle ≠ []) {i : Nat} :
    (((encode text).drop i).take (encode needle).length).map upperByte =
        (encode needle).map upperByte ↔
      ∃ n ≤ text.length, size (text.take n) = i ∧ leads needle (text.drop n) = true := by
  have hfront : (((encode text).drop i).take (encode needle).length).map upperByte =
      (encode needle).map upperByte ↔ encode (upper needle) <+: (encode (upper text)).drop i := by
    rw [← map_upperByte_encode, ← map_upperByte_encode, List.prefix_iff_eq_take, List.map_take,
      List.map_drop, List.length_map, eq_comm]
  rw [hfront]
  constructor
  · intro h
    obtain ⟨front, rest, hupper, hsize, hlead⟩ := exists_of_encode_isPrefix (by simpa [upper]) h
    have htake : upper (text.take front.length) = front := by
      rw [upper, List.map_take, ← upper, hupper, List.take_left]
    have hdrop : upper (text.drop front.length) = rest := by
      rw [upper, List.map_drop, ← upper, hupper, List.drop_left]
    refine ⟨front.length, ?_, ?_, ?_⟩
    · have hlength := congrArg List.length hupper
      rw [length_upper, List.length_append] at hlength
      omega
    · rw [← size_upper, htake, hsize]
    · rw [leads_iff_isPrefix, hdrop]
      exact hlead
  · rintro ⟨n, -, hsize, hlead⟩
    have hcut : encode (upper text) =
        encode (upper (text.take n)) ++ encode (upper (text.drop n)) := by
      rw [← encode_append, ← upper_append, List.take_append_drop]
    have hlength : (encode (upper (text.take n))).length = i := by
      rw [length_encode, size_upper, hsize]
    rw [hcut, ← hlength, List.drop_left, encode_isPrefix_iff]
    exact leads_iff_isPrefix.mp hlead

theorem size_take_mono (t : Text) {n m : Nat} (h : n ≤ m) :
    size (t.take n) ≤ size (t.take m) := by
  obtain ⟨more, hmore⟩ := List.take_prefix_take_left (l := t) h
  rw [← hmore, size_append]
  exact Nat.le_add_right _ _

theorem size_le_of_leads {needle text : Text} (h : leads needle text = true) :
    size needle ≤ size text := by
  obtain ⟨more, hmore⟩ := leads_iff_isPrefix.mp h
  rw [← size_upper needle, ← size_upper text, ← hmore, size_append]
  exact Nat.le_add_right _ _

/-- The first window that is the form of the needle begins where the needle first stands. -/
theorem windowIndex?_encode {text needle : Text} (hne : needle ≠ []) :
    windowIndex? (encode text) (encode needle) =
      (find? needle text).map fun n => size (text.take n) := by
  cases hfind : find? needle text with
  | none =>
    refine List.find?_range_eq_none.mpr fun i _ => ?_
    rw [Bool.not_eq_true', beq_eq_false_iff_ne, Ne, window_iff hne]
    rintro ⟨n, hn, -, hlead⟩
    rw [find?_eq_none_iff.mp hfind n hn] at hlead
    cases hlead
  | some n =>
    obtain ⟨hn, hlead, hfirst⟩ := find?_eq_some_iff.mp hfind
    rw [Option.map_some]
    refine List.find?_range_eq_some.mpr ⟨?_, List.mem_range.mpr ?_, fun i hi => ?_⟩
    · rw [beq_iff_eq, window_iff hne]
      exact ⟨n, hn, rfl, hlead⟩
    · have hsize : size text = size (text.take n) + size (text.drop n) := by
        rw [← size_append, List.take_append_drop]
      have hneedle := size_le_of_leads hlead
      rw [length_encode, length_encode]
      omega
    · rw [Bool.not_eq_true', beq_eq_false_iff_ne, Ne, window_iff hne]
      rintro ⟨m, hm, hsize, hlead'⟩
      have hlt : m < n := by
        by_contra hge
        have := size_take_mono text (Nat.le_of_not_lt hge)
        omega
      rw [hfirst m hlt] at hlead'
      cases hlead'

/-- **A search over bytes** finds what a search over characters finds. -/
theorem byteIndex_eq (text needle : Text) : byteIndex text needle = patternIndex text needle := by
  by_cases hne : needle = []
  · subst hne
    have hwindow : windowIndex? (encode text) (encode []) = some 0 :=
      List.find?_range_eq_some.mpr
        ⟨by simp [encode], by simp [encode], fun i hi => absurd hi i.not_lt_zero⟩
    have hfind : find? [] text = some 0 := by cases text <;> rfl
    rw [byteIndex, hwindow, patternIndex, hfind]
    rfl
  · rw [byteIndex, windowIndex?_encode hne, Option.map_map]
    rfl

end Mcs51.Text
