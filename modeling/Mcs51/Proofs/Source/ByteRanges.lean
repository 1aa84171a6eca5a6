import Mcs51.Proofs.Source.Replacement
import Mcs51.Proofs.Text.Bytes
import Mcs51.Source.Preprocessor
import Mcs51.Source.Statement

/-! # Reading by ranges of bytes

The parts of a line can be read off by arithmetic on byte positions: a search gives a position, and
the text is cut there. Each such reading is written out here with the checks that its arithmetic
calls for, and gives nothing where a check fails: no cut inside a character or past the end, no
difference below zero, no byte out of reach.

None of the checks fails (`argument_eq`, `definition_eq`, `statement_eq`). The search for whole
words goes on from the byte after a failed match, and this is the only range that may begin inside a
character: the readings `findWord` and `replaceWord` give nothing exactly where the search for the
word ends in a fault (`findWord_eq`, `replaceWord_eq`, `expand_eq`), so never for a name that begins
with an ASCII character (`exists_expand`). -/

namespace Mcs51

namespace Text

/-! ### Parts of a text -/

theorem exists_of_leads {needle text : Text} (h : leads needle text = true) :
    ∃ word rest, text = word ++ rest ∧ word.length = needle.length ∧ size word = size needle := by
  have hupper := leads_iff.mp h
  refine ⟨text.take needle.length, text.drop needle.length, (List.take_append_drop _ _).symm, ?_,
    ?_⟩
  · rw [← length_upper, hupper, length_upper]
  · rw [← size_upper, hupper, size_upper]

/-- What a search finds, with what stands before and after it. -/
theorem exists_of_find? {needle text : Text} {n : Nat} (h : find? needle text = some n) :
    ∃ front word rest, text = front ++ (word ++ rest) ∧ front.length = n ∧
      word.length = needle.length ∧ size word = size needle := by
  obtain ⟨hn, hlead, -⟩ := find?_eq_some_iff.mp h
  obtain ⟨word, rest, hdrop, hlength, hsize⟩ := exists_of_leads hlead
  exact ⟨text.take n, word, rest, by rw [← hdrop, List.take_append_drop], List.length_take_of_le hn,
    hlength, hsize⟩

end Text

namespace Source.ByteRange

open Text

/-! ### Directives -/

/-- The text after the first place of a word. -/
def argument (code word : Text) : Option (Option Text) :=
  match byteIndex code word with
  | none => some none
  | some i =>
    let start := i + size word
    if start ≤ size code + 1 then some (substring code start (size code + 1 - start)).toOption
    else none

/-- The number of bytes before the first blank. -/
def blankIndex? (t : Text) : Option Nat := (t.findIdx? isBlank).map fun n => size (t.take n)

/-- The field in front of a text, and the rest. -/
def splitField (t : Text) : Option (Text × Text) :=
  match blankIndex? t with
  | none => some (t, [])
  | some i => do
    let front ← cutAt? i t
    let back ← cutAt? i t
    return (front.1, back.2)

/-- The definition on a line. -/
def definition (code : Text) : Option (Except Problem Replacement) := do
  let arg ← argument code defineWord
  let parts ← splitField (trim (arg.getD []))
  return if parts.1.isIdent then .ok ⟨parts.1, trim parts.2⟩
    else .error (.invalidDefinition parts.1)

/-- The action that a code without label asks for. -/
def actionOf (code : Text) : Option Action :=
  if code.isEmpty then some .nothing
  else
    let line := code.collapse
    if byteIndex line Statement.originWord = some 1 then
      if 4 ≤ size line then
        (substring line 5 (size line - 4)).toOption.map fun arg => .origin (trim arg)
      else none
    else some (.instruction line)

/-- A trimmed code, read as a statement. -/
def statement (code : Text) : Option Statement :=
  match byteIndex code [':'] with
  | none => (actionOf code).map fun action => ⟨none, action⟩
  | some 0 => none
  | some (i + 1) => do
    let front ← cutAt? i code
    let back ← cutAt? (i + 1) code
    let action ← actionOf (trim back.2)
    return ⟨some (trim front.1), action⟩

/-- The byte is the form of a character of identifiers. -/
def isIdentByte (b : UInt8) : Bool :=
  (65 ≤ b.toNat && b.toNat ≤ 90) || (97 ≤ b.toNat && b.toNat ≤ 122) ||
    (48 ≤ b.toNat && b.toNat ≤ 57) || b.toNat == 95

/-- No word goes on from the byte before a position. -/
def freeBefore (text : Text) (n : Nat) : Option Bool :=
  if n = 0 then some true else (encode text)[n - 1]?.map fun b => !isIdentByte b

/-- No word goes on into the byte at a position. -/
def freeAfter (text : Text) (n : Nat) : Option Bool :=
  if n = size text then some true else (encode text)[n]?.map fun b => !isIdentByte b

/-- The position of the first whole word that is the name, from a position on. After a match inside
a longer word the search goes on from the next byte. -/
def findWordFrom (name text : Text) (start : Nat) : Option (Option Nat) :=
  match _hcut : cutAt? start text with
  | none => none
  | some (_, tail) =>
    match byteIndex tail name with
    | none => some none
    | some 0 => none
    | some (i + 1) =>
      match freeBefore text (start + i), freeAfter text (start + i + size name) with
      | some before, some after =>
        if before && after then some (some (start + i)) else findWordFrom name text (start + i + 1)
      | _, _ => none
termination_by size text + 1 - start
decreasing_by
  obtain ⟨h, hsize⟩ := cutAt?_eq_some_iff.mp _hcut
  have hle : start ≤ size text := by
    rw [h, size_append]
    omega
  omega

/-- The position of the first whole word that is the name. -/
def findWord (name text : Text) : Option (Option Nat) := findWordFrom name text 0

/-- Puts a text in the place of every whole word that is the name. -/
def replaceWord (name new : Text) (hne : name ≠ []) (text : Text) : Option Text :=
  match findWord name text with
  | none => none
  | some none => some text
  | some (some i) =>
    match cutAt? i text, _hcut : cutAt? (i + size name) text with
    | some (front, _), some (_, back) =>
      (replaceWord name new hne back).map fun t => front ++ new ++ t
    | _, _ => none
termination_by text.length
decreasing_by
  obtain ⟨h, hsize⟩ := cutAt?_eq_some_iff.mp _hcut
  have hname := length_le_size name
  have hlength := List.length_pos_iff.mpr hne
  rw [h, List.length_append]
  refine Nat.lt_add_of_pos_left (List.length_pos_iff.mpr ?_)
  rintro rfl
  rw [size_nil] at hsize
  omega

/-- Every byte of a character tells whether the character is one of identifiers. -/
theorem isIdentByte_eq {c : Char} {b : UInt8} (hb : b ∈ String.utf8EncodeChar c) :
    isIdentByte b = isIdentChar c := by
  rw [Bool.eq_iff_iff, isIdentChar_iff]
  simp only [isIdentByte, Bool.or_eq_true, Bool.and_eq_true, decide_eq_true_eq, beq_iff_eq]
  by_cases hc : c.toNat < 128
  · rw [String.utf8EncodeChar_eq_singleton (utf8Size_eq_one_iff.mpr hc)] at hb
    have hbyte : b.toNat = c.toNat := by
      rw [List.mem_singleton.mp hb]
      show c.toNat % 256 = c.toNat
      omega
    omega
  · have hle := le_of_mem_utf8EncodeChar hc b hb
    omega

theorem freeBefore_eq (front rest : Text) :
    freeBefore (front ++ rest) (size front) = some (endsWord front.reverse) := by
  rcases List.eq_nil_or_concat front with rfl | ⟨front, c, rfl⟩
  · rfl
  · have hpos := c.utf8Size_pos
    have hlength := String.length_utf8EncodeChar c
    have hsize : size (front.concat c) - 1 = (encode front).length + (c.utf8Size - 1) := by
      simp only [List.concat_eq_append, size_append, size_cons, size_nil, length_encode]
      omega
    have hbyte : (encode (front.concat c ++ rest))[size (front.concat c) - 1]? =
        some (String.utf8EncodeChar c)[c.utf8Size - 1] := by
      rw [hsize, List.concat_eq_append, List.append_assoc, encode_append,
        List.getElem?_append_right (Nat.le_add_right _ _), Nat.add_sub_cancel_left]
      have hlt : c.utf8Size - 1 < (String.utf8EncodeChar c).length := by omega
      exact (List.getElem?_append_left hlt).trans (List.getElem?_eq_getElem hlt)
    rw [freeBefore, if_neg (by simp; omega), hbyte, Option.map_some,
      isIdentByte_eq (List.getElem_mem _)]
    simp [endsWord]

theorem freeAfter_eq (front rest : Text) :
    freeAfter (front ++ rest) (size front) = some (endsWord rest) := by
  cases rest with
  | nil => simp [freeAfter, endsWord]
  | cons c rest =>
    have hpos := c.utf8Size_pos
    have hlength := String.length_utf8EncodeChar c
    have hbyte : (encode (front ++ c :: rest))[size front]? =
        some (String.utf8EncodeChar c)[0] := by
      rw [encode_append, ← length_encode, List.getElem?_append_right (Nat.le_refl _), Nat.sub_self]
      exact (List.getElem?_append_left (by omega)).trans (List.getElem?_eq_getElem _)
    rw [freeAfter, if_neg (by simp; omega), hbyte, Option.map_some,
      isIdentByte_eq (List.getElem_mem _)]
    rfl

/-- The number of characters before the first whole word that is the name. -/
def wordIndexFrom (name : Text) : Bool → Text → Except Fault (Option Nat)
  | _, [] => .ok none
  | edge, c :: rest =>
    match sight name edge (c :: rest) with
    | .word => .ok (some 0)
    | .blocked => .error .insideCharacter
    | .other => (wordIndexFrom name (!isIdentChar c) rest).map (Option.map (· + 1))

theorem hasWordFrom_eq (name : Text) : ∀ (edge : Bool) (text : Text),
    hasWordFrom name edge text = (wordIndexFrom name edge text).map Option.isSome
  | edge, [] => rfl
  | edge, c :: text => by
    rw [hasWordFrom, wordIndexFrom]
    cases sight name edge (c :: text) with
    | word => rfl
    | blocked => rfl
    | other =>
      simp only [hasWordFrom_eq name (!isIdentChar c) text]
      rcases wordIndexFrom name (!isIdentChar c) text with f | _ | n <;> rfl

/-- What stands before the first match of the name is passed over. -/
theorem wordIndexFrom_append {name rest : Text} : ∀ {mid : Text} (front : Text),
    (∀ k < mid.length, leads name ((mid ++ rest).drop k) = false) →
      wordIndexFrom name (endsWord front.reverse) (mid ++ rest) =
        (wordIndexFrom name (endsWord (front ++ mid).reverse) rest).map
          (Option.map (· + mid.length))
  | [], front, _ => by
    rw [List.append_nil, List.nil_append]
    rcases wordIndexFrom name (endsWord front.reverse) rest with f | _ | n <;> rfl
  | c :: mid, front, h => by
    have hlead : leads name (c :: (mid ++ rest)) = false := h 0 (Nat.succ_pos _)
    have hsight (edge : Bool) : sight name edge (c :: (mid ++ rest)) = .other := by
      simp [sight, hlead]
    have hedge : (!isIdentChar c) = endsWord (front ++ [c]).reverse := by simp [endsWord]
    have hmid : front ++ c :: mid = front ++ [c] ++ mid := by simp
    rw [List.cons_append, wordIndexFrom, hsight, hedge, hmid]
    simp only
    rw [wordIndexFrom_append (front ++ [c]) fun k hk => h (k + 1) (Nat.succ_lt_succ hk)]
    rcases wordIndexFrom name (endsWord (front ++ [c] ++ mid).reverse) rest with f | _ | n <;> rfl

/-- What a search sees where the name stands. -/
theorem sight_of_leads {name w back : Text} {c : Char} (edge : Bool)
    (hlength : (c :: w).length = name.length) (hlead : leads name (c :: (w ++ back)) = true) :
    sight name edge (c :: (w ++ back)) =
      if (edge && endsWord back) = true then .word
      else if c.utf8Size = 1 then .other else .blocked := by
  have hdrop : (c :: (w ++ back)).drop name.length = back := by
    rw [← hlength, ← List.cons_append, List.drop_left]
  rw [sight, if_pos hlead, hdrop]

/-! ### The search for a whole word -/

section

variable {name front mid word back rest : Text}

theorem findWordFrom_of_none (h : find? name rest = none) :
    findWordFrom name (front ++ rest) (size front) = some none := by
  rw [findWordFrom]
  split
  · next hcut => simp [cutAt?_size] at hcut
  · next before tail hcut =>
    rw [cutAt?_size] at hcut
    obtain ⟨rfl, rfl⟩ := Prod.mk.inj (Option.some.inj hcut)
    rw [byteIndex_eq, patternIndex, h]
    rfl

/-- At a match the search is over, or goes on from the next byte. -/
theorem findWordFrom_of_match (h : find? name (mid ++ (word ++ back)) = some mid.length)
    (hsize : size word = size name) :
    findWordFrom name (front ++ (mid ++ (word ++ back))) (size front) =
      if (endsWord (front ++ mid).reverse && endsWord back) = true then
        some (some (size (front ++ mid)))
      else findWordFrom name (front ++ (mid ++ (word ++ back))) (size (front ++ mid) + 1) := by
  have hbefore := freeBefore_eq (front ++ mid) (word ++ back)
  have hafter := freeAfter_eq (front ++ mid ++ word) back
  simp only [size_append, List.append_assoc, hsize] at hbefore hafter
  rw [← Nat.add_assoc] at hafter
  rw [findWordFrom]
  split
  · next hcut => simp [cutAt?_size] at hcut
  · next before tail hcut =>
    rw [cutAt?_size] at hcut
    obtain ⟨rfl, rfl⟩ := Prod.mk.inj (Option.some.inj hcut)
    rw [byteIndex_eq, patternIndex, h]
    simp only [Option.map_some, List.take_left, hbefore, hafter, size_append]

theorem findWordFrom_inside {c : Char} (hc : c.utf8Size ≠ 1) :
    findWordFrom name (front ++ c :: rest) (size front + 1) = none := by
  have hinside := cutAt?_inside hc front rest
  rw [findWordFrom]
  split
  · rfl
  · next hcut => simp [hinside] at hcut

end

/-- **A search by positions** finds the word that a search by characters finds, and gives nothing
where that one ends in a fault. -/
theorem findWordFrom_eq {name : Text} (hne : name ≠ []) (front rest : Text) :
    findWordFrom name (front ++ rest) (size front) =
      (wordIndexFrom name (endsWord front.reverse) rest).toOption.map
        (Option.map fun n => size (front ++ rest.take n)) := by
  induction hn : rest.length using Nat.strong_induction_on generalizing front rest with
  | _ n ih =>
    cases hfind : find? name rest with
    | none =>
      have hnone : ∀ k < rest.length, leads name ((rest ++ []).drop k) = false := fun k hk => by
        rw [List.append_nil]
        exact find?_eq_none_iff.mp hfind k (Nat.le_of_lt hk)
      have hpass := wordIndexFrom_append front hnone
      rw [List.append_nil] at hpass
      rw [findWordFrom_of_none hfind, hpass]
      rfl
    | some m =>
      obtain ⟨mid, word, back, rfl, rfl, hlength, hsize⟩ := exists_of_find? hfind
      obtain ⟨-, hlead, hfirst⟩ := find?_eq_some_iff.mp hfind
      rw [List.drop_left] at hlead
      obtain ⟨c, w, rfl⟩ : ∃ c w, word = c :: w := List.exists_cons_of_ne_nil fun h => by
        rw [h] at hlength
        exact hne (List.eq_nil_of_length_eq_zero hlength.symm)
      rw [findWordFrom_of_match hfind hsize, wordIndexFrom_append front hfirst, List.cons_append,
        wordIndexFrom, sight_of_leads _ hlength hlead]
      cases hfree : endsWord (front ++ mid).reverse && endsWord back with
      | true => simp [Except.map, Except.toOption]
      | false =>
        simp only [Bool.false_eq_true, if_false]
        by_cases hc : c.utf8Size = 1
        · -- the next byte begins the next character
          have hnext : front ++ (mid ++ c :: (w ++ back)) =
              front ++ mid ++ [c] ++ (w ++ back) := by simp
          have hstart : size (front ++ mid) + 1 = size (front ++ mid ++ [c]) := by
            rw [size_append _ [c], size_cons, hc, size_nil]
          have hedge : (!isIdentChar c) = endsWord (front ++ mid ++ [c]).reverse := by
            simp [endsWord]
          have hshort : (w ++ back).length < n := by
            rw [← hn]
            simp
            omega
          have htake (k : Nat) : (mid ++ c :: (w ++ back)).take (k + 1 + mid.length) =
              mid ++ c :: (w ++ back).take k := by
            rw [Nat.add_comm, List.take_length_add_append, List.take_succ_cons]
          rw [if_pos hc, hnext, hstart, ih _ hshort _ _ rfl, hedge]
          rcases wordIndexFrom name (endsWord (front ++ mid ++ [c]).reverse) (w ++ back) with
            f | _ | k
          · rfl
          · rfl
          · simp [Except.map, Except.toOption, htake]
        · rw [if_neg hc, ← List.append_assoc, findWordFrom_inside hc]
          rfl

theorem findWord_eq {name : Text} (hne : name ≠ []) (text : Text) :
    findWord name text =
      (wordIndexFrom name true text).toOption.map (Option.map fun n => size (text.take n)) :=
  findWordFrom_eq hne [] text

/-- A replacement goes from word to word. -/
theorem replaceFrom_eq {name : Text} (hne : name ≠ []) (new : Text) : ∀ (edge : Bool) (text : Text),
    replaceFrom name new edge 0 text =
      match wordIndexFrom name edge text with
      | .error f => .error f
      | .ok none => .ok text
      | .ok (some n) => (replaceFrom name new true 0 (text.drop (n + name.length))).map
          (text.take n ++ new ++ ·)
  | edge, [] => rfl
  | edge, c :: text => by
    rw [replaceFrom, wordIndexFrom]
    cases sight name edge (c :: text) with
    | blocked => rfl
    | word =>
      have hlength : name.length = name.length - 1 + 1 := by
        have := List.length_pos_iff.mpr hne
        omega
      simp only [replaceFrom_skip text, Nat.zero_add, List.take_zero, List.nil_append]
      rw [hlength, List.drop_succ_cons, Nat.add_sub_cancel]
    | other =>
      simp only [replaceFrom_eq hne new (!isIdentChar c) text]
      rcases wordIndexFrom name (!isIdentChar c) text with f | _ | n
      · rfl
      · rfl
      · simp only [Except.map, Option.map_some, Nat.add_right_comm, List.drop_succ_cons,
          List.take_succ_cons]
        rcases replaceFrom name new true 0 (text.drop (n + name.length)) with f | t <;> rfl

/-- A word that is found stands in the text. -/
theorem leads_of_wordIndexFrom {name : Text} : ∀ {edge : Bool} {text : Text} {n : Nat},
    wordIndexFrom name edge text = .ok (some n) → leads name (text.drop n) = true
  | edge, [], n, h => by cases h
  | edge, c :: text, n, h => by
    rw [wordIndexFrom] at h
    cases hs : sight name edge (c :: text) with
    | blocked => simp [hs] at h
    | word =>
      simp only [hs] at h
      cases h
      exact (sight_eq_word_iff.mp hs).2.1
    | other =>
      simp only [hs] at h
      obtain ⟨found, hfound, hn⟩ := except_map_ok h
      obtain ⟨k, rfl, rfl⟩ := Option.map_eq_some_iff.mp hn.symm
      rw [List.drop_succ_cons]
      exact leads_of_wordIndexFrom hfound

/-- **Replacing by positions** gives the text that replacing by characters gives, and nothing where
that ends in a fault. -/
theorem replaceWord_eq {name : Text} (hne : name ≠ []) (new text : Text) :
    replaceWord name new hne text = (Source.replaceWord name new text).toOption := by
  induction hn : text.length using Nat.strong_induction_on generalizing text with
  | _ n ih =>
    rw [replaceWord, findWord_eq hne, Source.replaceWord, replaceFrom_eq hne]
    rcases hfound : wordIndexFrom name true text with f | _ | k
    · rfl
    · rfl
    · obtain ⟨word, back, hdrop, hlength, hsize⟩ := exists_of_leads (leads_of_wordIndexFrom hfound)
      have htext : text = text.take k ++ (word ++ back) := by
        rw [← hdrop, List.take_append_drop]
      have hback : text.drop (k + name.length) = back := by
        rw [← List.drop_drop, hdrop, ← hlength, List.drop_left]
      have hfirst : cutAt? (size (text.take k)) text = some (text.take k, word ++ back) :=
        cutAt?_eq_some_iff.mpr ⟨htext, rfl⟩
      have hsecond : cutAt? (size (text.take k) + size name) text =
          some (text.take k ++ word, back) :=
        cutAt?_eq_some_iff.mpr ⟨by rwa [List.append_assoc], by rw [size_append, hsize]⟩
      have hshort : back.length < n := by
        rw [← hn, htext, List.length_append, List.length_append, hlength]
        have := List.length_pos_iff.mpr hne
        omega
      simp only [Except.toOption, Option.map_some, hfirst, hback]
      split
      · next hfront hcut =>
        rw [hsecond] at hcut
        cases hfront
        cases hcut
        rw [ih back.length hshort back rfl, Source.replaceWord]
        rcases replaceFrom name new true 0 back with f | t <;> rfl
      · next hno =>
        exact absurd hsecond (hno _ _ _ _ rfl)

/-! ### Expansion -/

/-- Puts the expansion in the place of every whole word that is the name, through a placeholder if
the expansion mentions the name. -/
def expand (r : Replacement) (text : Text) : Option Text :=
  if hname : r.name = [] then some text
  else
    match findWord r.name text, findWord r.name r.expansion with
    | none, _ => none
    | some none, _ => some text
    | some (some _), none => none
    | some (some _), some none => replaceWord r.name r.expansion hname text
    | some (some _), some (some _) =>
      match placeholder? text r.expansion with
      | none => none
      | some p =>
        if hp : p = [] then none
        else (replaceWord r.name p hname text).bind (replaceWord p r.expansion hp)

/-- **Expanding by positions** gives what expanding by characters gives, and nothing where that ends
in a fault. -/
theorem expand_eq (r : Replacement) (text : Text) : expand r text = (r.expand text).toOption := by
  unfold expand Replacement.expand
  by_cases hname : r.name = []
  · rw [dif_pos hname, if_pos (by simp [hname])]
    rfl
  · rw [dif_neg hname, if_neg (by simpa using hname), hasWord, hasWord, hasWordFrom_eq,
      hasWordFrom_eq, findWord_eq hname, findWord_eq hname]
    rcases wordIndexFrom r.name true text with f | _ | n
    · rfl
    · rfl
    · rcases wordIndexFrom r.name true r.expansion with f | _ | m
      · rfl
      · exact replaceWord_eq hname r.expansion text
      · obtain ⟨k, hplaceholder⟩ := exists_placeholder text r.expansion
        simp only [Except.toOption, Except.map, Option.map_some, Option.isSome_some, hplaceholder]
        rw [dif_neg (candidate_ne_nil k), replaceWord_eq]
        cases Source.replaceWord r.name (candidate k) text with
        | error f => rfl
        | ok held => exact replaceWord_eq (candidate_ne_nil k) r.expansion held

/-- A name that begins with an ASCII character is replaced by positions in every text. -/
theorem exists_expand {r : Replacement} (h : opensAscii r.name = true) (text : Text) :
    ∃ t, expand r text = some t ∧ r.expand text = .ok t := by
  obtain ⟨t, ht⟩ := Replacement.exists_expand h text
  exact ⟨t, by rw [expand_eq, ht]; rfl, ht⟩

end Source.ByteRange

end Mcs51
