import Mathlib.Data.Fintype.Card
import Mcs51.Proofs.Text.Words
import Mcs51.Source.Replacement

/-! # What an expansion can bring into a text

Every character of an expanded text comes from the text, from an expansion or from a placeholder
(`forall_expandAll`). There is always a placeholder (`exists_isFree`), and the search for it ends
(`placeholder_search_ends`), so replacing names that begin with an ASCII character never fails
(`exists_expandAll`).

An expansion replaces whole words. A word with a sign before it, such as a directive, can therefore
come about only where the sign was there before and the expansion begins with the word
(`mentions_expandAll`). -/

namespace Mcs51.Source

theorem except_map_ok {ε α β : Type} {x : Except ε α} {f : α → β} {b : β} (h : x.map f = .ok b) :
    ∃ a, x = .ok a ∧ b = f a := by
  cases x with
  | error e => cases h
  | ok a => exact ⟨a, rfl, (Except.ok.inj h).symm⟩

/-- A search sees the name where a word may start, the name stands and the word ends with it. -/
theorem sight_eq_word_iff {name text : Text} {edge : Bool} :
    sight name edge text = .word ↔
      edge = true ∧ Text.leads name text = true ∧ endsWord (text.drop name.length) = true := by
  unfold sight
  split_ifs with hlead hword
  · simpa [hlead] using hword
  · refine iff_of_false (fun hs => ?_) fun ⟨hedge, _, hends⟩ => hword (by simp [hedge, hends])
    split at hs
    · split_ifs at hs
    · cases hs
  · simp [hlead]

/-- What a replacement does at the front of a text: it puts the new text there, or keeps the first
character. -/
theorem replaceFrom_cons_ok {name new text t : Text} {c : Char} {edge : Bool}
    (h : replaceFrom name new edge 0 (c :: text) = .ok t) :
    (sight name edge (c :: text) = .word ∧
      ∃ u, replaceFrom name new true (name.length - 1) text = .ok u ∧ t = new ++ u) ∨
    (sight name edge (c :: text) = .other ∧
      ∃ u, replaceFrom name new (!Text.isIdentChar c) 0 text = .ok u ∧ t = c :: u) := by
  simp only [replaceFrom] at h
  split at h
  · next hs => exact Or.inl ⟨hs, except_map_ok h⟩
  · simp at h
  · next hs => exact Or.inr ⟨hs, except_map_ok h⟩

/-! ### Characters -/

/-- A placeholder is made of characters of identifiers. -/
theorem isIdentChar_candidate (n : Nat) : ∀ c ∈ candidate n, Text.isIdentChar c = true := by
  have hfirst : "__macro".toList.all Text.isIdentChar = true := by decide
  have hlast : "__".toList.all Text.isIdentChar = true := by decide
  intro c hc
  unfold candidate at hc
  rcases List.mem_append.mp hc with hc | hc
  · rcases List.mem_append.mp hc with hc | hc
    · exact List.all_eq_true.mp hfirst c hc
    · have hdigit : c.isDigit = true := Nat.isDigit_of_mem_toDigits (by decide) (by decide) hc
      simp [Text.isIdentChar, Char.isAlphanum, hdigit]
  · exact List.all_eq_true.mp hlast c hc

theorem forall_replaceFrom {P : Char → Prop} {name new : Text} (hnew : ∀ c ∈ new, P c) :
    ∀ {text t : Text} {edge : Bool} {skip : Nat}, (∀ c ∈ text, P c) →
      replaceFrom name new edge skip text = .ok t → ∀ c ∈ t, P c
  | [], t, edge, skip, _, h => by
    cases skip <;> cases h <;> simp
  | x :: text, t, edge, skip + 1, ht, h => by
    simp only [replaceFrom] at h
    exact forall_replaceFrom hnew (fun c hc => ht c (by simp [hc])) h
  | x :: text, t, edge, 0, ht, h => by
    have ht' : ∀ c ∈ text, P c := fun c hc => ht c (by simp [hc])
    intro c hc
    rcases replaceFrom_cons_ok h with ⟨-, u, hu, rfl⟩ | ⟨-, u, hu, rfl⟩
    · rcases List.mem_append.mp hc with hc | hc
      · exact hnew c hc
      · exact forall_replaceFrom hnew ht' hu c hc
    · rcases List.mem_cons.mp hc with rfl | hc
      · exact ht c (by simp)
      · exact forall_replaceFrom hnew ht' hu c hc

theorem placeholder?_eq_some {a b p : Text} (h : placeholder? a b = some p) :
    ∃ n, p = candidate n := by
  obtain ⟨n, -, rfl⟩ := Option.map_eq_some_iff.mp h
  exact ⟨n, rfl⟩

namespace Replacement

/-- What an expansion does to a text: nothing, one replacement, or two with a placeholder between
them. -/
theorem expand_ok {r : Replacement} {text t : Text} (h : r.expand text = .ok t) :
    t = text ∨ replaceWord r.name r.expansion text = .ok t ∨
      ∃ n held, replaceWord r.name (candidate n) text = .ok held ∧
        replaceWord (candidate n) r.expansion held = .ok t := by
  unfold expand at h
  split_ifs at h
  · exact Or.inl (Except.ok.inj h).symm
  · split at h
    · simp at h
    · exact Or.inl (Except.ok.inj h).symm
    · simp at h
    · exact Or.inr (Or.inl h)
    · split at h
      · simp at h
      · next p hp =>
        obtain ⟨n, rfl⟩ := placeholder?_eq_some hp
        split at h
        · simp at h
        · next held hheld => exact Or.inr (Or.inr ⟨n, held, hheld, h⟩)

theorem forall_expand {P : Char → Prop} (hident : ∀ c, Text.isIdentChar c = true → P c)
    {r : Replacement} (hr : ∀ c ∈ r.expansion, P c) {text t : Text} (ht : ∀ c ∈ text, P c)
    (h : r.expand text = .ok t) : ∀ c ∈ t, P c := by
  rcases expand_ok h with rfl | h | ⟨n, held, hheld, h⟩
  · exact ht
  · exact forall_replaceFrom hr ht h
  · have hp : ∀ c ∈ candidate n, P c := fun c hc => hident c (isIdentChar_candidate n c hc)
    exact forall_replaceFrom hr (forall_replaceFrom hp ht hheld) h

/-- **Where the characters of an expanded text come from.** -/
theorem forall_expandAll {P : Char → Prop} (hident : ∀ c, Text.isIdentChar c = true → P c) :
    ∀ {rs : List Replacement} {text t : Text}, (∀ r ∈ rs, ∀ c ∈ r.expansion, P c) →
      (∀ c ∈ text, P c) → expandAll rs text = .ok t → ∀ c ∈ t, P c
  | [], text, t, _, ht, h => by
    cases h
    exact ht
  | r :: rs, text, t, hrs, ht, h => by
    simp only [expandAll] at h
    split at h
    · simp at h
    · next u hu =>
      exact forall_expandAll hident (fun q hq => hrs q (by simp [hq]))
        (forall_expand hident (hrs r (by simp)) ht hu) h

end Replacement

/-! ### Placeholders -/

theorem upper_decimal (n : Nat) : Text.upper (Text.decimal n) = Text.decimal n := by
  unfold Text.upper
  conv_rhs => rw [← List.map_id (Text.decimal n)]
  refine List.map_congr_left fun c hc => ?_
  have hdigit : c.isDigit = true := Nat.isDigit_of_mem_toDigits (by decide) (by decide) hc
  simp only [Char.isDigit, Bool.and_eq_true, decide_eq_true_eq, ge_iff_le,
    UInt32.le_iff_toNat_le] at hdigit
  have hle : c.toNat ≤ 57 := hdigit.2
  rcases Text.toNat_toUpper c with h | ⟨h, -⟩
  · exact h
  · omega

/-- Candidates that stand at the same place are the same. -/
theorem candidate_inj {text : Text} {n m : Nat} (hn : Text.leads (candidate n) text = true)
    (hm : Text.leads (candidate m) text = true) : n = m := by
  -- the digits of a candidate end at the sign after them
  have hdigits (k : Nat) (rest : Text) :
      (Text.decimal k ++ ("__".toList ++ rest)).takeWhile Char.isDigit = Text.decimal k := by
    rw [List.takeWhile_append_of_pos]
    · exact List.append_nil _
    · exact fun c hc => Nat.isDigit_of_mem_toDigits (by decide) (by decide) hc
  have key {i j : Nat} (h : Text.upper (candidate i) <+: Text.upper (candidate j)) : i = j := by
    unfold candidate at h
    simp only [Text.upper_append, upper_decimal, List.append_assoc] at h
    rw [List.prefix_append_right_inj] at h
    obtain ⟨rest, hrest⟩ := h
    have heq : Text.decimal i = Text.decimal j := by
      rw [← hdigits i rest, ← hdigits j []]
      congr 1
      simpa [Text.upper] using hrest
    have hval := congrArg (Nat.ofDigitChars 10 · 0) heq
    unfold Text.decimal at hval
    simpa [Nat.ofDigitChars_toDigits] using hval
  rcases List.prefix_or_prefix_of_prefix (Text.leads_iff_isPrefix.mp hn)
    (Text.leads_iff_isPrefix.mp hm) with h | h
  · exact key h
  · exact (key h).symm

theorem candidate_ne_nil (n : Nat) : candidate n ≠ [] :=
  List.append_ne_nil_of_right_ne_nil _ (by decide)

/-- What stands at a place of two texts, counting through both. -/
def textAt (a b : Text) (i : Nat) : Text :=
  if i < a.length then a.drop i else b.drop (i - a.length)

theorem exists_textAt {a b : Text} {n : Nat} (h : isFree a b n = false) :
    ∃ i < a.length + b.length, Text.leads (candidate n) (textAt a b i) = true := by
  have hne := candidate_ne_nil n
  unfold isFree Text.mentions at h
  cases ha : Text.find? (candidate n) a with
  | some k =>
    obtain ⟨hlt, hlead⟩ := Text.find?_lt hne ha
    exact ⟨k, by omega, by rw [textAt, if_pos hlt]; exact hlead⟩
  | none =>
    cases hb : Text.find? (candidate n) b with
    | none => simp [ha, hb] at h
    | some k =>
      obtain ⟨hlt, hlead⟩ := Text.find?_lt hne hb
      refine ⟨a.length + k, by omega, ?_⟩
      rw [textAt, if_neg (by omega), Nat.add_sub_cancel_left]
      exact hlead

/-- **There is always a placeholder**: no more candidates stand in two texts than these have
characters. -/
theorem exists_isFree (a b : Text) : ∃ n ≤ a.size + b.size, isFree a b n = true := by
  by_contra hnone
  have htaken : ∀ n : Fin (a.size + b.size + 1), ∃ i : Fin (a.length + b.length),
      Text.leads (candidate n) (textAt a b i) = true := by
    intro n
    have hf : isFree a b n = false := by
      by_contra hf
      exact hnone ⟨n, by omega, by simpa using hf⟩
    obtain ⟨i, hi, hlead⟩ := exists_textAt hf
    exact ⟨⟨i, hi⟩, hlead⟩
  choose place hplace using htaken
  have hinj : Function.Injective place := by
    intro n m h
    have hm := hplace m
    rw [← h] at hm
    exact Fin.ext (candidate_inj (hplace n) hm)
  have hcard := Fintype.card_le_of_injective place hinj
  rw [Fintype.card_fin, Fintype.card_fin] at hcard
  have ha := Text.length_le_size a
  have hb := Text.length_le_size b
  omega

theorem isFree_iff {a b : Text} {n : Nat} : isFree a b n = true ↔
    a.patternIndex (candidate n) = none ∧ b.patternIndex (candidate n) = none := by
  simp [isFree, Text.mentions, Text.patternIndex]

/-- The placeholder taken is the first candidate that stands in neither text. -/
theorem exists_first_isFree (a b : Text) : ∃ m ≤ a.size + b.size, isFree a b m = true ∧
    (∀ i < m, isFree a b i = false) ∧ placeholder? a b = some (candidate m) := by
  obtain ⟨n, hn, hfree⟩ := exists_isFree a b
  have hsome : ((List.range (a.size + b.size + 1)).find? (isFree a b)).isSome = true := by
    rw [List.find?_isSome]
    exact ⟨n, List.mem_range.mpr (by omega), hfree⟩
  obtain ⟨m, hm⟩ := Option.isSome_iff_exists.mp hsome
  obtain ⟨hfirst, hmem, htaken⟩ := List.find?_range_eq_some.mp hm
  have hlt := List.mem_range.mp hmem
  exact ⟨m, by omega, hfirst, fun i hi => by simpa using htaken i hi, by rw [placeholder?, hm]; rfl⟩

/-- The search for a placeholder: candidates are tried in order, until one stands in neither text.
From the number `n` on it ends at the number `m`, after `k` tries. -/
inductive Tries (a b : Text) : Nat → Nat → Nat → Prop
  | found {n : Nat} (free : isFree a b n = true) : Tries a b n 1 n
  | taken {n k m : Nat} (taken : isFree a b n = false) (next : Tries a b (n + 1) k m) :
      Tries a b n (k + 1) m

theorem tries_of_first {a b : Text} {m : Nat} (hfree : isFree a b m = true) : ∀ {d n : Nat},
    n + d = m → (∀ i, n ≤ i → i < m → isFree a b i = false) → Tries a b n (d + 1) m
  | 0, n, h, _ => by
    obtain rfl : n = m := h
    exact .found hfree
  | d + 1, n, h, htaken =>
    .taken (htaken n (Nat.le_refl n) (by omega))
      (tries_of_first hfree (by omega) fun i hi => htaken i (by omega))

/-- **The search for a placeholder ends**: of the candidates with a number up to the size of the two
texts one is found in neither, so no more are tried than that and one. -/
theorem placeholder_search_ends (a b : Text) : ∃ m ≤ a.size + b.size,
    a.patternIndex (candidate m) = none ∧ b.patternIndex (candidate m) = none ∧
      Tries a b 0 (m + 1) m ∧ placeholder? a b = some (candidate m) := by
  obtain ⟨m, hm, hfree, htaken, hplaceholder⟩ := exists_first_isFree a b
  obtain ⟨ha, hb⟩ := isFree_iff.mp hfree
  exact ⟨m, hm, ha, hb, tries_of_first hfree (Nat.zero_add m) fun i _ hi => htaken i hi,
    hplaceholder⟩

/-! ### No faults -/

theorem isIdentChar_of_isIdent {name : Text} (h : name.isIdent = true) :
    name ≠ [] ∧ ∀ c ∈ name, Text.isIdentChar c = true := by
  cases name with
  | nil => simp [Text.isIdent] at h
  | cons c name =>
    simp only [Text.isIdent, Bool.and_eq_true, List.all_eq_true] at h
    exact ⟨by simp, h.2⟩

/-- The text begins with an ASCII character. -/
def opensAscii (t : Text) : Bool := t.head?.any fun c => c.toNat < 128

theorem utf8Size_eq_one_iff {c : Char} : c.utf8Size = 1 ↔ c.toNat < 128 := by
  have hval : c.val.toNat = c.toNat := rfl
  have hlimit : (127 : UInt32).toNat = 127 := rfl
  rw [Char.utf8Size_eq_one_iff, UInt32.le_iff_toNat_le, hval, hlimit]
  omega

theorem opensAscii_iff {t : Text} :
    opensAscii t = true ↔ ∃ c rest, t = c :: rest ∧ c.utf8Size = 1 := by
  cases t with
  | nil => simp [opensAscii]
  | cons c rest => simp [opensAscii, utf8Size_eq_one_iff]

theorem opensAscii_of_isIdentChar {name : Text} (hne : name ≠ [])
    (hname : ∀ c ∈ name, Text.isIdentChar c = true) : opensAscii name = true := by
  obtain ⟨c, rest, rfl⟩ := List.exists_cons_of_ne_nil hne
  exact opensAscii_iff.mpr ⟨c, rest, rfl, Text.utf8Size_of_isIdentChar (hname c (by simp))⟩

theorem opensAscii_of_isIdent {name : Text} (h : name.isIdent = true) : opensAscii name = true :=
  opensAscii_of_isIdentChar (isIdentChar_of_isIdent h).1 (isIdentChar_of_isIdent h).2

/-- Characters that differ in letter case only are ASCII characters both or neither. -/
theorem toNat_lt_of_toUpper_eq {c d : Char} (h : c.toUpper = d.toUpper) (hd : d.toNat < 128) :
    c.toNat < 128 := by
  have h := congrArg Char.toNat h
  rcases Text.toNat_toUpper c with hc | ⟨-, hc, -⟩
  · rw [hc] at h
    rcases Text.toNat_toUpper d with hd' | ⟨-, -, hd'⟩
    · rw [hd'] at h
      omega
    · omega
  · omega

/-- The search for a name that begins with an ASCII character always goes on. -/
theorem sight_ne_blocked {name text : Text} (hname : opensAscii name = true) (edge : Bool) :
    sight name edge text ≠ .blocked := by
  obtain ⟨n, rest, rfl, hn⟩ := opensAscii_iff.mp hname
  unfold sight
  split_ifs with hlead hword
  · simp
  · cases text with
    | nil => simp
    | cons c text =>
      obtain ⟨hc, -⟩ := Text.leads_cons_cons.mp hlead
      have hsize : c.utf8Size = 1 :=
        utf8Size_eq_one_iff.mpr (toNat_lt_of_toUpper_eq hc (utf8Size_eq_one_iff.mp hn))
      simp [hsize]
  · simp

theorem exists_hasWordFrom {name : Text} (hname : opensAscii name = true) :
    ∀ (text : Text) (edge : Bool), ∃ b, hasWordFrom name edge text = .ok b
  | [], edge => ⟨false, rfl⟩
  | c :: text, edge => by
    rw [hasWordFrom]
    cases hs : sight name edge (c :: text) with
    | word => exact ⟨true, rfl⟩
    | other => exact exists_hasWordFrom hname text _
    | blocked => exact absurd hs (sight_ne_blocked hname edge)

theorem exists_replaceFrom {name : Text} (hname : opensAscii name = true) (new : Text) :
    ∀ (text : Text) (edge : Bool) (skip : Nat), ∃ t, replaceFrom name new edge skip text = .ok t
  | [], edge, skip => ⟨[], by cases skip <;> rfl⟩
  | c :: text, edge, skip + 1 => exists_replaceFrom hname new text edge skip
  | c :: text, edge, 0 => by
    rw [replaceFrom]
    cases hs : sight name edge (c :: text) with
    | word =>
      obtain ⟨t, ht⟩ := exists_replaceFrom hname new text true (name.length - 1)
      exact ⟨new ++ t, by simp only [ht]; rfl⟩
    | other =>
      obtain ⟨t, ht⟩ := exists_replaceFrom hname new text (!Text.isIdentChar c) 0
      exact ⟨c :: t, by simp only [ht]; rfl⟩
    | blocked => exact absurd hs (sight_ne_blocked hname edge)

theorem exists_placeholder (a b : Text) : ∃ n, placeholder? a b = some (candidate n) := by
  obtain ⟨m, -, -, -, hplaceholder⟩ := exists_first_isFree a b
  exact ⟨m, hplaceholder⟩

namespace Replacement

/-- **Replacing a name that begins with an ASCII character succeeds.** -/
theorem exists_expand {r : Replacement} (h : opensAscii r.name = true) (text : Text) :
    ∃ t, r.expand text = .ok t := by
  obtain ⟨c, rest, hcons, -⟩ := opensAscii_iff.mp h
  obtain ⟨inText, ht⟩ := exists_hasWordFrom h text true
  obtain ⟨inNew, hn⟩ := exists_hasWordFrom h r.expansion true
  unfold expand
  rw [if_neg (by simp [hcons]), hasWord, hasWord, ht, hn]
  cases inText with
  | false => exact ⟨text, rfl⟩
  | true =>
    cases inNew with
    | false => exact exists_replaceFrom h r.expansion text true 0
    | true =>
      obtain ⟨n, hp⟩ := exists_placeholder text r.expansion
      obtain ⟨held, hheld⟩ := exists_replaceFrom h (candidate n) text true 0
      have hheld : replaceWord r.name (candidate n) text = .ok held := hheld
      have hcandidate : opensAscii (candidate n) = true :=
        opensAscii_of_isIdentChar (candidate_ne_nil n) (isIdentChar_candidate n)
      simp only [hp, hheld]
      exact exists_replaceFrom hcandidate r.expansion held true 0

theorem exists_expandAll : ∀ {rs : List Replacement}, (∀ r ∈ rs, opensAscii r.name = true) →
    ∀ text : Text, ∃ t, expandAll rs text = .ok t
  | [], _, text => ⟨text, rfl⟩
  | r :: rs, h, text => by
    obtain ⟨u, hu⟩ := exists_expand (h r (by simp)) text
    have hrs : ∀ q ∈ rs, opensAscii q.name = true := fun q hq => h q (by simp [hq])
    obtain ⟨t, ht⟩ := exists_expandAll hrs u
    exact ⟨t, by rw [expandAll, hu]; exact ht⟩

/-- Replacements are applied table by table. -/
theorem expandAll_append : ∀ (rs more : List Replacement) (text : Text),
    expandAll (rs ++ more) text = expandAll rs text >>= expandAll more
  | [], _, _ => rfl
  | r :: rs, more, text => by
    rw [List.cons_append, expandAll, expandAll]
    cases r.expand text with
    | error f => rfl
    | ok t => exact expandAll_append rs more t

end Replacement

/-! ### Words with a sign before them -/

/-- After a character of a word nothing is replaced until the word ends. -/
theorem leads_replaceFrom_false {name new : Text} : ∀ {word text t : Text},
    (∀ c ∈ word, Text.isIdentChar c = true) → replaceFrom name new false 0 text = .ok t →
      Text.leads word t = true → Text.leads word text = true
  | [], text, t, _, _, _ => Text.leads_nil text
  | c :: word, [], t, _, h, hlead => by
    cases h
    exact hlead
  | c :: word, x :: text, t, hword, h, hlead => by
    rcases replaceFrom_cons_ok h with ⟨hs, -⟩ | ⟨-, u, hu, rfl⟩
    · obtain ⟨hedge, -⟩ := sight_eq_word_iff.mp hs
      simp at hedge
    · obtain ⟨hx, hlead⟩ := Text.leads_cons_cons.mp hlead
      have hident : Text.isIdentChar x = true := by
        rw [Text.isIdentChar_congr hx]
        exact hword c (by simp)
      rw [hident] at hu
      exact Text.leads_cons_cons.mpr
        ⟨hx, leads_replaceFrom_false (fun d hd => hword d (by simp [hd])) hu hlead⟩

/-- A word that stands at the front of two texts in a row stands in the first, if the second does
not go on with a character of a word. -/
theorem leads_of_leads_append : ∀ {word a b : Text}, (∀ c ∈ word, Text.isIdentChar c = true) →
    endsWord b = true → Text.leads word (a ++ b) = true → Text.leads word a = true
  | [], a, b, _, _, _ => Text.leads_nil a
  | c :: word, [], [], _, _, hlead => hlead
  | c :: word, [], x :: b, hword, hb, hlead => by
    obtain ⟨hx, -⟩ := Text.leads_cons_cons.mp hlead
    have hident := hword c (by simp)
    rw [← Text.isIdentChar_congr hx] at hident
    simp [endsWord, hident] at hb
  | c :: word, x :: a, b, hword, hb, hlead => by
    obtain ⟨hx, hlead⟩ := Text.leads_cons_cons.mp hlead
    exact Text.leads_cons_cons.mpr
      ⟨hx, leads_of_leads_append (fun d hd => hword d (by simp [hd])) hb hlead⟩

theorem replaceFrom_skip {name new : Text} : ∀ (text : Text) (edge : Bool) (skip : Nat),
    replaceFrom name new edge skip text = replaceFrom name new edge 0 (text.drop skip)
  | _, _, 0 => rfl
  | [], _, _ + 1 => rfl
  | _ :: text, edge, skip + 1 => replaceFrom_skip text edge skip

/-- Where no word goes on, none goes on after the replacement. -/
theorem endsWord_replaceFrom {name new text t : Text} (hne : name ≠ [])
    (hname : ∀ c ∈ name, Text.isIdentChar c = true) (hends : endsWord text = true)
    (h : replaceFrom name new true 0 text = .ok t) : endsWord t = true := by
  cases text with
  | nil =>
    cases h
    rfl
  | cons x text =>
    have hx : Text.isIdentChar x = false := by simpa [endsWord] using hends
    rcases replaceFrom_cons_ok h with ⟨hs, -⟩ | ⟨-, u, -, rfl⟩
    · cases name with
      | nil => exact absurd rfl hne
      | cons n name =>
        obtain ⟨-, hlead, -⟩ := sight_eq_word_iff.mp hs
        obtain ⟨hxn, -⟩ := Text.leads_cons_cons.mp hlead
        have hident := hname n (by simp)
        rw [← Text.isIdentChar_congr hxn, hx] at hident
        simp at hident
    · exact hends

/-- Where a word may start, the word at the front of the result stood there before, or it is at the
front of what was put in. -/
theorem leads_replaceFrom_true {name new word text t : Text} (hne : name ≠ [])
    (hname : ∀ c ∈ name, Text.isIdentChar c = true)
    (hword : ∀ c ∈ word, Text.isIdentChar c = true)
    (h : replaceFrom name new true 0 text = .ok t) (hlead : Text.leads word t = true) :
    Text.leads word text = true ∨ Text.leads word new = true := by
  cases text with
  | nil =>
    cases h
    exact Or.inl hlead
  | cons x text =>
    rcases replaceFrom_cons_ok h with ⟨hs, u, hu, rfl⟩ | ⟨-, u, hu, rfl⟩
    · -- what follows the name ends a word, and still does so in the result
      have hends : endsWord (text.drop (name.length - 1)) = true := by
        obtain ⟨-, -, hends⟩ := sight_eq_word_iff.mp hs
        cases name with
        | nil => exact absurd rfl hne
        | cons n name => simpa using hends
      rw [replaceFrom_skip] at hu
      exact Or.inr (leads_of_leads_append hword (endsWord_replaceFrom hne hname hends hu) hlead)
    · cases word with
      | nil => exact Or.inl (Text.leads_nil _)
      | cons c word =>
        obtain ⟨hx, hlead⟩ := Text.leads_cons_cons.mp hlead
        have hident : Text.isIdentChar x = true := by
          rw [Text.isIdentChar_congr hx]
          exact hword c (by simp)
        rw [hident] at hu
        exact Or.inl (Text.leads_cons_cons.mpr
          ⟨hx, leads_replaceFrom_false (fun d hd => hword d (by simp [hd])) hu hlead⟩)

theorem mentions_append {word a b : Text} (ha : '#' ∉ a) :
    Text.mentions (a ++ b) ('#' :: word) = true → Text.mentions b ('#' :: word) = true := by
  induction a with
  | nil => exact id
  | cons x a ih =>
    intro h
    rcases Text.mentions_cons.mp h with h | h
    · obtain ⟨hx, -⟩ := Text.leads_cons_cons.mp h
      have hx : x = '#' := (Text.toUpper_eq_iff (by decide)).mp hx
      exact absurd (by simp [hx]) ha
    · exact ih (fun hm => ha (by simp [hm])) h

/-- A word with a sign before it does not come about by a replacement, unless what is put in has the
sign or begins with the word. -/
theorem mentions_replaceFrom {name new word : Text} (hne : name ≠ [])
    (hname : ∀ c ∈ name, Text.isIdentChar c = true)
    (hword : ∀ c ∈ word, Text.isIdentChar c = true) (hnew : '#' ∉ new)
    (hlead : Text.leads word new = false) : ∀ {text t : Text} {edge : Bool} {skip : Nat},
      replaceFrom name new edge skip text = .ok t → Text.mentions t ('#' :: word) = true →
      Text.mentions text ('#' :: word) = true
  | [], t, edge, skip, h, hm => by
    cases skip <;> cases h <;> exact hm
  | x :: text, t, edge, skip + 1, h, hm =>
    Text.mentions_cons.mpr
      (Or.inr (mentions_replaceFrom hne hname hword hnew hlead
        (show replaceFrom _ _ _ _ _ = _ from h) hm))
  | x :: text, t, edge, 0, h, hm => by
    rw [Text.mentions_cons]
    rcases replaceFrom_cons_ok h with ⟨-, u, hu, rfl⟩ | ⟨-, u, hu, rfl⟩
    · exact Or.inr (mentions_replaceFrom hne hname hword hnew hlead hu (mentions_append hnew hm))
    · rcases Text.mentions_cons.mp hm with hm | hm
      · obtain ⟨hx, hlead'⟩ := Text.leads_cons_cons.mp hm
        obtain rfl : x = '#' := (Text.toUpper_eq_iff (by decide)).mp hx
        rcases leads_replaceFrom_true hne hname hword hu hlead' with hl | hl
        · exact Or.inl (Text.leads_cons_cons.mpr ⟨rfl, hl⟩)
        · rw [hlead] at hl
          simp at hl
      · exact Or.inr (mentions_replaceFrom hne hname hword hnew hlead hu hm)

/-- A word that a placeholder does not begin with. -/
def Plain (word : Text) : Prop :=
  (∀ c ∈ word, Text.isIdentChar c = true) ∧ ∀ n, Text.leads word (candidate n) = false

namespace Replacement

/-- The replacement brings in no directive: its name is an identifier, and its expansion has no `#`
and does not begin with the word of a directive. -/
structure Harmless (words : List Text) (r : Replacement) : Prop where
  ident : r.name.isIdent = true
  noSign : '#' ∉ r.expansion
  noWord : ∀ w ∈ words, Text.leads w r.expansion = false

theorem mentions_expand {r : Replacement} {word text t : Text} {words : List Text}
    (hr : r.Harmless words) (hw : word ∈ words) (hplain : Plain word) (h : r.expand text = .ok t)
    (hm : Text.mentions t ('#' :: word) = true) : Text.mentions text ('#' :: word) = true := by
  obtain ⟨hne, hname⟩ := isIdentChar_of_isIdent hr.ident
  rcases expand_ok h with rfl | h | ⟨n, held, hheld, h⟩
  · exact hm
  · exact mentions_replaceFrom hne hname hplain.1 hr.noSign (hr.noWord word hw) h hm
  · have hsign : '#' ∉ candidate n := by
      intro hc
      have := isIdentChar_candidate n _ hc
      revert this
      decide
    have hheld' : Text.mentions held ('#' :: word) = true :=
      mentions_replaceFrom (candidate_ne_nil n) (isIdentChar_candidate n) hplain.1 hr.noSign
        (hr.noWord word hw) h hm
    exact mentions_replaceFrom hne hname hplain.1 hsign (hplain.2 n) hheld hheld'

/-- **An expansion makes no directive.** -/
theorem mentions_expandAll {word : Text} {words : List Text} (hw : word ∈ words)
    (hplain : Plain word) : ∀ {rs : List Replacement} {text t : Text},
      (∀ r ∈ rs, r.Harmless words) → expandAll rs text = .ok t →
      Text.mentions t ('#' :: word) = true → Text.mentions text ('#' :: word) = true
  | [], text, t, _, h, hm => by
    cases h
    exact hm
  | r :: rs, text, t, hrs, h, hm => by
    simp only [expandAll] at h
    split at h
    · simp at h
    · next u hu =>
      exact mentions_expand (hrs r (by simp)) hw hplain hu
        (mentions_expandAll hw hplain (fun q hq => hrs q (by simp [hq])) h hm)

theorem leads_expand {r : Replacement} {word text t : Text} {words : List Text}
    (hr : r.Harmless words) (hw : word ∈ words) (hplain : Plain word) (h : r.expand text = .ok t)
    (hl : Text.leads word t = true) : Text.leads word text = true := by
  obtain ⟨hne, hname⟩ := isIdentChar_of_isIdent hr.ident
  have hnew : Text.leads word r.expansion ≠ true := by simp [hr.noWord word hw]
  rcases expand_ok h with rfl | h | ⟨n, held, hheld, h⟩
  · exact hl
  · exact (leads_replaceFrom_true hne hname hplain.1 h hl).resolve_right hnew
  · have hl' := (leads_replaceFrom_true (candidate_ne_nil n) (isIdentChar_candidate n) hplain.1 h
      hl).resolve_right hnew
    exact (leads_replaceFrom_true hne hname hplain.1 hheld hl').resolve_right
      (by simp [hplain.2 n])

theorem leads_expandAll {word : Text} {words : List Text} (hw : word ∈ words)
    (hplain : Plain word) : ∀ {rs : List Replacement} {text t : Text},
      (∀ r ∈ rs, r.Harmless words) → expandAll rs text = .ok t → Text.leads word t = true →
      Text.leads word text = true
  | [], text, t, _, h, hl => by
    cases h
    exact hl
  | r :: rs, text, t, hrs, h, hl => by
    simp only [expandAll] at h
    split at h
    · simp at h
    · next u hu =>
      exact leads_expand (hrs r (by simp)) hw hplain hu
        (leads_expandAll hw hplain (fun q hq => hrs q (by simp [hq])) h hl)

/-- A replacement stays harmless if harmless replacements are applied to its expansion. -/
theorem Harmless.expandAll {words : List Text} (hplain : ∀ w ∈ words, Plain w)
    {rs : List Replacement} (hrs : ∀ q ∈ rs, q.Harmless words) {r : Replacement}
    (hr : r.Harmless words) {expansion : Text}
    (h : Replacement.expandAll rs r.expansion = .ok expansion) :
    Harmless words ⟨r.name, expansion⟩ := by
  refine ⟨hr.ident, ?_, fun w hw => ?_⟩
  · have hident (c : Char) (hc : Text.isIdentChar c = true) : c ≠ '#' := by
      rintro rfl
      revert hc
      decide
    have hall := forall_expandAll hident
      (fun q hq c hc (h : c = '#') => (hrs q hq).noSign (h ▸ hc))
      (fun c hc (h : c = '#') => hr.noSign (h ▸ hc)) h
    exact fun hm => hall _ hm rfl
  · by_contra hl
    have := leads_expandAll hw (hplain w hw) hrs h (by simpa using hl)
    rw [hr.noWord w hw] at this
    simp at this

end Replacement

end Mcs51.Source
