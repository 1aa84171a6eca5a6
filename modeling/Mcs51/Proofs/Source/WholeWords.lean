import Mathlib.Data.List.SplitBy
import Mcs51.Proofs.Source.Replacement

/-! # Whole words

An identifier is replaced where it is a whole word, and what is put there is never looked at again.
`substitute` says so in one step: it cuts the text into words and other characters (`pieces`) and
puts the expansion in the place of every word that is the name. Replacing an identifier comes to
just this (`Replacement.expand_eq`), also where the expansion mentions its own name and a
placeholder holds the place.

A substitution goes through two texts in a row one by one, unless a word goes on from the first into
the second (`substitute_append`). What it puts in never grows together with what stands around it,
so the words of the result are those of the text, with those of the expansion in the place of the
name (`pieces_substitute`). -/

namespace Mcs51.Source

/-! ### Pieces -/

/-- The pieces of a text: its words, and its other characters one by one. -/
def pieces (text : Text) : List Text :=
  text.splitBy fun a b => Text.isIdentChar a && Text.isIdentChar b

/-- Puts a text in the place of a piece that is the name, letter case aside. -/
def swap (name new piece : Text) : Text := if piece.sameWord name then new else piece

/-- **Whole-word substitution**: the text in which every word that is the name, letter case aside,
is replaced. -/
def substitute (name new text : Text) : Text := (pieces text).flatMap (swap name new)

/-- No word of the text is the name, letter case aside. -/
def Avoids (name text : Text) : Prop := ∀ w ∈ pieces text, w.sameWord name = false

instance (name text : Text) : Decidable (Avoids name text) := by
  unfold Avoids
  infer_instance

theorem pieces_append {a b : Text}
    (h : ∀ x ∈ a.getLast?, ∀ y ∈ b.head?, (Text.isIdentChar x && Text.isIdentChar y) = false) :
    pieces (a ++ b) = pieces a ++ pieces b :=
  List.splitBy_append h

theorem pieces_cons {c : Char} (h : Text.isIdentChar c = false) (t : Text) :
    pieces (c :: t) = [c] :: pieces t := by
  have happend : pieces ([c] ++ t) = pieces [c] ++ pieces t :=
    pieces_append fun x hx y _ => by
      obtain rfl : c = x := by simpa using hx
      rw [h, Bool.false_and]
  exact happend

/-- A text that no word goes on into is cut apart from what stands before it. -/
theorem pieces_append_of_endsWord (a : Text) {t : Text} (ht : endsWord t = true) :
    pieces (a ++ t) = pieces a ++ pieces t := by
  refine pieces_append fun x _ y hy => ?_
  cases t with
  | nil => simp at hy
  | cons z t =>
    obtain rfl : z = y := by simpa using hy
    have hz : Text.isIdentChar z = false := by simpa [endsWord] using ht
    rw [hz, Bool.and_false]

theorem pieces_word {w t : Text} (hne : w ≠ []) (hw : ∀ c ∈ w, Text.isIdentChar c = true)
    (ht : endsWord t = true) : pieces (w ++ t) = w :: pieces t := by
  have hchain : w.IsChain fun a b => (Text.isIdentChar a && Text.isIdentChar b) = true := by
    refine List.Pairwise.isChain (List.pairwise_of_forall_mem_list fun a ha b hb => ?_)
    rw [hw a ha, hw b hb]
    rfl
  have hone : pieces w = [w] := List.splitBy_of_isChain hne hchain
  rw [pieces_append_of_endsWord w ht, hone]
  rfl

/-- No word goes on into what is left when characters are dropped, if that drops whole words. -/
theorem endsWord_dropWhile {drops : Char → Bool}
    (h : ∀ c, Text.isIdentChar c = true → drops c = true) (text : Text) :
    endsWord (text.dropWhile drops) = true := by
  cases hdrop : text.dropWhile drops with
  | nil => rfl
  | cons c t =>
    have hhead := List.head?_dropWhile_not drops text
    rw [hdrop] at hhead
    have hc : drops c = false := by simpa using hhead
    cases hident : Text.isIdentChar c with
    | false => simp [endsWord, hident]
    | true =>
      rw [h c hident] at hc
      cases hc

/-- **Induction on the pieces of a text**: a text is empty, or begins with another character, or
with a word. -/
theorem word_induction {P : Text → Prop} (nil : P [])
    (other : ∀ c t, Text.isIdentChar c = false → P t → P (c :: t))
    (word : ∀ w t, w ≠ [] → (∀ c ∈ w, Text.isIdentChar c = true) → endsWord t = true → P t →
      P (w ++ t)) (text : Text) : P text := by
  induction hn : text.length using Nat.strong_induction_on generalizing text with
  | _ n ih =>
    cases text with
    | nil => exact nil
    | cons c rest =>
      rw [List.length_cons] at hn
      cases hc : Text.isIdentChar c with
      | false => exact other c rest hc (ih rest.length (by omega) rest rfl)
      | true =>
        -- the word goes up to the first other character
        have hcut : c :: rest.takeWhile Text.isIdentChar ++ rest.dropWhile Text.isIdentChar =
            c :: rest := by
          rw [List.cons_append, List.takeWhile_append_dropWhile]
        have hshort : (rest.dropWhile Text.isIdentChar).length ≤ rest.length :=
          (List.dropWhile_suffix _).length_le
        rw [← hcut]
        refine word _ _ (by simp) (fun x hx => ?_) (endsWord_dropWhile (fun _ hx => hx) rest)
          (ih _ (by omega) _ rfl)
        rcases List.mem_cons.mp hx with rfl | hx
        · exact hc
        · exact List.mem_takeWhile_imp hx

/-! ### Substitution -/

section

variable {name new : Text}

theorem substitute_nil : substitute name new [] = [] := rfl

theorem substitute_append {a b : Text}
    (h : ∀ x ∈ a.getLast?, ∀ y ∈ b.head?, (Text.isIdentChar x && Text.isIdentChar y) = false) :
    substitute name new (a ++ b) = substitute name new a ++ substitute name new b := by
  rw [substitute, pieces_append h, List.flatMap_append]
  rfl

theorem substitute_word {w t : Text} (hne : w ≠ []) (hw : ∀ c ∈ w, Text.isIdentChar c = true)
    (ht : endsWord t = true) :
    substitute name new (w ++ t) = swap name new w ++ substitute name new t := by
  rw [substitute, pieces_word hne hw ht, List.flatMap_cons]
  rfl

/-- A text without the name stays as it is. -/
theorem substitute_of_none {text : Text} (h : Avoids name text) :
    substitute name new text = text := by
  have hswap : ∀ w ∈ pieces text, swap name new w = w := by
    intro w hw
    rw [swap, h w hw]
    rfl
  calc substitute name new text = (pieces text).flatMap id := List.flatMap_congr hswap
    _ = (pieces text).flatten := by rw [List.flatMap_id]
    _ = text := List.flatten_splitBy _ text

end

section

variable {name : Text} (hname : ∀ c ∈ name, Text.isIdentChar c = true)
include hname

/-- What holds another character is not the name. -/
theorem sameWord_of_mem {w : Text} {c : Char} (hmem : c ∈ w) (hc : Text.isIdentChar c = false) :
    w.sameWord name = false := by
  by_contra hsame
  have hupper : Text.upper w = Text.upper name := Text.sameWord_iff.mp (by simpa using hsame)
  have hc' : c.toUpper ∈ Text.upper name := by
    rw [← hupper]
    exact List.mem_map_of_mem hmem
  obtain ⟨n, hn, hcn⟩ := List.mem_map.mp hc'
  rw [← Text.isIdentChar_congr hcn, hname n hn] at hc
  cases hc

theorem substitute_cons (new : Text) {c : Char} (hc : Text.isIdentChar c = false) (t : Text) :
    substitute name new (c :: t) = c :: substitute name new t := by
  rw [substitute, pieces_cons hc, List.flatMap_cons, swap,
    sameWord_of_mem hname (List.mem_singleton_self c) hc]
  rfl

theorem endsWord_substitute (new : Text) {t : Text} (h : endsWord t = true) :
    endsWord (substitute name new t) = true := by
  cases t with
  | nil => rfl
  | cons c t =>
    have hc : Text.isIdentChar c = false := by simpa [endsWord] using h
    rw [substitute_cons hname new hc]
    exact h

/-- **The pieces of a substituted text** are those of the text, with those of what is put in where
the name was. -/
theorem pieces_substitute (new text : Text) :
    pieces (substitute name new text) =
      (pieces text).flatMap fun w => if w.sameWord name then pieces new else [w] := by
  induction text using word_induction with
  | nil => rfl
  | other c t hc ih =>
    rw [substitute_cons hname new hc, pieces_cons hc, pieces_cons hc, List.flatMap_cons, ih,
      sameWord_of_mem hname (List.mem_singleton_self c) hc]
    rfl
  | word w t hw hchars ht ih =>
    have hends := endsWord_substitute hname new ht
    rw [substitute_word hw hchars ht, pieces_word hw hchars ht, List.flatMap_cons, ← ih, swap]
    cases Text.sameWord w name with
    | true => exact pieces_append_of_endsWord new hends
    | false => exact pieces_word hw hchars hends

end

/-! ### What a search sees -/

section

variable {name : Text} (hne : name ≠ []) (hname : ∀ c ∈ name, Text.isIdentChar c = true)
include hne hname

theorem sight_other {c : Char} (hc : Text.isIdentChar c = false) (edge : Bool) (t : Text) :
    sight name edge (c :: t) = .other := by
  have hlead : Text.leads name (c :: t) = false := by
    cases name with
    | nil => exact absurd rfl hne
    | cons n rest =>
      by_contra hlead
      obtain ⟨hn, -⟩ := Text.leads_cons_cons.mp (by simpa using hlead)
      rw [Text.isIdentChar_congr hn, hname n (by simp)] at hc
      simp at hc
  simp [sight, hlead]

theorem sight_eq_other {edge : Bool} {text : Text} (h : sight name edge text ≠ .word) :
    sight name edge text = .other := by
  cases hs : sight name edge text with
  | word => exact absurd hs h
  | other => rfl
  | blocked => exact absurd hs (sight_ne_blocked (opensAscii_of_isIdentChar hne hname) edge)

theorem sight_inside (text : Text) : sight name false text = .other :=
  sight_eq_other hne hname fun hs => by simp [sight_eq_word_iff] at hs

omit hne in
/-- The name ends where a word ends, for before its end the word goes on: a word that the name
leads is the name. -/
theorem sameWord_of_leads {w t : Text} (hw : ∀ c ∈ w, Text.isIdentChar c = true)
    (ht : endsWord t = true) (hlead : Text.leads name (w ++ t) = true)
    (hends : endsWord ((w ++ t).drop name.length) = true) : w.sameWord name = true := by
  have hfront := leads_of_leads_append hname ht hlead
  have hle : name.length ≤ w.length := by
    have hupper := congrArg List.length (Text.leads_iff.mp hfront)
    rw [Text.length_upper, Text.length_upper, List.length_take] at hupper
    omega
  have hge : w.length ≤ name.length := by
    by_contra hlt
    obtain ⟨x, rest, hdrop⟩ : ∃ x rest, w.drop name.length = x :: rest :=
      List.exists_cons_of_ne_nil (by simpa using hlt)
    have hx : x ∈ w := List.mem_of_mem_drop (by rw [hdrop]; exact List.mem_cons_self)
    rw [List.drop_append_of_le_length hle, hdrop, List.cons_append, endsWord, hw x hx] at hends
    simp at hends
  rwa [Text.leads, List.take_of_length_le hge] at hfront

/-- **A search sees a word that is the name, and no other.** -/
theorem sight_word {w t : Text} (hw : ∀ c ∈ w, Text.isIdentChar c = true)
    (ht : endsWord t = true) :
    sight name true (w ++ t) = if w.sameWord name then .word else .other := by
  split_ifs with hsame
  · have hlength : w.length = name.length := by
      have hupper := congrArg List.length (Text.sameWord_iff.mp hsame)
      simpa using hupper
    have hlead : Text.leads name (w ++ t) = true := by
      rw [Text.leads, ← hlength, List.take_left]
      exact hsame
    have hdrop : (w ++ t).drop name.length = t := by rw [← hlength, List.drop_left]
    exact sight_eq_word_iff.mpr ⟨rfl, hlead, by rw [hdrop]; exact ht⟩
  · refine sight_eq_other hne hname fun hs => hsame ?_
    obtain ⟨-, hlead, hends⟩ := sight_eq_word_iff.mp hs
    exact sameWord_of_leads hname hw ht hlead hends

theorem replaceFrom_inside (new : Text) {t : Text} (ht : endsWord t = true) : ∀ {w : Text},
    (∀ c ∈ w, Text.isIdentChar c = true) →
      replaceFrom name new false 0 (w ++ t) = (replaceFrom name new true 0 t).map (w ++ ·)
  | [], _ => by
    cases t with
    | nil => rfl
    | cons x t =>
      have hx : Text.isIdentChar x = false := by simpa [endsWord] using ht
      rw [List.nil_append, replaceFrom, replaceFrom, sight_other hne hname hx,
        sight_other hne hname hx]
      cases replaceFrom name new (!Text.isIdentChar x) 0 t <;> rfl
  | c :: w, hw => by
    have ih := replaceFrom_inside new ht (w := w) fun x hx => hw x (List.mem_cons_of_mem _ hx)
    rw [List.cons_append, replaceFrom, sight_inside hne hname, hw c (by simp), Bool.not_true]
    simp only [ih]
    cases replaceFrom name new true 0 t <;> rfl

/-- **Replacing is whole-word substitution.** -/
theorem replaceWord_eq (new text : Text) :
    replaceWord name new text = .ok (substitute name new text) := by
  unfold replaceWord
  induction text using word_induction with
  | nil => rfl
  | other c t hc ih =>
    rw [replaceFrom, sight_other hne hname hc, hc, Bool.not_false, substitute_cons hname new hc]
    simp only [ih]
    rfl
  | word w t hw hchars ht ih =>
    have hsight := sight_word hne hname hchars ht
    rw [substitute_word hw hchars ht, swap]
    cases w with
    | nil => exact absurd rfl hw
    | cons c w =>
      have hw' : ∀ x ∈ w, Text.isIdentChar x = true := fun x hx => hchars x (by simp [hx])
      rw [List.cons_append] at hsight ⊢
      rw [replaceFrom, hsight]
      cases hsame : Text.sameWord (c :: w) name with
      | true =>
        have hlength : w.length + 1 = name.length := by
          have hupper := congrArg List.length (Text.sameWord_iff.mp hsame)
          simpa using hupper
        have hskip : name.length - 1 = w.length := by omega
        show (replaceFrom name new true (name.length - 1) (w ++ t)).map (new ++ ·) = _
        rw [replaceFrom_skip, hskip, List.drop_left, ih]
        rfl
      | false =>
        simp only [Bool.false_eq_true, if_false, hchars c (by simp), Bool.not_true,
          replaceFrom_inside hne hname new ht hw', ih]
        rfl

theorem hasWordFrom_inside {t : Text} (ht : endsWord t = true) : ∀ {w : Text},
    (∀ c ∈ w, Text.isIdentChar c = true) →
      hasWordFrom name false (w ++ t) = hasWordFrom name true t
  | [], _ => by
    cases t with
    | nil => rfl
    | cons x t =>
      have hx : Text.isIdentChar x = false := by simpa [endsWord] using ht
      rw [List.nil_append, hasWordFrom, hasWordFrom, sight_other hne hname hx,
        sight_other hne hname hx]
  | c :: w, hw => by
    rw [List.cons_append, hasWordFrom, sight_inside hne hname, hw c (by simp), Bool.not_true]
    exact hasWordFrom_inside ht fun x hx => hw x (List.mem_cons_of_mem _ hx)

/-- **A word is there if it is a piece.** -/
theorem hasWord_eq (text : Text) :
    hasWord name text = .ok ((pieces text).any fun w => w.sameWord name) := by
  unfold hasWord
  induction text using word_induction with
  | nil => rfl
  | other c t hc ih =>
    rw [hasWordFrom, sight_other hne hname hc, hc, Bool.not_false, pieces_cons hc, List.any_cons,
      sameWord_of_mem hname (List.mem_singleton_self c) hc, Bool.false_or]
    exact ih
  | word w t hw hchars ht ih =>
    have hsight := sight_word hne hname hchars ht
    rw [pieces_word hw hchars ht, List.any_cons]
    cases w with
    | nil => exact absurd rfl hw
    | cons c w =>
      rw [List.cons_append] at hsight ⊢
      rw [hasWordFrom, hsight]
      cases hsame : Text.sameWord (c :: w) name with
      | true => rfl
      | false =>
        simp only [Bool.false_eq_true, if_false, hchars c (by simp), Bool.not_true, Bool.false_or]
        rw [hasWordFrom_inside hne hname ht fun x hx => hchars x (by simp [hx])]
        exact ih

theorem hasWord_false_iff {text : Text} : hasWord name text = .ok false ↔ Avoids name text := by
  rw [hasWord_eq hne hname, Except.ok.injEq, List.any_eq_false]
  simp [Avoids]

end

/-! ### Expansion -/

/-- A word that stands in a text nowhere is none of its pieces. -/
theorem sameWord_of_not_mentions {text word w : Text} (h : text.mentions word = false)
    (hw : w ∈ pieces text) : w.sameWord word = false := by
  by_contra hsame
  have hinfix : w <:+: text := by
    have hflat : (pieces text).flatten = text := List.flatten_splitBy _ text
    obtain ⟨a, b, hpieces⟩ := List.append_of_mem hw
    rw [hpieces, List.flatten_append, List.flatten_cons, ← List.append_assoc] at hflat
    exact ⟨a.flatten, b.flatten, hflat⟩
  rw [Text.mentions_of_isInfix hinfix (by simpa using hsame)] at h
  simp at h

theorem isFree_of_placeholder? {a b word : Text} (h : placeholder? a b = some word) :
    ∃ n, word = candidate n ∧ a.mentions word = false := by
  obtain ⟨n, hn, rfl⟩ := Option.map_eq_some_iff.mp h
  have hfree := List.find?_some hn
  simp only [isFree, Bool.and_eq_true, Bool.not_eq_true'] at hfree
  exact ⟨n, rfl, hfree.1⟩

/-- Going through a placeholder that stands nowhere in the text comes to the same. -/
theorem substitute_substitute {name word new text : Text}
    (hname : ∀ c ∈ name, Text.isIdentChar c = true) (hword : word ≠ [])
    (hident : ∀ c ∈ word, Text.isIdentChar c = true) (hfree : text.mentions word = false) :
    substitute word new (substitute name word text) = substitute name new text := by
  have hone : pieces (word ++ []) = [word] := pieces_word hword hident rfl
  rw [List.append_nil] at hone
  rw [substitute, pieces_substitute hname, List.flatMap_assoc, substitute]
  refine List.flatMap_congr fun w hw => ?_
  unfold swap
  cases hsame : w.sameWord name with
  | true => simp [hone, Text.sameWord]
  | false => simp [sameWord_of_not_mentions hfree hw]

/-- **An expansion is one whole-word substitution.** -/
theorem Replacement.expand_eq {r : Replacement} (h : r.name.isIdent = true) (text : Text) :
    r.expand text = .ok (substitute r.name r.expansion text) := by
  obtain ⟨hne, hname⟩ := isIdentChar_of_isIdent h
  unfold expand
  rw [if_neg (by simpa using hne)]
  cases htext : (pieces text).any fun w => w.sameWord r.name with
  | false =>
    have hnone : ∀ w ∈ pieces text, w.sameWord r.name = false := by
      simpa using List.any_eq_false.mp htext
    rw [hasWord_eq hne hname text, hasWord_eq hne hname, htext, substitute_of_none hnone]
  | true =>
    rw [hasWord_eq hne hname text, hasWord_eq hne hname, htext]
    cases (pieces r.expansion).any fun w => w.sameWord r.name with
    | false => exact replaceWord_eq hne hname r.expansion text
    | true =>
      obtain ⟨m, hplace⟩ := exists_placeholder text r.expansion
      obtain ⟨n, hn, hfree⟩ := isFree_of_placeholder? hplace
      rw [hn] at hplace hfree
      simp only [hplace, replaceWord_eq hne hname,
        replaceWord_eq (candidate_ne_nil n) (isIdentChar_candidate n)]
      rw [substitute_substitute hname (candidate_ne_nil n) (isIdentChar_candidate n) hfree]

/-- Identifiers are replaced one after the other. -/
theorem Replacement.expandAll_cons {r : Replacement} (h : r.name.isIdent = true)
    (rs : List Replacement) (text : Text) :
    expandAll (r :: rs) text = expandAll rs (substitute r.name r.expansion text) := by
  rw [expandAll, expand_eq h]

end Mcs51.Source
