import Mathlib.Data.List.DropRight
import Mcs51.Proofs.Source.PlainSource
import Mcs51.Proofs.Source.WholeWords

/-! # Predefined names and definitions

A name can be predefined, or it can be defined on the first line of a source. The first applies to
every line as it enters, before lines are joined; the second to every line after lines were joined.
Both come to the same where joining makes no difference to the words of a line (`like_definition`).

It makes one where two lines meet (`Meets`): a word may go on from one line into the next, and what
is code on a line of its own may come to stand in a comment. A name with an empty expansion may
besides leave a line to end in a backslash that was not at its end before (`KeepsEnd`). A name that
ends where a line does is replaced if it is predefined, and goes on in the next line if it is
defined (`not_like_definition_seam`). -/

namespace Mcs51.Source

/-! ### Substitution in a line -/

/-- A line with a name replaced in its code. -/
def substituteLine (name new line : Text) : Text := substitute name new line.code ++ line.comment

/-- The word that a text ends in. -/
def lastWord (text : Text) : Text := text.rtakeWhile Text.isIdentChar

/-- The word that a text begins with. -/
def firstWord (text : Text) : Text := text.takeWhile Text.isIdentChar

/-- A line that is joined to the one before has no part in the words of it: after a comment it does
not have the name in its code, and where a word goes on into it, neither part of the word is the
name and nor is the whole. -/
def Meets (name a b : Text) : Prop :=
  if ';' ∈ a then hasWord name b.code = .ok false
  else lastWord a ≠ [] → firstWord b ≠ [] →
    ∀ w ∈ [lastWord a, firstWord b, lastWord a ++ firstWord b], w.sameWord name = false

/-- Taking the name away leaves no backslash at the end of a line. -/
def KeepsEnd (name new line : Text) : Prop :=
  new = [] → ';' ∉ line → (lastWord line).sameWord name = true →
    (line.rdropWhile Text.isIdentChar).getLast? ≠ some '\\'

/-- Joining lines makes no difference to the words of them, given the line that is open. -/
def SeamlessFrom (name new line : Text) : List Text → Prop
  | [] => KeepsEnd name new line
  | next :: rest => KeepsEnd name new line ∧
    if continues line then
      Meets name line.dropLast next ∧ SeamlessFrom name new (line.dropLast ++ next) rest
    else SeamlessFrom name new next rest

/-- Joining lines makes no difference to the words of them. -/
def Seamless (name new : Text) : List Text → Prop
  | [] => True
  | line :: rest => SeamlessFrom name new line rest

instance (name a b : Text) : Decidable (Meets name a b) := by
  unfold Meets
  infer_instance

instance (name new line : Text) : Decidable (KeepsEnd name new line) := by
  unfold KeepsEnd
  infer_instance

instance decidableSeamlessFrom (name new : Text) : ∀ (line : Text) (rest : List Text),
    Decidable (SeamlessFrom name new line rest)
  | line, [] => inferInstanceAs (Decidable (KeepsEnd name new line))
  | line, next :: rest =>
    have := decidableSeamlessFrom name new (line.dropLast ++ next) rest
    have := decidableSeamlessFrom name new next rest
    inferInstanceAs (Decidable (KeepsEnd name new line ∧
      if continues line then
        Meets name line.dropLast next ∧ SeamlessFrom name new (line.dropLast ++ next) rest
      else SeamlessFrom name new next rest))

instance (name new : Text) : ∀ lines : List Text, Decidable (Seamless name new lines)
  | [] => .isTrue trivial
  | line :: rest => inferInstanceAs (Decidable (SeamlessFrom name new line rest))

section

variable {name new : Text}

theorem substituteLine_of_notMem {text : Text} (h : ';' ∉ text) :
    substituteLine name new text = substitute name new text := by
  obtain ⟨hcode, hcomment⟩ := Text.parts_append_of_notMem h []
  rw [List.append_nil] at hcode hcomment
  rw [substituteLine, hcode, hcomment]
  simp [Text.code, Text.comment]

theorem substituteLine_spliceFiller : substituteLine name new spliceFiller = spliceFiller := rfl

theorem rdropWhile_append_lastWord (text : Text) :
    text.rdropWhile Text.isIdentChar ++ lastWord text = text :=
  List.rdropWhile_append_rtakeWhile

theorem isIdentChar_lastWord (text : Text) : ∀ c ∈ lastWord text, Text.isIdentChar c = true :=
  fun _ hc => List.mem_rtakeWhile_imp hc

theorem isIdentChar_firstWord (text : Text) : ∀ c ∈ firstWord text, Text.isIdentChar c = true :=
  fun _ hc => List.mem_takeWhile_imp hc

/-- No word goes on up to the last word of a text. -/
theorem lastWord_rdropWhile (text : Text) : lastWord (text.rdropWhile Text.isIdentChar) = [] :=
  List.rtakeWhile_eq_nil_iff.mpr (List.rdropWhile_last_not Text.isIdentChar text)

theorem isIdentChar_getLast? {text : Text} (h : lastWord text = []) {c : Char}
    (hc : c ∈ text.getLast?) : Text.isIdentChar c = false := by
  have hne : text ≠ [] := by
    rintro rfl
    simp at hc
  have hlast := List.rtakeWhile_eq_nil_iff.mp h hne
  rw [List.getLast?_eq_getLast_of_ne_nil hne] at hc
  obtain rfl := Option.some.inj hc
  simpa using hlast

theorem isIdentChar_head? {text : Text} (h : firstWord text = []) {c : Char}
    (hc : c ∈ text.head?) : Text.isIdentChar c = false := by
  cases text with
  | nil => simp at hc
  | cons d rest =>
    obtain rfl : d = c := by simpa using hc
    by_contra hd
    rw [firstWord, List.takeWhile_cons, if_pos (by simpa using hd)] at h
    simp at h

/-- The code of a line begins with the word that the line begins with. -/
theorem firstWord_code (line : Text) : firstWord line.code = firstWord line := by
  have hboth : (fun c => decide (Text.isIdentChar c = true ∧ (c != ';') = true)) =
      Text.isIdentChar := by
    funext c
    by_cases hc : c = ';'
    · rw [hc]
      rfl
    · simp [hc]
  rw [firstWord, Text.code, List.takeWhile_takeWhile, hboth, firstWord]

/-- A line that ends in a word does not go on. -/
theorem continues_of_lastWord {text : Text} (hne : lastWord text ≠ []) :
    continues text = false := by
  rw [← rdropWhile_append_lastWord text, continues_append _ hne]
  refine continues_of_unjoined fun hmem => ?_
  have hident := isIdentChar_lastWord text _ hmem
  revert hident
  decide

/-- A text that does not end in a word is substituted apart from what comes after. -/
theorem substitute_append_of_lastWord {a : Text} (h : lastWord a = []) (b : Text) :
    substitute name new (a ++ b) = substitute name new a ++ substitute name new b := by
  refine substitute_append fun x hx y _ => ?_
  rw [isIdentChar_getLast? h hx, Bool.false_and]

/-- A text is substituted up to its last word, and then in it. -/
theorem substitute_lastWord {text : Text} (hne : lastWord text ≠ []) :
    substitute name new text =
      substitute name new (text.rdropWhile Text.isIdentChar) ++ swap name new (lastWord text) := by
  have hword : substitute name new (lastWord text ++ []) = swap name new (lastWord text) ++ [] :=
    substitute_word hne (isIdentChar_lastWord text) rfl
  rw [List.append_nil, List.append_nil] at hword
  conv_lhs => rw [← rdropWhile_append_lastWord text]
  rw [substitute_append_of_lastWord (lastWord_rdropWhile text), hword]

/-- A text is substituted in its first word, and then after it. -/
theorem substitute_firstWord {text : Text} (hne : firstWord text ≠ []) :
    substitute name new text =
      swap name new (firstWord text) ++ substitute name new (text.dropWhile Text.isIdentChar) := by
  conv_lhs => rw [← List.takeWhile_append_dropWhile (p := Text.isIdentChar) (l := text)]
  exact substitute_word hne (isIdentChar_firstWord text) (endsWord_dropWhile (fun _ h => h) text)

/-- **A word that goes on** from one text into another is kept, where no part of it is the name. -/
theorem substitute_append_of_words {a b : Text} (ha : lastWord a ≠ []) (hb : firstWord b ≠ [])
    (h : ∀ w ∈ [lastWord a, firstWord b, lastWord a ++ firstWord b], w.sameWord name = false) :
    substitute name new (a ++ b) = substitute name new a ++ substitute name new b := by
  have hkeep : ∀ w ∈ [lastWord a, firstWord b, lastWord a ++ firstWord b], swap name new w = w := by
    intro w hw
    rw [swap, h w hw]
    rfl
  have hwhole : a ++ b = a.rdropWhile Text.isIdentChar ++
      ((lastWord a ++ firstWord b) ++ b.dropWhile Text.isIdentChar) := by
    have hcut : firstWord b ++ b.dropWhile Text.isIdentChar = b := List.takeWhile_append_dropWhile
    rw [List.append_assoc, hcut, ← List.append_assoc, rdropWhile_append_lastWord]
  have hword : ∀ c ∈ lastWord a ++ firstWord b, Text.isIdentChar c = true := by
    intro c hc
    rcases List.mem_append.mp hc with hc | hc
    · exact isIdentChar_lastWord a c hc
    · exact isIdentChar_firstWord b c hc
  rw [hwhole, substitute_append_of_lastWord (lastWord_rdropWhile a),
    substitute_word (by simp [ha]) hword (endsWord_dropWhile (fun _ h => h) b),
    substitute_lastWord ha, substitute_firstWord hb, hkeep _ (by simp), hkeep _ (by simp), hkeep _ (by simp)]
  simp only [List.append_assoc]

end

section

variable {name : Text} (hident : name.isIdent = true)
include hident

theorem substitute_concat (new : Text) {c : Char} (hc : Text.isIdentChar c = false) (text : Text) :
    substitute name new (text ++ [c]) = substitute name new text ++ [c] := by
  have hname := (isIdentChar_of_isIdent hident).2
  rw [substitute_append, substitute_cons hname new hc, substitute_nil]
  intro x _ y hy
  obtain rfl : c = y := by simpa using hy
  rw [hc, Bool.and_false]

/-- A backslash at the end of a line stays there. -/
theorem substituteLine_concat (new text : Text) :
    substituteLine name new (text ++ ['\\']) = substituteLine name new text ++ ['\\'] := by
  by_cases hcomment : ';' ∈ text
  · obtain ⟨hcode, hrest⟩ := Text.parts_append_of_mem hcomment ['\\']
    rw [substituteLine, hcode, hrest, ← List.append_assoc]
    rfl
  · have hmore : ';' ∉ text ++ ['\\'] := by simpa using hcomment
    rw [substituteLine_of_notMem hmore, substituteLine_of_notMem hcomment,
      substitute_concat hident new (by decide)]

/-- A text that does not end in a word keeps its end. -/
theorem continues_substitute (new : Text) {text : Text} (h : lastWord text = []) :
    continues (substitute name new text) = continues text := by
  cases hget : text.getLast? with
  | none =>
    rw [List.getLast?_eq_none_iff.mp hget]
    rfl
  | some c =>
    rw [← List.dropLast_append_getLast? c hget,
      substitute_concat hident new (isIdentChar_getLast? h hget), continues_append _ (by simp),
      continues_append _ (by simp)]

/-- **A line goes on just if it did before.** -/
theorem continues_substituteLine {new line : Text} (hjoin : '\\' ∉ new)
    (hends : KeepsEnd name new line) :
    continues (substituteLine name new line) = continues line := by
  by_cases hcomment : ';' ∈ line
  · have hne : line.comment ≠ [] := by
      intro hnil
      have hwhole := Text.code_append_comment line
      rw [hnil, List.append_nil] at hwhole
      rw [← hwhole] at hcomment
      exact Text.notMem_code line hcomment
    conv_rhs => rw [← Text.code_append_comment line]
    rw [substituteLine, continues_append _ hne, continues_append _ hne]
  · rw [substituteLine_of_notMem hcomment]
    by_cases hword : lastWord line = []
    · exact continues_substitute hident new hword
    · rw [continues_of_lastWord hword, substitute_lastWord hword]
      unfold swap
      split_ifs with hsame
      · by_cases hnew : new = []
        · -- the character before the name comes to the end
          have hcont := continues_substitute hident new (lastWord_rdropWhile line)
          rw [hnew, List.append_nil, ← hnew, hcont, continues, beq_eq_false_iff_ne]
          exact hends hnew hcomment hsame
        · rw [continues_append _ hnew]
          exact continues_of_unjoined hjoin
      · have hline := continues_of_lastWord hword
        rw [← rdropWhile_append_lastWord line, continues_append _ hword] at hline
        rw [continues_append _ hword, hline]

/-- **Lines that meet without a seam** are substituted one by one. -/
theorem substituteLine_append (new : Text) {a b : Text} (h : Meets name a b) :
    substituteLine name new (a ++ b) = substituteLine name new a ++ substituteLine name new b := by
  obtain ⟨hne, hname⟩ := isIdentChar_of_isIdent hident
  unfold Meets at h
  split_ifs at h with hcomment
  · have hb : substitute name new b.code = b.code :=
      substitute_of_none ((hasWord_false_iff hne hname).mp h)
    obtain ⟨hcode, hrest⟩ := Text.parts_append_of_mem hcomment b
    rw [substituteLine, substituteLine, substituteLine, hcode, hrest, hb, Text.code_append_comment,
      List.append_assoc]
  · obtain ⟨hcode, hrest⟩ := Text.parts_append_of_notMem hcomment b
    rw [substituteLine_of_notMem hcomment, substituteLine, substituteLine, hcode, hrest,
      ← List.append_assoc]
    congr 1
    rw [← firstWord_code b] at h
    by_cases hlast : lastWord a = []
    · exact substitute_append_of_lastWord hlast b.code
    · by_cases hnext : firstWord b.code = []
      · refine substitute_append fun x _ y hy => ?_
        rw [isIdentChar_head? hnext hy, Bool.and_false]
      · exact substitute_append_of_words hlast hnext (h hlast hnext)

/-! ### Joining -/

/-- **Joining and substitution change places** where joining makes no difference to words. -/
theorem spliceFrom_map {new : Text} (hjoin : '\\' ∉ new) : ∀ {rest : List Text} {line : Text}
    (taken : Nat), SeamlessFrom name new line rest →
      spliceFrom (substituteLine name new line) taken (rest.map (substituteLine name new)) =
        (spliceFrom line taken rest).map (substituteLine name new)
  | [], line, taken, h => by
    have hcont := continues_substituteLine hident hjoin h
    rw [List.map_nil, spliceFrom, spliceFrom, hcont, List.map_cons, List.map_replicate,
      substituteLine_spliceFiller]
    cases hline : continues line with
    | false => rfl
    | true =>
      have hconcat := substituteLine_concat hident new line.dropLast
      rw [dropLast_of_continues hline] at hconcat
      simp [hconcat]
  | next :: rest, line, taken, h => by
    obtain ⟨hends, hnext⟩ := h
    have hcont := continues_substituteLine hident hjoin hends
    rw [List.map_cons, spliceFrom, spliceFrom, hcont]
    cases hline : continues line with
    | false =>
      rw [hline] at hnext
      have ih := spliceFrom_map hjoin 0 hnext
      simp only [Bool.false_eq_true, if_false, ih, List.map_append, List.map_cons,
        List.map_replicate, substituteLine_spliceFiller]
    | true =>
      rw [hline] at hnext
      obtain ⟨hmeets, hrest⟩ := hnext
      have hconcat := substituteLine_concat hident new line.dropLast
      rw [dropLast_of_continues hline] at hconcat
      have ih := spliceFrom_map hjoin (taken + 1) hrest
      rw [substituteLine_append hident new hmeets] at ih
      simp only [if_true, hconcat, List.dropLast_concat]
      exact ih

theorem splice_map {new : Text} (hjoin : '\\' ∉ new) {lines : List Text}
    (h : Seamless name new lines) :
    splice (lines.map (substituteLine name new)) =
      (splice lines).map (substituteLine name new) := by
  cases lines with
  | nil => rfl
  | cons line rest => exact spliceFrom_map hident hjoin 0 h

end

/-! ### The line that defines a name -/

/-- A name and an expansion that a line can define: the expansion stays on the line and in its code,
has no blanks around it, brings in no directive and does not make the line go on. -/
structure Definable (name new : Text) : Prop where
  ident : name.isIdent = true
  noFeed : '\n' ∉ new
  noComment : ';' ∉ new
  noSign : '#' ∉ new
  noJoin : '\\' ∉ new
  trimmed : Text.trim new = new
  noWord : ∀ w ∈ bareWords, Text.leads w new = false

/-- The line that defines a name. -/
def definitionLine (name new : Text) : Text := defineWord ++ ' ' :: (name ++ ' ' :: new)

theorem mentions_definitionLine (name new : Text) :
    (definitionLine name new).mentions defineWord = true :=
  Text.mentions_of_isPrefix (List.prefix_append defineWord _) (by decide)

namespace Definable

variable {name new : Text} (h : Definable name new)
include h

theorem harmless : Replacement.Harmless bareWords ⟨name, new⟩ := ⟨h.ident, h.noSign, h.noWord⟩

theorem isBlank_name : ∀ c ∈ name, Text.isBlank c = false := fun c hc =>
  Text.isBlank_of_isIdentChar ((isIdentChar_of_isIdent h.ident).2 c hc)

/-- A character that is in none of the parts is not in the line. -/
theorem notMem_definitionLine {c : Char} (hc : Text.isIdentChar c = false) (hblank : c ≠ ' ')
    (hsign : c ≠ '#') (hnew : c ∉ new) : c ∉ definitionLine name new := by
  have hword : ∀ x ∈ defineWord, x = '#' ∨ Text.isIdentChar x = true := by
    have hall : defineWord.all (fun x => x == '#' || Text.isIdentChar x) = true := by decide
    simpa using hall
  intro hmem
  rcases List.mem_append.mp hmem with hmem | hmem
  · rcases hword c hmem with heq | hident
    · exact hsign heq
    · simp [hc] at hident
  · rcases List.mem_cons.mp hmem with heq | hmem
    · exact hblank heq
    · rcases List.mem_append.mp hmem with hmem | hmem
      · simp [(isIdentChar_of_isIdent h.ident).2 c hmem] at hc
      · rcases List.mem_cons.mp hmem with heq | hmem
        · exact hblank heq
        · exact hnew hmem

theorem code_definitionLine : (definitionLine name new).code = definitionLine name new := by
  have hcomment : ';' ∉ definitionLine name new :=
    h.notMem_definitionLine (by decide) (by decide) (by decide) h.noComment
  obtain ⟨hcode, -⟩ := Text.parts_append_of_notMem hcomment []
  simpa [Text.code] using hcode

theorem continues_definitionLine : continues (definitionLine name new) = false :=
  continues_of_unjoined
    (h.notMem_definitionLine (by decide) (by decide) (by decide) h.noJoin)

/-- The expansion does not end in a blank. -/
theorem isBlank_getLast? : ∀ c ∈ new.getLast?, Text.isBlank c = false := by
  intro c hc
  have htrimmed := h.trimmed
  unfold Text.trim at htrimmed
  rw [← htrimmed] at hc
  exact Text.isBlank_trimEnd hc

theorem dropReturn_definitionLine :
    Text.dropReturn (definitionLine name new) = definitionLine name new := by
  have hlast : (definitionLine name new).getLast? ≠ some '\r' := by
    unfold definitionLine
    rw [List.getLast?_append_of_ne_nil _ (by simp)]
    rw [show ' ' :: (name ++ ' ' :: new) = (' ' :: (name ++ [' '])) ++ new by simp]
    by_cases hnew : new = []
    · rw [hnew, List.append_nil, ← List.cons_append, List.getLast?_concat]
      decide
    · rw [List.getLast?_append_of_ne_nil _ hnew]
      intro hreturn
      have := h.isBlank_getLast? _ hreturn
      revert this
      decide
  rw [Text.dropReturn, if_neg hlast]

/-- What follows the word is the name, and the expansion if it is not empty. -/
theorem trim_arguments : Text.trim (' ' :: (name ++ ' ' :: new)) =
    if new = [] then name else name ++ ' ' :: new := by
  obtain ⟨hne, hname⟩ := isIdentChar_of_isIdent h.ident
  have hstart : Text.trimStart (' ' :: (name ++ ' ' :: new)) = name ++ ' ' :: new := by
    cases name with
    | nil => exact absurd rfl hne
    | cons c rest =>
      have hc : Text.isBlank c = false := h.isBlank_name c (by simp)
      unfold Text.trimStart
      rw [List.dropWhile_cons_of_pos (by decide), List.cons_append,
        List.dropWhile_cons_of_neg (by simp [hc])]
  rw [Text.trim, hstart]
  split_ifs with hnew
  · have hlast : Text.trimEnd name = name :=
      Text.trimEnd_of_getLast? fun c hc => h.isBlank_name c (List.mem_of_getLast? hc)
    have hblank : Text.isBlank ' ' = true := by decide
    rw [hnew]
    unfold Text.trimEnd at hlast ⊢
    rw [List.reverse_concat, List.dropWhile_cons_of_pos hblank, hlast]
  · refine Text.trimEnd_of_getLast? fun c hc => ?_
    rw [← List.singleton_append, ← List.append_assoc, List.getLast?_append_of_ne_nil _ hnew] at hc
    exact h.isBlank_getLast? c hc

/-- **The line defines the name to stand for the expansion.** -/
theorem definition_definitionLine :
    definition (definitionLine name new) = .ok ⟨name, new⟩ := by
  have hfind : Text.find? defineWord (definitionLine name new) = some 0 := by
    refine Text.find?_eq_some_iff.mpr ⟨Nat.zero_le _, ?_, by simp⟩
    rw [List.drop_zero, Text.leads_iff_isPrefix, definitionLine, Text.upper_append]
    exact List.prefix_append _ _
  have hafter : (definitionLine name new).after? defineWord =
      some (' ' :: (name ++ ' ' :: new)) := by
    rw [Text.after?, hfind, Option.map_some, Nat.zero_add, definitionLine, List.drop_left]
  have hname : Text.firstField (name ++ ' ' :: new) = name ∧
      Text.afterField (name ++ ' ' :: new) = ' ' :: new := by
    have hfield : ∀ c ∈ name, (!Text.isBlank c) = true := fun c hc => by simp [h.isBlank_name c hc]
    have hblank : Text.isBlank ' ' = true := by decide
    unfold Text.firstField Text.afterField
    rw [List.takeWhile_append_of_pos hfield, List.dropWhile_append_of_pos hfield]
    simp [hblank]
  have hwhole : Text.firstField name = name ∧ Text.afterField name = [] := by
    have hfield : ∀ c ∈ name, (!Text.isBlank c) = true := fun c hc => by simp [h.isBlank_name c hc]
    exact ⟨List.takeWhile_eq_self_iff.mpr hfield, List.dropWhile_eq_nil_iff.mpr hfield⟩
  have hnew : Text.trim (' ' :: new) = new := by
    have hstart : Text.trimStart (' ' :: new) = Text.trimStart new :=
      List.dropWhile_cons_of_pos (by decide)
    rw [Text.trim, hstart]
    exact h.trimmed
  unfold definition
  rw [hafter, Option.getD_some, h.trim_arguments]
  by_cases hempty : new = []
  · simp only [hempty, if_true, hwhole.1, hwhole.2, h.ident]
    rfl
  · simp only [hempty, if_false, hname.1, hname.2, h.ident, if_true, hnew]

theorem view_definitionLine (defined : List Text) :
    View.step ⟨[], defined⟩ (definitionLine name new) =
      some (⟨[], name.upper :: defined⟩, .defines ⟨name, new⟩) := by
  have hunmarked : Marker.ofLine? (definitionLine name new) = none :=
    unmarked_of_head (show some '#' ≠ some markerSign by decide)
  have hcondition : Regions.isCondition (definitionLine name new) = false := by
    have hblank : Text.isBlank ' ' = true := by decide
    have hword : Text.splitWords Text.isBlank defineWord = [defineWord] := by decide
    unfold Regions.isCondition Text.fields
    rw [definitionLine, Text.splitWords_append hblank, hword]
    show (Condition.ofWord? defineWord).isSome = false
    decide
  have hdirective : Regions.directive [] defined (definitionLine name new) = .ok none :=
    Regions.directive_eq_none.mpr hcondition
  have huse : Use.ofCode (definitionLine name new) = .defines ⟨name, new⟩ := by
    unfold Use.ofCode
    rw [if_pos (mentions_definitionLine name new), h.definition_definitionLine]
  rw [View.step, View.role_of_unmarked hunmarked, h.code_definitionLine, hdirective, huse]
  rfl

end Definable

/-! ### Two runs -/

section

variable {d : Disk} {file : Text} {left : Nat} {p q : Preprocessor} {lines out : List Text}

/-- A round in which no file is pending joins its lines and expands them, and it is the last one if
this leaves no directive. -/
theorem round_of_settled {seen : List (Text × Use)} {w : View}
    (hseen : survey ⟨[], p.defined⟩ lines = some (seen, w)) (hpending : pending seen = [])
    (h : Preprocessor.rounds d file (left + 1) p lines = (q, .ok out)) :
    ∃ p₁ p₂ mid, p.Alike p₁ ∧ expandLines p₁ file (splice lines) = (p₂, .ok mid) ∧
      (needsPreprocessing mid = false → out = mid) := by
  simp only [Preprocessor.rounds] at h
  split at h
  · simp at h
  · next p₁ lines₁ count hinc =>
    obtain rfl := count_of_settled (.refl p) hinc hseen hpending
    obtain ⟨rfl, halike, -⟩ := includeLines_settled (.refl p) hinc
    rw [if_neg (by simp)] at h
    split at h
    · simp at h
    · next p₂ mid hexp =>
      refine ⟨p₁, p₂, mid, halike, hexp, fun hneeds => ?_⟩
      rw [hneeds, if_neg (by simp)] at h
      cases h
      rfl

/-- Lines without directives are joined, where nothing is stored and none comes about by it. -/
theorem rounds_of_clear_joined (hstored : p.stored = []) (hclear : ∀ line ∈ lines, Clear line)
    (hjoined : ∀ line ∈ splice lines, Clear line)
    (h : Preprocessor.rounds d file (left + 1) p lines = (q, .ok out)) : out = splice lines := by
  obtain ⟨seen, hseen, hpending⟩ := survey_of_clear (v := ⟨[], p.defined⟩) rfl hclear
  obtain ⟨p₁, p₂, mid, halike, hexp, hend⟩ := round_of_settled hseen hpending h
  obtain rfl := expandLines_of_clear (halike.stored.trans hstored) hjoined hexp
  exact hend (needsPreprocessing_eq_false hjoined)

/-- Where the characters of joined lines come from. -/
theorem forall_spliceFrom {P : Char → Prop} (hfiller : ∀ c ∈ spliceFiller, P c) :
    ∀ {rest : List Text} {line : Text} (taken : Nat), (∀ c ∈ line, P c) →
      (∀ l ∈ rest, ∀ c ∈ l, P c) → ∀ l ∈ spliceFrom line taken rest, ∀ c ∈ l, P c
  | [], line, taken, hline, _ => by
    intro l hl
    rw [spliceFrom] at hl
    rcases List.mem_cons.mp hl with rfl | hl
    · split_ifs
      · exact fun c hc => hline c (List.dropLast_subset _ hc)
      · exact hline
    · rw [List.eq_of_mem_replicate hl]
      exact hfiller
  | next :: rest, line, taken, hline, hrest => by
    have hnext : ∀ c ∈ next, P c := hrest next (by simp)
    have hrest : ∀ l ∈ rest, ∀ c ∈ l, P c := fun l hl => hrest l (List.mem_cons_of_mem _ hl)
    rw [spliceFrom]
    split_ifs
    · refine forall_spliceFrom hfiller (taken + 1) (fun c hc => ?_) hrest
      rcases List.mem_append.mp hc with hc | hc
      · exact hline c (List.dropLast_subset _ hc)
      · exact hnext c hc
    · intro l hl
      rcases List.mem_append.mp hl with hl | hl
      · rcases List.mem_cons.mp hl with rfl | hl
        · exact hline
        · rw [List.eq_of_mem_replicate hl]
          exact hfiller
      · exact forall_spliceFrom hfiller 0 hnext hrest l hl

theorem signFree_splice (h : ∀ line ∈ lines, SignFree line) :
    ∀ line ∈ splice lines, SignFree line := by
  have hfiller : ∀ c ∈ spliceFiller, c ≠ markerSign := by
    rintro c hc rfl
    exact signFree_spliceFiller hc
  cases lines with
  | nil => simp [splice]
  | cons line rest =>
    have hchars : ∀ l ∈ line :: rest, ∀ c ∈ l, c ≠ markerSign := by
      rintro l hl c hc rfl
      exact h l hl hc
    intro l hl hsign
    exact forall_spliceFrom hfiller 0 (hchars line (by simp))
      (fun l hl => hchars l (List.mem_cons_of_mem _ hl)) l hl _ hsign rfl

end

section

variable {d : Disk} {file : Text} {left : Nat} {p q : Preprocessor} {lines out : List Text}
  {name new : Text} (h : Definable name new)
include h

theorem Definable.expandAll (text : Text) :
    Replacement.expandAll [⟨name, new⟩] text = .ok (substitute name new text) := by
  have hexpand := Replacement.expand_eq (r := ⟨name, new⟩) h.ident text
  rw [Replacement.expandAll, hexpand]
  rfl

theorem Definable.clear {line : Text} (hunmarked : Marker.ofLine? line = none)
    (hline : Clear line) : Clear (substituteLine name new line) := by
  refine clear_expand (fun r hr => ?_) (hline hunmarked) (h.expandAll _)
  rw [List.mem_singleton.mp hr]
  exact h.harmless

theorem Definable.clear_map (hsigns : ∀ line ∈ lines, SignFree line)
    (hclear : ∀ line ∈ lines, Clear line) :
    ∀ line ∈ lines.map (substituteLine name new), Clear line := by
  intro line hline
  obtain ⟨l, hl, rfl⟩ := List.mem_map.mp hline
  exact h.clear (hsigns l hl).unmarked (hclear l hl)

/-- **A predefined name** is replaced in every line as it enters. -/
theorem Definable.enter (hpredefined : p.predefined = [⟨name, new⟩]) {source : Text}
    (hsigned : ∀ line ∈ source.lines, line.code.trimStart.head? = some '#' →
      hasWord name line.code = .ok false) :
    p.enter source = .ok (source.lines.map (substituteLine name new)) := by
  obtain ⟨hne, hname⟩ := isIdentChar_of_isIdent h.ident
  refine mapM_of_forall fun line hline => ?_
  unfold Preprocessor.enterLine
  split_ifs with hsign
  · have hkept : substitute name new line.code = line.code :=
      substitute_of_none ((hasWord_false_iff hne hname).mp (hsigned line hline hsign))
    rw [substituteLine, hkept, Text.code_append_comment]
  · rw [hpredefined, h.expandAll]
    rfl

/-- The line that defines the name stores it, where nothing else applies. -/
theorem Definable.step_definitionLine {t : Expansion} (hpredefined : p.predefined = [])
    (hstored : p.stored = [])
    (ht : (Expansion.start p file).step (definitionLine name new) = (t, none)) :
    t.pre.stored = [⟨name, new⟩] ∧ t.reader.regions = [] ∧ t.out.toList = [defineFiller] := by
  obtain ⟨use, written, hsees, hout, htakes⟩ := Expansion.takes_of_step ht
  have hfirst : View.step ⟨[], p.defined⟩ (definitionLine name new) =
      some (t.reader.view, use) := hsees.view
  rw [h.view_definitionLine] at hfirst
  obtain ⟨hview, rfl⟩ := Prod.mk.inj (Option.some.inj hfirst)
  have hregions : t.reader.regions = [] := (congrArg View.regions hview).symm
  cases htakes with
  | define unmarked defines expands pre =>
    have hnone : (Expansion.start p file).pre.predefined ++
        (Expansion.start p file).pre.stored = [] := by
      show p.predefined ++ p.stored = []
      rw [hpredefined, hstored]
      rfl
    rw [hnone] at expands
    cases expands
    refine ⟨?_, hregions, hout⟩
    rw [pre]
    show p.stored ++ _ = _
    rw [hstored]
    rfl
  | expand unmarked active other expands pre =>
    rw [h.code_definitionLine, mentions_definitionLine] at other
    simp at other

/-- After the line that defines it, the name is replaced in every line. -/
theorem Definable.expandLines (hpredefined : p.predefined = []) (hstored : p.stored = [])
    (hclear : ∀ line ∈ lines, Clear line) (hsigns : ∀ line ∈ lines, SignFree line)
    (hexp : expandLines p file (definitionLine name new :: lines) = (q, .ok out)) :
    out = defineFiller :: lines.map (substituteLine name new) := by
  obtain ⟨s, hs, -, rfl⟩ := expandLines_ok hexp
  obtain ⟨t, ht, hwalk⟩ := walk_cons_eq_none.mp hs
  obtain ⟨hstored', hregions, hout⟩ := h.step_definitionLine hpredefined hstored ht
  obtain ⟨-, -, hrest⟩ := Expansion.out_of_clear (g := substituteLine name new) hwalk hregions
    hclear
    (fun line hline m hm => by
      rw [(hsigns line hline).unmarked] at hm
      simp at hm)
    (fun line _ code hcode _ => by
      rw [hstored', h.expandAll] at hcode
      cases hcode
      rfl)
  rw [hrest, hout]
  rfl

/-- **A name defined on the first line** is replaced in every line after it, when lines are
joined. -/
theorem Definable.rounds (hpredefined : p.predefined = []) (hstored : p.stored = [])
    (hclear : ∀ line ∈ lines, Clear line) (hsigns : ∀ line ∈ lines, SignFree line)
    (hjoined : ∀ line ∈ splice lines, Clear line)
    (hrun : Preprocessor.rounds d file (left + 1) p (definitionLine name new :: lines) =
      (q, .ok out)) :
    out = defineFiller :: (splice lines).map (substituteLine name new) := by
  have hsigns' := signFree_splice hsigns
  have hview := h.view_definitionLine p.defined
  obtain ⟨seen, hseen, hpending⟩ := survey_of_clear (v := ⟨[], name.upper :: p.defined⟩) rfl hclear
  have hsplice : splice (definitionLine name new :: lines) =
      definitionLine name new :: splice lines := by
    cases lines <;> simp [splice, spliceFrom, h.continues_definitionLine]
  obtain ⟨p₁, p₂, mid, halike, hexp, hend⟩ := round_of_settled
    (survey_cons.mpr ⟨_, _, _, hview, hseen, rfl⟩) (by rw [pending_cons, hpending]; rfl) hrun
  rw [hsplice] at hexp
  obtain rfl := h.expandLines (halike.predefined.trans hpredefined) (halike.stored.trans hstored)
    hjoined hsigns' hexp
  refine hend (needsPreprocessing_eq_false fun line hline => ?_)
  rcases List.mem_cons.mp hline with rfl | hline
  · exact clear_of_code_nil (by decide)
  · exact h.clear_map hsigns' hjoined line hline

end

/-- **A predefined name acts like a definition on the first line**, where lines hold no directive,
before they are joined and after, and joining makes no difference to their words. Lines that start
with `#` are not asked about: the name does not stand in them. -/
theorem like_definition {d : Disk} {settings other : Settings} {file source name new : Text}
    {q q' : Preprocessor} {out out' : List Text} (h : Definable name new)
    (hone : settings.defines = [(name, new)]) (hnone : other.defines = [])
    (hclear : needsPreprocessing source.lines = false)
    (hsigns : ∀ line ∈ source.lines, markerSign ∉ line)
    (hjoined : needsPreprocessing (splice source.lines) = false)
    (hsigned : ∀ line ∈ source.lines, line.code.trimStart.head? = some '#' →
      hasWord name line.code = .ok false)
    (hseams : Seamless name new source.lines)
    (hrun : (Preprocessor.start settings).processText d file source = (q, .ok out))
    (hrun' : (Preprocessor.start other).processText d file
      (definitionLine name new ++ '\n' :: source) = (q', .ok out')) :
    out' = defineFiller :: out := by
  have hclear := needsPreprocessing_iff.mp hclear
  have hjoined := needsPreprocessing_iff.mp hjoined
  have hfirst : out = (splice source.lines).map (substituteLine name new) := by
    have henter := h.enter (p := .start settings) (by simp [Preprocessor.start, hone]) hsigned
    obtain ⟨left, hrounds⟩ := exists_maxRounds settings
    unfold Preprocessor.processText at hrun
    rw [henter, hrounds] at hrun
    have hsplice := splice_map h.ident h.noJoin hseams
    rw [← hsplice]
    refine rounds_of_clear_joined rfl (h.clear_map hsigns hclear) ?_ hrun
    rw [hsplice]
    exact h.clear_map (signFree_splice hsigns) hjoined
  have hpredefined : (Preprocessor.start other).predefined = [] := by
    simp [Preprocessor.start, hnone]
  have hfeed : '\n' ∉ definitionLine name new :=
    h.notMem_definitionLine (by decide) (by decide) (by decide) h.noFeed
  obtain ⟨left, hrounds⟩ := exists_maxRounds other
  unfold Preprocessor.processText at hrun'
  rw [enter_of_no_defines hpredefined, Text.lines_cons hfeed, h.dropReturn_definitionLine,
    hrounds] at hrun'
  rw [hfirst]
  exact h.rounds hpredefined rfl hclear hsigns hjoined hrun'

theorem definable_of_checks {name new : Text} (ident : name.isIdent = true)
    (chars : new.all (fun c => ['\n', ';', '#', '\\'].all (· != c)) = true)
    (trimmed : Text.trim new = new)
    (noWord : ∀ w ∈ bareWords, Text.leads w new = false) : Definable name new := by
  have hchars : ∀ c ∈ ['\n', ';', '#', '\\'], c ∉ new := by
    intro c hc hnew
    have hall := List.all_eq_true.mp (List.all_eq_true.mp chars c hnew) c hc
    simp at hall
  exact ⟨ident, hchars _ (by simp), hchars _ (by simp), hchars _ (by simp), hchars _ (by simp),
    trimmed, noWord⟩

/-- A source with a name before a seam and after it, and in a comment. -/
def portSource : Text := "mov PORT,\\\nPORT ; port\nsetb PORT\n".toList

/-- The lines of the source, joined and with the name replaced. -/
def portLines : List Text := ["mov P1,P1 ; port".toList, "; continued".toList, "setb P1".toList]

set_option maxRecDepth 4000 in
theorem like_definition_port :
    ((Preprocessor.start { defines := [("port".toList, "P1".toList)] }).processText .empty
      "main.asm".toList portSource).2 = .ok portLines ∧
    ∃ out, ((Preprocessor.start {}).processText .empty "main.asm".toList
        (definitionLine "port".toList "P1".toList ++ '\n' :: portSource)).2 = .ok out ∧
      out = defineFiller :: portLines := by
  have hdefinable : Definable "port".toList "P1".toList :=
    definable_of_checks (by decide) (by decide) (by decide) (by decide)
  have hrun : ((Preprocessor.start { defines := [("port".toList, "P1".toList)] }).processText .empty
      "main.asm".toList portSource).2 = .ok portLines := by
    decide +kernel
  have hrun' : ((Preprocessor.start {}).processText .empty "main.asm".toList
      (definitionLine "port".toList "P1".toList ++ '\n' :: portSource)).2 =
        .ok ("; #define".toList :: portLines) := by
    decide +kernel
  refine ⟨hrun, _, hrun', ?_⟩
  exact like_definition hdefinable rfl rfl (by decide +kernel) (by decide +kernel)
    (by decide +kernel) (by decide +kernel) (by decide +kernel) (Prod.ext rfl hrun)
    (Prod.ext rfl hrun')

/-- A source with a name at the end of a line that goes on in the next. -/
def seamSource : Text := "mov a,#X\\\n1\n".toList

set_option maxRecDepth 4000 in
/-- **A name at a seam.** The lines hold no directive and no sign of a marker. The name is replaced
if it is predefined, and it is part of a longer word if it is defined on the first line. -/
theorem not_like_definition_seam :
    Definable "X".toList "2".toList ∧ needsPreprocessing seamSource.lines = false ∧
    (∀ line ∈ seamSource.lines, markerSign ∉ line) ∧
    ((Preprocessor.start { defines := [("X".toList, "2".toList)] }).processText .empty
      "main.asm".toList seamSource).2 = .ok ["mov a,#21".toList, "; continued".toList] ∧
    ((Preprocessor.start {}).processText .empty "main.asm".toList
      (definitionLine "X".toList "2".toList ++ '\n' :: seamSource)).2 =
        .ok [defineFiller, "mov a,#X1".toList, "; continued".toList] ∧
    [defineFiller, "mov a,#X1".toList, "; continued".toList].tail ≠
      ["mov a,#21".toList, "; continued".toList] := by
  have hdefinable : Definable "X".toList "2".toList :=
    definable_of_checks (by decide) (by decide) (by decide) (by decide)
  refine ⟨hdefinable, by decide, by decide, by decide +kernel, by decide +kernel, by decide⟩

end Mcs51.Source
