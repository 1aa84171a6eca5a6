import Mcs51.Proofs.Source.Passes
import Mcs51.Proofs.Source.Region
import Mcs51.Proofs.Text.Parts

/-! # What an expansion leaves

Where no file is pending and every definition has a name, an expansion succeeds, and if its lines
are tidy no directive is left in what it writes (`Expansion.exists_walk`). A line that is not tidy
can keep a run from ever settling: one that mentions a condition elsewhere than in its first field,
or a definition whose text makes a directive out of a sign before it. -/

namespace Mcs51.Source

/-! ### Words of directives -/

/-- The words of directives, without their sign. -/
def bareWords : List Text :=
  ["include".toList, "define".toList, "ifdef".toList, "ifndef".toList, "else".toList,
    "endif".toList]

theorem directiveWords_eq : directiveWords = bareWords.map ('#' :: ·) := by decide

/-- The words of conditional directives. -/
def conditionWords : List Text :=
  ["#ifdef".toList, "#ifndef".toList, "#else".toList, "#endif".toList]

theorem mem_directiveWords {w : Text} (h : w ∈ directiveWords) :
    w = includeWord ∨ w = defineWord ∨ w ∈ conditionWords := by
  simpa [directiveWords, conditionWords] using h

/-- No placeholder begins with the word of a directive. -/
theorem plain_bareWords : ∀ w ∈ bareWords, Plain w := by
  have hchars : ∀ w ∈ bareWords, w.all Text.isIdentChar = true := by decide
  have hhead : ∀ w ∈ bareWords, w ≠ [] ∧ w.head?.map Char.toUpper ≠ some '_' := by decide
  intro w hw
  refine ⟨List.all_eq_true.mp (hchars w hw), fun n => ?_⟩
  obtain ⟨hne, hc⟩ := hhead w hw
  cases w with
  | nil => exact absurd rfl hne
  | cons c rest =>
    by_contra hlead
    have hlead : Text.leads (c :: rest) (candidate n) = true := by simpa using hlead
    have hupper := (Text.leads_cons_cons.mp hlead).1
    exact hc (congrArg some hupper.symm)

/-- The text that a line defines a name to stand for. -/
def expansion? (line : Text) : Option Text :=
  (definition line.code).toOption.map Replacement.expansion

theorem expansion?_of_definition {line : Text} {r : Replacement}
    (h : definition line.code = .ok r) : r.expansion ∈ expansion? line := by
  simp [expansion?, h, Except.toOption]

theorem isIdent_of_definition {code : Text} {r : Replacement} (h : definition code = .ok r) :
    r.name.isIdent = true := by
  unfold definition at h
  simp only at h
  split_ifs at h with hident
  cases h
  exact hident

/-- A line that leaves no directive behind: it mentions a condition only where it applies one, and
what it defines brings in no directive. -/
structure Tidy (line : Text) : Prop where
  condition : ∀ w ∈ conditionWords, line.code.mentions w = true →
    Regions.isCondition line.code = true
  noSign : ∀ e ∈ expansion? line, '#' ∉ e
  noWord : ∀ e ∈ expansion? line, ∀ w ∈ bareWords, Text.leads w e = false

theorem Tidy.harmless {line : Text} {r : Replacement} (h : Tidy line)
    (hr : definition line.code = .ok r) : r.Harmless bareWords :=
  ⟨isIdent_of_definition hr, h.noSign _ (expansion?_of_definition hr),
    h.noWord _ (expansion?_of_definition hr)⟩

/-! ### Lines without directives -/

/-- A marker, or a line that mentions no directive. -/
def Clear (line : Text) : Prop :=
  Marker.ofLine? line = none → ∀ w ∈ directiveWords, line.code.mentions w = false

theorem needsPreprocessing_eq_false {lines : List Text} (h : ∀ line ∈ lines, Clear line) :
    needsPreprocessing lines = false := by
  unfold needsPreprocessing
  rw [List.any_eq_false]
  intro line hline hneeds
  rw [Bool.and_eq_true, Option.isNone_iff_eq_none, List.any_eq_true] at hneeds
  obtain ⟨hm, w, hw, hmention⟩ := hneeds
  rw [h line hline hm w hw] at hmention
  simp at hmention

theorem clear_of_code_nil {line : Text} (h : line.code = []) : Clear line := by
  have hwords : ∀ w ∈ directiveWords, Text.mentions [] w = false := by decide
  intro _ w hw
  rw [h]
  exact hwords w hw

/-- A plain line stays without directives when harmless replacements are applied to it. -/
theorem clear_expand {rs : List Replacement} {line code : Text}
    (hrs : ∀ r ∈ rs, r.Harmless bareWords)
    (hline : ∀ w ∈ directiveWords, line.code.mentions w = false)
    (h : Replacement.expandAll rs line.code = .ok code) : Clear (code ++ line.comment) := by
  intro _ w hw
  by_contra hm
  have hm : Text.mentions (code ++ line.comment).code w = true := by simpa using hm
  have hcode : Text.mentions code w = true :=
    Text.mentions_of_isPrefix (Text.code_append_comment_isPrefix line code) hm
  have hw' := hw
  rw [directiveWords_eq] at hw'
  obtain ⟨bare, hbare, rfl⟩ := List.mem_map.mp hw'
  have hold := Replacement.mentions_expandAll hbare (plain_bareWords bare hbare) hrs h hcode
  rw [hline _ hw] at hold
  simp at hold

/-! ### Expansion -/

namespace Expansion

/-- **No directive is left in what is written for a line** that includes no file and mentions a
condition only where it applies one, if the replacements stored are harmless. -/
theorem clear_of_takes {s t : Expansion} {line written : Text} {use : Use}
    (htakes : Takes s line t use written) (hsees : s.reader.Sees line use t.reader)
    (hinc : use.included? = none) (hstored : ∀ r ∈ s.pre.stored, r.Harmless bareWords)
    (hline : Marker.ofLine? line = none → ∀ w ∈ conditionWords, line.code.mentions w = true →
      Regions.isCondition line.code = true) :
    Clear written := by
  cases htakes with
  | marker marks pre =>
    intro hm
    rw [marks] at hm
    simp at hm
  | skip unmarked pre => exact clear_of_code_nil (by decide)
  | define unmarked defines expands pre => exact clear_of_code_nil (by decide)
  | expand unmarked active other expands pre =>
    refine clear_expand hstored (fun w hw => ?_) expands
    have hplain : line.code.mentions includeWord = false ∧ use = .plain := by
      rw [active, Use.ofCode, other] at hinc
      rw [active, Use.ofCode, other]
      cases hi : line.code.mentions includeWord with
      | true => simp [hi, Use.included?] at hinc
      | false => simp
    rcases mem_directiveWords hw with rfl | rfl | hw
    · exact hplain.1
    · exact other
    · by_contra hm
      have hcond := hline unmarked w hw (by simpa using hm)
      rcases View.step_cases hsees.view with ⟨-, -, huse⟩ | ⟨-, huse, -⟩ | ⟨-, hdir, -⟩
      · simp [hplain.2] at huse
      · simp [hplain.2] at huse
      · rw [Regions.directive_eq_none.mp hdir] at hcond
        simp at hcond

/-- What is stored stays harmless after a tidy line, and no file is included. -/
theorem harmless_of_takes {s t : Expansion} {line written : Text} {use : Use}
    (htakes : Takes s line t use written)
    (hpre : ∀ r ∈ s.pre.predefined ++ s.pre.stored, r.Harmless bareWords)
    (hline : Marker.ofLine? line = none → Tidy line) :
    t.pre.included = s.pre.included ∧
      ∀ r ∈ t.pre.predefined ++ t.pre.stored, r.Harmless bareWords := by
  cases htakes with
  | marker marks pre => exact ⟨by rw [pre], by rwa [pre]⟩
  | skip unmarked pre => exact ⟨by rw [pre], by rwa [pre]⟩
  | define unmarked defines expands pre =>
    have hnew := (hline unmarked).harmless defines |>.expandAll plain_bareWords hpre expands
    refine ⟨by rw [pre]; rfl, fun r hr => ?_⟩
    rw [pre, Preprocessor.mem_store] at hr
    rcases hr with hr | rfl
    · exact hpre r hr
    · exact hnew
  | expand unmarked active other expands pre => exact ⟨by rw [pre], by rwa [pre]⟩

/-- **An expansion succeeds and leaves no directive**, where no file is pending, every definition
has a name and the lines are tidy. -/
theorem exists_walk : ∀ {lines : List Text} {s : Expansion} {seen : List (Text × Use)} {v : View},
    s.reader.stack.Passes lines → survey s.reader.view lines = some (seen, v) →
    pending seen = [] → (∀ l ∈ seen, l.2 ≠ .misdefines) →
    (∀ r ∈ s.pre.predefined ++ s.pre.stored, r.Harmless bareWords) →
    (∀ line ∈ lines, Marker.ofLine? line = none → Tidy line) →
    ∃ t out, walk step s lines = (t, none) ∧ t.reader.view = v ∧
      t.pre.included = s.pre.included ∧ t.out.toList = s.out.toList ++ out ∧
      ∀ line ∈ out, Clear line
  | [], s, seen, v, _, hseen, _, _, _, _ => by
    cases hseen
    exact ⟨s, [], rfl, rfl, rfl, by simp, by simp⟩
  | line :: lines, s, seen, v, hpasses, hseen, hpending, hmis, hpre, hlines => by
    obtain ⟨w, use, rest, hw, hrest, rfl⟩ := survey_cons.mp hseen
    rw [pending_cons, List.append_eq_nil_iff] at hpending
    have hinc : use.included? = none := by simpa using hpending.1
    obtain ⟨t, ht⟩ := exists_step (fun r hr => (hpre r hr).ident) hpasses.1 hw
      (hmis (line, use) (by simp))
    obtain ⟨use', written, hsees, hout, htakes⟩ := takes_of_step ht
    obtain ⟨rfl, rfl⟩ := Prod.mk.inj (Option.some.inj (hsees.view.symm.trans hw))
    obtain ⟨b, hb⟩ := hsees.stack
    have hstack : (s.reader.stack.step line).1 = t.reader.stack := by rw [hb]
    have hclear := clear_of_takes htakes hsees hinc (fun r hr => hpre r (by simp [hr]))
      fun hm => (hlines line (by simp) hm).condition
    obtain ⟨hincluded, hpre'⟩ := harmless_of_takes htakes hpre (hlines line (by simp))
    obtain ⟨u, out, hu, hview, hincluded', hout', hclear'⟩ := exists_walk (hstack ▸ hpasses.2) hrest
      hpending.2 (fun l hl => hmis l (by simp [hl])) hpre' fun l hl => hlines l (by simp [hl])
    refine ⟨u, written :: out, walk_cons_eq_none.mpr ⟨t, ht, hu⟩, hview,
      hincluded'.trans hincluded, by rw [hout', hout]; simp, fun l hl => ?_⟩
    rcases List.mem_cons.mp hl with rfl | hl
    · exact hclear
    · exact hclear' l hl

/-- The file stack gets past the lines of an expansion that succeeds. -/
theorem passes_of_walk : ∀ {lines : List Text} {s t : Expansion},
    walk step s lines = (t, none) → s.reader.stack.Passes lines
  | [], s, t, _ => trivial
  | line :: lines, s, t, h => by
    obtain ⟨u, hu, hw⟩ := walk_cons_eq_none.mp h
    obtain ⟨use, written, hsees, -, -⟩ := takes_of_step hu
    obtain ⟨b, hb⟩ := hsees.stack
    have hrest := passes_of_walk hw
    rw [FileStack.Passes, hb]
    exact ⟨⟨b, rfl⟩, hrest⟩

end Expansion

end Mcs51.Source
