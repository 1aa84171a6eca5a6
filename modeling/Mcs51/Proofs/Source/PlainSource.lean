import Mcs51.Proofs.Source.Settling

/-! # Sources without directives

A round that finds no directive writes the lines it reads: every line is active, and with no
replacement stored there is nothing to apply (`rounds_of_clear`). Nor do rounds ever end with a
directive left (`clear_of_rounds`). So a source without joined lines and without the sign of a
marker is left alone exactly if no line mentions the word of a directive (`kept_iff_clear`).

The word counts wherever it stands in the code of a line: an operand such as `#elsewhere` mentions
`#else`, and the rounds wait for a directive that none of them takes out (`not_kept_elsewhere`). -/

namespace Mcs51.Source

/-! ### Lines without directives -/

theorem sameWord_of_ofWord? {word : Text} {c : Condition} (h : Condition.ofWord? word = some c) :
    ∃ w ∈ conditionWords, word.sameWord w = true := by
  unfold Condition.ofWord? at h
  split_ifs at h with h1 h2 h3 h4
  · exact ⟨_, by simp [conditionWords], h1⟩
  · exact ⟨_, by simp [conditionWords], h2⟩
  · exact ⟨_, by simp [conditionWords], h3⟩
  · exact ⟨_, by simp [conditionWords], h4⟩

/-- A line that applies a condition mentions its word. -/
theorem mentions_of_isCondition {code : Text} (h : Regions.isCondition code = true) :
    ∃ w ∈ conditionWords, code.mentions w = true := by
  unfold Regions.isCondition at h
  split at h
  · simp at h
  · next word args hfields =>
    obtain ⟨c, hc⟩ := Option.isSome_iff_exists.mp h
    obtain ⟨w, hw, hsame⟩ := sameWord_of_ofWord? hc
    have hword : word ∈ code.fields := by simp [hfields]
    exact ⟨w, hw, Text.mentions_of_isInfix (Text.isInfix_of_mem_splitWords hword) hsame⟩

theorem isCondition_of_clear {code : Text}
    (h : ∀ w ∈ directiveWords, code.mentions w = false) : Regions.isCondition code = false := by
  by_contra hc
  obtain ⟨w, hw, hm⟩ := mentions_of_isCondition (by simpa using hc)
  have hw : w ∈ directiveWords := List.mem_cons_of_mem _ (List.mem_cons_of_mem _ hw)
  rw [h w hw] at hm
  simp at hm

theorem needsPreprocessing_iff {lines : List Text} :
    needsPreprocessing lines = false ↔ ∀ line ∈ lines, Clear line := by
  refine ⟨fun h line hline hm w hw => ?_, needsPreprocessing_eq_false⟩
  have hline := List.any_eq_false.mp h line hline
  rw [hm] at hline
  simp only [Option.isNone_none, Bool.true_and] at hline
  simpa using List.any_eq_false.mp (by simpa using hline) w hw

/-- **What a clear line says** outside of all regions: nothing. -/
theorem View.step_of_clear {v : View} {line : Text} (hv : v.regions = []) (h : Clear line) :
    ∃ use, v.step line = some (v, use) ∧
      (use = .idle ∧ (∃ m, Marker.ofLine? line = some m) ∨
        use = .plain ∧ Marker.ofLine? line = none) := by
  cases hm : Marker.ofLine? line with
  | some m => exact ⟨.idle, step_of_marker hm, Or.inl ⟨rfl, m, rfl⟩⟩
  | none =>
    have hwords := h hm
    have hdirective : v.regions.directive v.defined line.code = .ok none :=
      Regions.directive_eq_none.mpr (isCondition_of_clear hwords)
    have huse : Use.ofCode line.code = .plain := by
      unfold Use.ofCode
      rw [hwords defineWord (by decide), hwords includeWord (by decide)]
      rfl
    refine ⟨.plain, ?_, Or.inr ⟨rfl, rfl⟩⟩
    rw [step, role_of_unmarked hm, hdirective]
    simp [hv, Regions.active, huse, after]

/-- After a clear line a reader is outside of all regions still. -/
theorem Reader.Sees.of_clear {r s : Reader} {line : Text} {use : Use} (h : r.Sees line use s)
    (hr : r.regions = []) (hline : Clear line) :
    s.regions = [] ∧ s.stack = (r.stack.step line).1 ∧
      (use = .idle ∧ (∃ m, Marker.ofLine? line = some m) ∨
        use = .plain ∧ Marker.ofLine? line = none) := by
  obtain ⟨use', hview, huse⟩ := View.step_of_clear (v := r.view) hr hline
  obtain ⟨hv, rfl⟩ := Prod.mk.inj (Option.some.inj (hview.symm.trans h.view))
  obtain ⟨b, hb⟩ := h.stack
  exact ⟨(congrArg View.regions hv).symm.trans hr, by rw [hb], huse⟩

/-! ### One round -/

theorem Inclusion.walk_of_clear {d : Disk} : ∀ {lines : List Text} {s : Inclusion},
    s.reader.regions = [] → s.reader.stack.Passes lines → (∀ line ∈ lines, Clear line) →
      ∃ t, walk (step d) s lines = (t, none) ∧ t.pre = s.pre ∧ t.count = s.count ∧
        t.out.toList = s.out.toList ++ lines
  | [], s, _, _, _ => ⟨s, rfl, rfl, rfl, by simp⟩
  | line :: lines, s, hregions, hpasses, hclear => by
    have hline := hclear line (by simp)
    obtain ⟨use, hview, huse⟩ := View.step_of_clear (v := s.reader.view) hregions hline
    obtain ⟨t, ht⟩ : ∃ t, s.step d line = (t, none) := by
      refine exists_step hpasses.1 hview fun name? hname => ?_
      rcases huse with ⟨rfl, -⟩ | ⟨rfl, -⟩ <;> simp [Use.included?] at hname
    obtain ⟨use', written, hsees, hout, htakes⟩ := takes_of_step ht
    obtain ⟨hregions', hstack, huse'⟩ := hsees.of_clear hregions hline
    obtain ⟨u, hu, hpre, hcount, hout'⟩ := walk_of_clear (d := d) hregions'
      (by rw [hstack]; exact hpasses.2) fun l hl => hclear l (by simp [hl])
    cases htakes with
    | keep other pre count =>
      exact ⟨u, walk_cons_eq_none.mpr ⟨t, ht, hu⟩, hpre.trans pre, hcount.trans count,
        by rw [hout', hout]; simp⟩
    | insert unmarked names found enters pre count => simp at huse'

/-- Lines without directives pass an expansion with nothing to apply. -/
theorem Expansion.walk_of_clear : ∀ {lines : List Text} {s : Expansion},
    s.reader.regions = [] → s.pre.predefined = [] → s.pre.stored = [] →
    s.reader.stack.Passes lines → (∀ line ∈ lines, Clear line) →
      ∃ t, walk step s lines = (t, none) ∧ t.pre = s.pre ∧ t.reader.regions = [] ∧
        t.out.toList = s.out.toList ++ lines
  | [], s, hregions, _, _, _, _ => ⟨s, rfl, rfl, hregions, by simp⟩
  | line :: lines, s, hregions, hpredefined, hstored, hpasses, hclear => by
    have hline := hclear line (by simp)
    obtain ⟨use, hview, huse⟩ := View.step_of_clear (v := s.reader.view) hregions hline
    obtain ⟨t, ht⟩ : ∃ t, s.step line = (t, none) := by
      refine exists_step (by simp [hpredefined, hstored]) hpasses.1 hview ?_
      rcases huse with ⟨rfl, -⟩ | ⟨rfl, -⟩ <;> simp
    obtain ⟨use', written, hsees, hout, htakes⟩ := takes_of_step ht
    obtain ⟨hregions', hstack, huse'⟩ := hsees.of_clear hregions hline
    have htaken : t.pre = s.pre ∧ written = line := by
      cases htakes with
      | marker marks pre => exact ⟨pre, rfl⟩
      | skip unmarked pre => simp [unmarked] at huse'
      | define unmarked defines expands pre => simp at huse'
      | expand unmarked active other expands pre =>
        rw [hstored] at expands
        cases expands
        exact ⟨pre, Text.code_append_comment line⟩
    obtain ⟨hpre, rfl⟩ := htaken
    obtain ⟨u, hu, hpre', hend, hout'⟩ := walk_of_clear hregions' (by rw [hpre, hpredefined])
      (by rw [hpre, hstored]) (by rw [hstack]; exact hpasses.2) fun l hl => hclear l (by simp [hl])
    exact ⟨u, walk_cons_eq_none.mpr ⟨t, ht, hu⟩, hpre'.trans hpre, hend, by rw [hout', hout]; simp⟩

/-- No file is pending in lines without directives. -/
theorem survey_of_clear {v : View} (hv : v.regions = []) : ∀ {lines : List Text},
    (∀ line ∈ lines, Clear line) → ∃ seen, survey v lines = some (seen, v) ∧ pending seen = []
  | [], _ => ⟨[], rfl, rfl⟩
  | line :: lines, h => by
    obtain ⟨use, hstep, huse⟩ := View.step_of_clear hv (h line (by simp))
    obtain ⟨seen, hseen, hpending⟩ := survey_of_clear hv fun l hl => h l (List.mem_cons_of_mem _ hl)
    refine ⟨(line, use) :: seen, survey_cons.mpr ⟨v, use, seen, hstep, hseen, rfl⟩, ?_⟩
    rw [pending_cons, hpending]
    rcases huse with ⟨rfl, -⟩ | ⟨rfl, -⟩ <;> rfl

/-- What an expansion that succeeds writes for lines without directives: a marker stays, and what is
stored is applied to any other line. -/
theorem Expansion.out_of_clear {g : Text → Text} : ∀ {lines : List Text} {s t : Expansion},
    walk step s lines = (t, none) → s.reader.regions = [] → (∀ line ∈ lines, Clear line) →
    (∀ line ∈ lines, ∀ m, Marker.ofLine? line = some m → g line = line) →
    (∀ line ∈ lines, ∀ code, Replacement.expandAll s.pre.stored line.code = .ok code →
      Marker.ofLine? line = none → g line = code ++ line.comment) →
    t.reader.regions = [] ∧ t.pre = s.pre ∧ t.out.toList = s.out.toList ++ lines.map g
  | [], s, t, h, hregions, _, _, _ => by
    cases h
    exact ⟨hregions, rfl, by simp⟩
  | line :: lines, s, t, h, hregions, hclear, hmarked, hplain => by
    obtain ⟨u, hu, hw⟩ := walk_cons_eq_none.mp h
    obtain ⟨use, written, hsees, hout, htakes⟩ := takes_of_step hu
    obtain ⟨hregions', -, huse⟩ := hsees.of_clear hregions (hclear line (by simp))
    have htaken : u.pre = s.pre ∧ written = g line := by
      cases htakes with
      | marker marks pre => exact ⟨pre, (hmarked line (by simp) _ marks).symm⟩
      | skip unmarked pre => simp [unmarked] at huse
      | define unmarked defines expands pre => simp at huse
      | expand unmarked active other expands pre =>
        exact ⟨pre, (hplain line (by simp) _ expands unmarked).symm⟩
    obtain ⟨hpre, rfl⟩ := htaken
    obtain ⟨hend, hpre', hout'⟩ := out_of_clear hw hregions'
      (fun l hl => hclear l (List.mem_cons_of_mem _ hl))
      (fun l hl => hmarked l (List.mem_cons_of_mem _ hl))
      (by rw [hpre]; exact fun l hl => hplain l (List.mem_cons_of_mem _ hl))
    exact ⟨hend, hpre'.trans hpre, by rw [hout', hout]; simp⟩

/-- An expansion with nothing to apply writes lines without directives as they are. -/
theorem expandLines_of_clear {p q : Preprocessor} {file : Text} {lines out : List Text}
    (hstored : p.stored = []) (hclear : ∀ line ∈ lines, Clear line)
    (h : expandLines p file lines = (q, .ok out)) : out = lines := by
  obtain ⟨s, hs, -, rfl⟩ := expandLines_ok h
  obtain ⟨-, -, hout⟩ := Expansion.out_of_clear (g := id) hs rfl hclear (fun _ _ _ _ => rfl) (by
    intro line _ code hcode _
    have hcode : Replacement.expandAll [] line.code = .ok code := hstored ▸ hcode
    cases hcode
    exact (Text.code_append_comment line).symm)
  rw [List.map_id] at hout
  exact hout

/-- **A round without directives** writes the lines it reads, and it is the last one. -/
theorem rounds_of_clear {d : Disk} {p : Preprocessor} {file : Text} {lines : List Text} (left : Nat)
    (hpredefined : p.predefined = []) (hstored : p.stored = [])
    (hpasses : (FileStack.start file).Passes lines) (hclear : ∀ line ∈ lines, Clear line)
    (hunjoined : ∀ line ∈ lines, continues line = false) :
    ∃ q, Preprocessor.rounds d file (left + 1) p lines = (q, .ok lines) ∧
      q.included = p.included := by
  obtain ⟨s, hs, hpre, hcount, hout⟩ :=
    Inclusion.walk_of_clear (d := d) (s := .start (p.announce left) file) rfl hpasses hclear
  have hinc : includeLines d (p.announce left) file lines = (p.announce left, .ok (lines, 0)) := by
    rw [includeLines, hs]
    simp [hpre, hcount, hout, Inclusion.start]
  obtain ⟨t, ht, hpre', hregions, hout'⟩ :=
    Expansion.walk_of_clear (s := .start (p.announce left) file) rfl hpredefined hstored hpasses
      hclear
  have hexp : expandLines (p.announce left) file lines = (p.announce left, .ok lines) := by
    rw [expandLines, ht]
    simp [hpre', hregions, hout', Expansion.start]
  refine ⟨(p.announce left).settle left, ?_, rfl⟩
  rw [Preprocessor.rounds, hinc]
  simp [splice_of_unjoined hunjoined, hexp, needsPreprocessing_iff.mpr hclear]

/-- Rounds end only when no directive is left. -/
theorem clear_of_rounds {d : Disk} {file : Text} : ∀ {left : Nat} {p q : Preprocessor}
    {lines out : List Text}, Preprocessor.rounds d file left p lines = (q, .ok out) →
      ∀ line ∈ out, Clear line
  | 0, p, q, lines, out, h => by simp [Preprocessor.rounds] at h
  | left + 1, p, q, lines, out, h => by
    simp only [Preprocessor.rounds] at h
    split at h
    · simp at h
    · split_ifs at h
      · exact clear_of_rounds h
      · split at h
        · simp at h
        · split_ifs at h with hneeds
          · exact clear_of_rounds h
          · cases h
            exact needsPreprocessing_iff.mp (by simpa using hneeds)

/-! ### Sources -/

/-- There is always a first round. -/
theorem exists_maxRounds (settings : Settings) :
    ∃ left, (Preprocessor.start settings).maxRounds = left + 1 :=
  Nat.exists_eq_add_of_le' (Nat.le_max_right _ _)

/-- With nothing predefined, a source enters as its lines. -/
theorem enter_of_no_defines {p : Preprocessor} (h : p.predefined = []) (source : Text) :
    p.enter source = .ok source.lines := by
  have hline (line : Text) : p.enterLine line = .ok line := by
    unfold Preprocessor.enterLine
    rw [h]
    split_ifs
    · rfl
    · show Except.ok (line.code ++ line.comment) = _
      rw [Text.code_append_comment]
  have henter := mapM_of_forall (g := id) fun line (_ : line ∈ source.lines) => hline line
  rw [List.map_id] at henter
  exact henter

theorem FileStack.passes_unmarked : ∀ {lines : List Text} {s : FileStack},
    (∀ line ∈ lines, Marker.ofLine? line = none) → s.Passes lines
  | [], _, _ => trivial
  | line :: lines, s, h => by
    have hstep := s.step_of_unmarked (h line (by simp))
    exact ⟨⟨false, by rw [hstep]⟩, passes_unmarked fun l hl => h l (by simp [hl])⟩

/-- **Which sources are left alone.** Take a source in which no line goes on in the next one and
none starts with the sign of a marker. A preprocessor with nothing predefined gives back its lines
and includes no file if and only if no line mentions the word of a directive, anywhere in its
code. -/
theorem kept_iff_clear {d : Disk} {settings : Settings} {file source : Text}
    (hdefines : settings.defines = [])
    (hunjoined : ∀ line ∈ source.lines, continues line = false)
    (hunmarked : ∀ line ∈ source.lines, line.head? ≠ some markerSign) :
    (∃ q, (Preprocessor.start settings).processText d file source = (q, .ok source.lines) ∧
        q.included = []) ↔
      ∀ line ∈ source.lines, ∀ w ∈ directiveWords, line.code.mentions w = false := by
  have hpredefined : (Preprocessor.start settings).predefined = [] := by
    simp [Preprocessor.start, hdefines]
  have hmarks : ∀ line ∈ source.lines, Marker.ofLine? line = none := fun line hline =>
    unmarked_of_head (hunmarked line hline)
  unfold Preprocessor.processText
  rw [enter_of_no_defines hpredefined]
  constructor
  · rintro ⟨q, hrun, -⟩ line hline
    exact clear_of_rounds hrun line hline (hmarks line hline)
  · intro hwords
    have hrounds : (Preprocessor.start settings).maxRounds =
        (Preprocessor.start settings).maxRounds - 1 + 1 := by
      have : 1 ≤ (Preprocessor.start settings).maxRounds := Nat.le_max_right _ _
      omega
    rw [hrounds]
    exact rounds_of_clear _ hpredefined rfl (FileStack.passes_unmarked hmarks)
      (fun line hline _ => hwords line hline) hunjoined

/-- A source with an immediate operand and with a directive in a comment. -/
def blinkSource : Text := "blink: cpl P1 ; #define\n mov a,#0F\n\tsjmp blink\n".toList

set_option maxRecDepth 4000 in
theorem kept_blink :
    ∃ q, (Preprocessor.start {}).processText .empty "main.asm".toList blinkSource =
        (q, .ok ["blink: cpl P1 ; #define".toList, " mov a,#0F".toList, "\tsjmp blink".toList]) ∧
      q.included = [] := by
  have hlines : blinkSource.lines =
      ["blink: cpl P1 ; #define".toList, " mov a,#0F".toList, "\tsjmp blink".toList] := by
    decide
  have hclear : ∀ line ∈ blinkSource.lines, ∀ w ∈ directiveWords,
      line.code.mentions w = false := by
    decide
  rw [← hlines]
  exact (kept_iff_clear rfl (by decide) (by decide)).mpr hclear

/-- A source with a label for an operand, whose name begins with the word of a directive. -/
def elsewhereSource : Text := "mov dptr,#elsewhere\nelsewhere: ret\n".toList

set_option maxRecDepth 4000 in
/-- **An operand is taken for a directive.** No line of the source starts with `#`, goes on in the
next line or starts with the sign of a marker, and still the rounds find a directive left each time,
up to the last one. -/
theorem not_kept_elsewhere :
    (∀ line ∈ elsewhereSource.lines, line.code.trimStart.head? ≠ some '#' ∧
      continues line = false ∧ line.head? ≠ some markerSign) ∧
    ((Preprocessor.start {}).processText .empty "main.asm".toList elsewhereSource).2 =
      .error (.ofProblem (.unsettled "main.asm".toList 16)) := by
  constructor <;> decide

end Mcs51.Source
