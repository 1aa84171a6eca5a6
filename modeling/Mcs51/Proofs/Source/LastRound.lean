import Mcs51.Proofs.Source.Settling

/-! # The first round without a file is the last

A round that finds no file to put in expands its lines. It sees them as the inclusion did, so every
line that still includes a file is inactive and goes. A plain line then keeps a directive only if it
had one before, or if a replacement makes one out of a sign before it.

`Orderly` rules both out, and lines that go on in the next one: the lines of the source and of the
files that were put in mention a condition only where they apply it, and what was stored in the
course of the run brings in no directive. The first round without a file then ends the run, in
success or in a parse error (`ends_of_settled`). -/

namespace Mcs51.Source

/-! ### Expansions that may stop -/

theorem definition_error {code : Text} {problem : Problem} (h : definition code = .error problem) :
    problem.kind = .parse := by
  unfold definition at h
  simp only at h
  split_ifs at h
  cases h
  rfl

namespace Expansion

/-- A definition without a name stops an expansion. -/
theorem stops_of_misdefines {s : Expansion} {line : Text} {v : View}
    (hstack : ∃ b, (s.reader.stack.step line).2 = .ok b)
    (hview : s.reader.view.step line = some (v, .misdefines)) :
    ∃ t e, s.step line = (t, some (.error e)) ∧ e.problem.kind = .parse := by
  obtain ⟨⟨u, role⟩, hrole, huse⟩ := Option.map_eq_some_iff.mp hview
  obtain ⟨r, hr⟩ := Reader.exists_step hstack hrole
  cases role with
  | marker => cases huse
  | inactive => cases huse
  | active =>
    have huse : Use.ofCode line.code = .misdefines := (Prod.mk.inj huse).2
    unfold Use.ofCode at huse
    split_ifs at huse with hdefine
    cases hdefinition : definition line.code with
    | ok q => simp [hdefinition] at huse
    | error problem =>
      refine ⟨{ s with reader := r }, ⟨problem, some r.stack.pos⟩, ?_, definition_error hdefinition⟩
      unfold step
      rw [hr]
      show active _ line = _
      rw [active, if_pos hdefine, define, hdefinition]

/-- The names of all replacements stay identifiers. -/
theorem names_of_takes {s t : Expansion} {line written : Text} {use : Use}
    (htakes : Takes s line t use written)
    (hnames : ∀ r ∈ s.pre.predefined ++ s.pre.stored, r.name.isIdent = true) :
    ∀ r ∈ t.pre.predefined ++ t.pre.stored, r.name.isIdent = true := by
  cases htakes with
  | marker marks pre => rwa [pre]
  | skip unmarked pre => rwa [pre]
  | define unmarked defines expands pre =>
    intro r hr
    rw [pre, Preprocessor.mem_store] at hr
    rcases hr with hr | rfl
    · exact hnames r hr
    · have hident := isIdent_of_definition defines
      exact hident
  | expand unmarked active other expands pre => rwa [pre]

theorem names_of_walk : ∀ {lines : List Text} {s t : Expansion}, walk step s lines = (t, none) →
    (∀ r ∈ s.pre.predefined ++ s.pre.stored, r.name.isIdent = true) →
    ∀ r ∈ t.pre.predefined ++ t.pre.stored, r.name.isIdent = true
  | [], s, t, h, hnames => by
    cases h
    exact hnames
  | line :: lines, s, t, h, hnames => by
    obtain ⟨u, hu, hw⟩ := walk_cons_eq_none.mp h
    obtain ⟨use, written, -, -, htakes⟩ := takes_of_step hu
    exact names_of_walk hw (names_of_takes htakes hnames)

/-- **An expansion succeeds or stops with a parse error**, where the file stack and the regions get
past all lines. -/
theorem walk_or_parse : ∀ {lines : List Text} {s : Expansion} {seen : List (Text × Use)} {v : View},
    s.reader.stack.Passes lines → survey s.reader.view lines = some (seen, v) →
    (∀ r ∈ s.pre.predefined ++ s.pre.stored, r.name.isIdent = true) →
    (∃ t, walk step s lines = (t, none)) ∨
      ∃ t e, walk step s lines = (t, some (.error e)) ∧ e.problem.kind = .parse
  | [], s, seen, v, _, _, _ => Or.inl ⟨s, rfl⟩
  | line :: lines, s, seen, v, hpasses, hseen, hnames => by
    obtain ⟨w, use, rest, hw, hrest, rfl⟩ := survey_cons.mp hseen
    by_cases hmis : use = .misdefines
    · subst hmis
      obtain ⟨t, e, ht, hkind⟩ := stops_of_misdefines hpasses.1 hw
      exact Or.inr ⟨t, e, by rw [walk, ht], hkind⟩
    · obtain ⟨t, ht⟩ := exists_step hnames hpasses.1 hw hmis
      obtain ⟨use', written, hsees, -, htakes⟩ := takes_of_step ht
      obtain ⟨rfl, rfl⟩ := Prod.mk.inj (Option.some.inj (hsees.view.symm.trans hw))
      obtain ⟨b, hb⟩ := hsees.stack
      have hstack : (s.reader.stack.step line).1 = t.reader.stack := by rw [hb]
      have hwalk : walk step s (line :: lines) = walk step t lines := by rw [walk, ht]
      rw [hwalk]
      exact walk_or_parse (hstack ▸ hpasses.2) hrest (names_of_takes htakes hnames)

/-- **No directive is left by an expansion** whose lines include no file and mention a condition
only where they apply one, if all that is stored at its end is harmless. -/
theorem clear_of_walk : ∀ {lines : List Text} {s t : Expansion} {seen : List (Text × Use)}
    {v : View}, walk step s lines = (t, none) → survey s.reader.view lines = some (seen, v) →
    pending seen = [] → (∀ r ∈ t.pre.stored, r.Harmless bareWords) →
    (∀ line ∈ lines, Marker.ofLine? line = none → ∀ w ∈ conditionWords,
      line.code.mentions w = true → Regions.isCondition line.code = true) →
    ∃ out, t.out.toList = s.out.toList ++ out ∧ ∀ line ∈ out, Clear line
  | [], s, t, seen, v, h, _, _, _, _ => by
    cases h
    exact ⟨[], by simp, by simp⟩
  | line :: lines, s, t, seen, v, h, hseen, hpending, hstored, hlines => by
    obtain ⟨w, use, rest, hw, hrest, rfl⟩ := survey_cons.mp hseen
    rw [pending_cons, List.append_eq_nil_iff] at hpending
    have hinc : use.included? = none := by simpa using hpending.1
    have hkept := s.extends_walk (line :: lines)
    rw [h] at hkept
    obtain ⟨u, hu, hwalk⟩ := walk_cons_eq_none.mp h
    obtain ⟨use', written, hsees, hout, htakes⟩ := takes_of_step hu
    obtain ⟨rfl, rfl⟩ := Prod.mk.inj (Option.some.inj (hsees.view.symm.trans hw))
    have hclear : Clear written := clear_of_takes htakes hsees hinc
      (fun r hr => hstored r (hkept.stored hr)) (hlines line (by simp))
    obtain ⟨out, hout', hclear'⟩ := clear_of_walk hwalk hrest hpending.2 hstored
      fun l hl => hlines l (by simp [hl])
    refine ⟨written :: out, by rw [hout', hout]; simp, fun l hl => ?_⟩
    rcases List.mem_cons.mp hl with rfl | hl
    · exact hclear
    · exact hclear' l hl

end Expansion

/-! ### Orderly runs -/

/-- The text of the source, or of a file that the run puts in. -/
def Entered (d : Disk) (p : Preprocessor) (file source text : Text) : Prop :=
  text = source ∨ ∃ path, listed (p.processText d file source).1.included path = true ∧
    d.readText path = .ok text

/-- What is asked of a run for its first round without a file to be the last: predefined names are
identifiers, no backslash comes in, the lines that enter mention a condition only where they apply
one, and no replacement that the run stores has a `#` or begins with the word of a directive. -/
structure Orderly (d : Disk) (p : Preprocessor) (file source : Text) : Prop where
  names : ∀ r ∈ p.predefined, r.name.isIdent = true
  unjoined : ∀ text, Entered d p file source text → '\\' ∉ text
  predefined : ∀ r ∈ p.predefined, '\\' ∉ r.expansion
  condition : ∀ text, Entered d p file source text → ∀ lines, p.enter text = .ok lines →
    ∀ line ∈ lines, ∀ w ∈ conditionWords, line.code.mentions w = true →
      Regions.isCondition line.code = true
  noSign : ∀ r ∈ (p.processText d file source).1.stored, '#' ∉ r.expansion
  noWord : ∀ r ∈ (p.processText d file source).1.stored, ∀ w ∈ bareWords,
    Text.leads w r.expansion = false

/-- A line that does not go on in the next one, and is a marker or mentions a condition only where
it applies one. -/
structure Steady (line : Text) : Prop where
  ends : continues line = false
  condition : Marker.ofLine? line = none → ∀ w ∈ conditionWords, line.code.mentions w = true →
    Regions.isCondition line.code = true

theorem steady_includeFiller : Steady includeFiller where
  ends := by decide
  condition _ := by decide

theorem steady_marker {m : Marker} (hm : Marker.ofLine? m.line = some m) : Steady m.line where
  ends := continues_marker m
  condition hnone := by simp [hm] at hnone

section

variable {d : Disk} {p₀ p q : Preprocessor} {file source : Text} {lines out : List Text}
  {left count : Nat}

theorem Orderly.steady (h : Orderly d p₀ file source) {text : Text}
    (htext : Entered d p₀ file source text) (henter : p₀.enter text = .ok lines) :
    ∀ line ∈ lines, Steady line := by
  have hident (c : Char) (hc : Text.isIdentChar c = true) : c ≠ '\\' := by
    rintro rfl
    revert hc
    decide
  have hchars := forall_enter hident (fun r hr c hc heq => h.predefined r hr (heq ▸ hc))
    (fun c hc heq => h.unjoined text htext (heq ▸ hc)) henter
  intro line hline
  exact ⟨continues_of_unjoined fun hc => hchars line hline _ hc rfl,
    fun _ => h.condition text htext lines henter line hline⟩

/-- **A round that puts files in** leaves steady lines, where the run has put in what it has. -/
theorem Orderly.steady_includeLines (h : Orderly d p₀ file source) (halike : p₀.Alike p)
    (hlines : ∀ line ∈ lines, Steady line)
    (hinc : includeLines d (p.announce left) file lines = (q, .ok (out, count)))
    (hkept : q.Extends (p₀.processText d file source).1) : ∀ line ∈ out, Steady line := by
  obtain ⟨seen, w, hseen, -, -, rfl, -, hincluded⟩ := includeLines_puts halike hinc
  intro line hline
  rcases mem_widen hline with hline | ⟨name, path, inner, hname, hopen, htaken, hline⟩
  · rw [fst_of_survey hseen] at hline
    exact hlines line hline
  · obtain ⟨l, hl⟩ := mem_pending hname
    obtain ⟨hne, hblank⟩ := includedName?_ok (Use.includes_of_ofCode (ofCode_of_survey hseen hl))
    obtain ⟨text, hfind, henter⟩ := Preprocessor.open?_eq_some.mp hopen
    have htext : Entered d p₀ file source text := by
      refine Or.inr ⟨path, hkept.included path ?_, Preprocessor.find?_ok hfind⟩
      rw [hincluded, listed_addPaths, listed_of_mem htaken, Bool.or_true]
    rw [Inclusion.block, List.mem_cons, List.mem_cons, List.mem_append, List.mem_singleton] at hline
    rcases hline with rfl | rfl | hline | rfl
    · exact steady_includeFiller
    · exact steady_marker (Marker.ofLine?_line hne hblank)
    · exact h.steady htext henter line hline
    · exact steady_marker (Marker.ofLine?_line hne hblank)

/-- The run succeeds, or it ends in a parse error. -/
def Concludes (result : Preprocessor × Except Stop (List Text)) : Prop :=
  (∃ out, result.2 = .ok out) ∨ ∃ e : Error, result.2 = .error (.error e) ∧ e.problem.kind = .parse

/-- What an expansion comes to where no file is pending. -/
theorem expandLines_of_settled (halike : p₀.Alike q)
    (hnames : ∀ r ∈ p₀.predefined ++ p₀.stored, r.name.isIdent = true)
    (hpasses : (FileStack.start file).Passes lines) {seen : List (Text × Use)} {v : View}
    (hseen : survey ⟨[], p₀.defined⟩ lines = some (seen, v)) (hpending : pending seen = [])
    (hlines : ∀ line ∈ lines, Steady line) :
    (∃ q' e, expandLines q file lines = (q', .error (.error e)) ∧ e.problem.kind = .parse) ∨
      ∃ q' out, expandLines q file lines = (q', .ok out) ∧
        (∀ r ∈ q'.stored, r.name.isIdent = true) ∧
        ((∀ r ∈ q'.stored, r.Harmless bareWords) → needsPreprocessing out = false) := by
  have hview : (Expansion.start q file).reader.view = ⟨[], p₀.defined⟩ :=
    congrArg (View.mk []) halike.defined
  have hnames' : ∀ r ∈ q.predefined ++ q.stored, r.name.isIdent = true := by
    rw [halike.predefined, halike.stored]
    exact hnames
  rw [← hview] at hseen
  unfold expandLines
  rcases Expansion.walk_or_parse hpasses hseen hnames' with ⟨t, ht⟩ | ⟨t, e, ht, hkind⟩
  · rw [ht]
    by_cases hopen : t.reader.regions = []
    · refine Or.inr ⟨t.pre, t.out.toList, by simp [hopen], fun r hr => ?_, fun hharmless => ?_⟩
      · exact Expansion.names_of_walk ht hnames' r (List.mem_append_right _ hr)
      · obtain ⟨out, hout, hclear⟩ := Expansion.clear_of_walk ht hseen hpending hharmless
          fun line hline => (hlines line hline).condition
        have hout : t.out.toList = out := hout
        rw [hout]
        exact needsPreprocessing_eq_false hclear
    · exact Or.inl ⟨t.pre, ⟨.unterminatedIf, some t.reader.stack.pos⟩, by simp [hopen], rfl⟩
  · rw [ht]
    exact Or.inl ⟨t.pre, e, rfl, hkind⟩

/-- **A round without a file** is the only one left, whatever it comes to. -/
theorem Orderly.last_round (h : Orderly d p₀ file source) (hfresh : p₀.stored = [])
    {left : Nat} {p q : Preprocessor} {lines out : List Text} (halike : p₀.Alike p)
    (hlines : ∀ line ∈ lines, Steady line)
    (hrun : p₀.processText d file source = Preprocessor.rounds d file (left + 1) p lines)
    (hinc : includeLines d (p.announce left) file lines = (q, .ok (out, 0))) :
    roundsOf d file (left + 1) p lines = [⟨left, p, lines⟩] ∧
      Concludes (Preprocessor.rounds d file (left + 1) p lines) := by
  obtain ⟨hout, halike₁, seen, w, hseen, hpending⟩ := includeLines_settled halike hinc
  have hsame : splice out = lines := by
    rw [hout]
    exact splice_of_unjoined fun line hline => (hlines line hline).ends
  obtain ⟨s, hs, -⟩ := includeLines_ok hinc
  have hnames : ∀ r ∈ p₀.predefined ++ p₀.stored, r.name.isIdent = true := by
    rw [hfresh, List.append_nil]
    exact h.names
  rcases expandLines_of_settled halike₁ hnames (Inclusion.passes_of_walk hs) hseen hpending
    hlines with ⟨q', e, hexp, hkind⟩ | ⟨q', out', hexp, hident, hclear⟩
  · rw [← hsame] at hexp
    obtain ⟨hresult, honly⟩ := rounds_of_expandError hinc hexp
    exact ⟨honly, Or.inr ⟨e, by rw [hresult], hkind⟩⟩
  · rw [← hsame] at hexp
    obtain ⟨hsettled, hagain⟩ := rounds_of_expands hinc hexp
    -- what is stored now is stored at the end of the run, so it is harmless
    have hneeds : needsPreprocessing out' = false := by
      by_contra hneeds
      have hkept := extends_rounds d file left q' out'
      rw [← (hagain (by simpa using hneeds)).1, ← hrun] at hkept
      refine hneeds (hclear fun r hr => ⟨hident r hr, h.noSign r (hkept.stored hr), ?_⟩)
      exact h.noWord r (hkept.stored hr)
    obtain ⟨hresult, honly⟩ := hsettled hneeds
    exact ⟨honly, Or.inl ⟨out', by rw [hresult]⟩⟩

/-- **The rounds of an orderly run.** Up to the first round without a file the lines stay steady;
that round is the last. -/
theorem Orderly.rounds_end (h : Orderly d p₀ file source) (hfresh : p₀.stored = []) :
    ∀ {left : Nat} {p : Preprocessor} {lines : List Text}, p₀.Alike p →
      (∀ line ∈ lines, Steady line) →
      p₀.processText d file source = Preprocessor.rounds d file left p lines →
      ∀ {before after : List Round} {r : Round} {q : Preprocessor} {out : List Text},
        roundsOf d file left p lines = before ++ r :: after →
        r.inclusion d file = (q, .ok (out, 0)) →
        after = [] ∧ Concludes (Preprocessor.rounds d file left p lines)
  | 0, p, lines, _, _, _, before, after, r, q, out, hlist, _ => by simp [roundsOf] at hlist
  | left + 1, p, lines, halike, hlines, hrun, before, after, r, q, out, hlist, hr => by
    rcases hinc : includeLines d (p.announce left) file lines with ⟨p₁, e | ⟨out₁, count⟩⟩
    · -- the inclusion fails, and no round is without a file
      rw [roundsOf_of_error hinc] at hlist
      obtain ⟨rfl, hlist⟩ := List.append_eq_singleton_iff.mp hlist.symm |>.resolve_right (by simp)
      obtain ⟨rfl, rfl⟩ := List.cons.inj hlist
      rw [Round.inclusion, hinc] at hr
      simp at hr
    · by_cases hcount : count = 0
      · subst hcount
        have hlast := h.last_round hfresh halike hlines hrun hinc
        rw [hlast.1] at hlist
        obtain ⟨-, hlist⟩ := List.append_eq_singleton_iff.mp hlist.symm |>.resolve_right (by simp)
        exact ⟨(List.cons.inj hlist).2, hlast.2⟩
      · obtain ⟨hrounds, hrest⟩ := rounds_of_puts hinc hcount
        rw [hrounds] at hrun ⊢
        rw [hrest] at hlist
        have hkept := extends_rounds d file left p₁ out₁
        rw [← hrun] at hkept
        have hsteady := h.steady_includeLines halike hlines hinc hkept
        obtain ⟨-, -, -, -, halike₁, -⟩ := includeLines_puts halike hinc
        rcases List.cons_eq_append_iff.mp hlist with ⟨rfl, hfirst⟩ | ⟨before', rfl, hlater⟩
        · obtain ⟨rfl, -⟩ := List.cons.inj hfirst
          rw [Round.inclusion, hinc] at hr
          simp [hcount] at hr
        · exact h.rounds_end hfresh halike₁ hsteady hrun hlater hr

end

/-- **The first round without a file is the last.** If some round of an orderly run finds no file to
put in, then no round comes after it, and the run succeeds or ends in a parse error. -/
theorem ends_of_settled {d : Disk} {settings : Settings} {file source : Text}
    (h : Orderly d (.start settings) file source) {before after : List Round} {r : Round}
    {q : Preprocessor} {out : List Text}
    (hrounds : (Preprocessor.start settings).roundsOfText d file source = before ++ r :: after)
    (hr : r.inclusion d file = (q, .ok (out, 0))) :
    after = [] ∧ Concludes ((Preprocessor.start settings).processText d file source) := by
  unfold Preprocessor.roundsOfText at hrounds
  cases henter : (Preprocessor.start settings).enter source with
  | error f => simp [henter] at hrounds
  | ok lines =>
    rw [henter] at hrounds
    have hrun : (Preprocessor.start settings).processText d file source =
        Preprocessor.rounds d file (Preprocessor.start settings).maxRounds (.start settings)
          lines := by
      rw [Preprocessor.processText, henter]
    have hsteady := h.steady (Or.inl rfl) henter
    rw [hrun]
    exact h.rounds_end rfl (.refl _) hsteady hrun hrounds hr

/-! ### A file that is never looked for -/

/-- The text has no backslash, and its lines mention a condition only where they apply one. -/
def steadyText (p : Preprocessor) (text : Text) : Bool :=
  !text.contains '\\' && (p.enter text).toOption.all fun lines => lines.all fun line =>
    conditionWords.all fun w => !line.code.mentions w || Regions.isCondition line.code

/-- What is asked of an orderly run, for the source and every file on the disk. -/
def orderly (d : Disk) (p : Preprocessor) (file source : Text) : Bool :=
  (source :: d.texts).all (steadyText p) &&
    (p.predefined.all fun r => r.name.isIdent && !r.expansion.contains '\\') &&
    (p.processText d file source).1.stored.all fun r =>
      !r.expansion.contains '#' && bareWords.all fun w => !Text.leads w r.expansion

theorem orderly_of_check {d : Disk} {p : Preprocessor} {file source : Text}
    (h : orderly d p file source = true) : Orderly d p file source := by
  simp only [orderly, Bool.and_eq_true, List.all_eq_true, Bool.not_eq_true'] at h
  obtain ⟨⟨htexts, hpredefined⟩, hstored⟩ := h
  have hentered : ∀ text, Entered d p file source text → steadyText p text = true := by
    rintro text (rfl | ⟨path, -, hread⟩)
    · exact htexts text List.mem_cons_self
    · exact htexts text (List.mem_cons_of_mem _ (Disk.mem_texts hread))
  refine ⟨fun r hr => (hpredefined r hr).1, fun text htext => ?_, fun r hr => ?_,
    fun text htext lines henter line hline w hw hmention => ?_, fun r hr => ?_, fun r hr w hw => ?_⟩
  · have hsteady := hentered text htext
    simp only [steadyText, Bool.and_eq_true, Bool.not_eq_true'] at hsteady
    simpa using hsteady.1
  · simpa using (hpredefined r hr).2
  · have hsteady := hentered text htext
    simp only [steadyText, henter, Except.toOption, Option.all_some, Bool.and_eq_true,
      List.all_eq_true, Bool.or_eq_true, Bool.not_eq_true'] at hsteady
    refine (hsteady.2 line hline w hw).resolve_left ?_
    rw [hmention]
    simp
  · simpa using (hstored r hr).1
  · exact (hstored r hr).2 w hw

/-- A disk with a file that defines a name. -/
def keyDisk : Disk := Disk.empty.learn "a.inc".toList (.file "#define K 1\n".toUTF8.toList)

/-- A source that includes the file, and on a condition that does not hold one that is missing. -/
def keySource : Text :=
  "#include <a.inc>\n#ifdef OFF\n#include <none.inc>\n#endif\nmov P,#K\n".toList

/-- Settings with a predefined name. -/
def keySettings : Settings := { defines := [("P".toList, "a".toList)] }

/-- The lines that the second round finds no file in. -/
def keyLines : List Text :=
  ["; #include".toList, "» a.inc :start".toList, "#define K 1".toList, "» a.inc :end".toList,
    "#ifdef OFF".toList, "#include <none.inc>".toList, "#endif".toList, "mov a,#K".toList]

theorem ends_of_settled_key :
    ∃ first last q,
      (Preprocessor.start keySettings).roundsOfText keyDisk "main.asm".toList keySource =
        [first, last] ∧
      last.inclusion keyDisk "main.asm".toList = (q, .ok (keyLines, 0)) ∧
      Concludes
        ((Preprocessor.start keySettings).processText keyDisk "main.asm".toList keySource) := by
  have horderly : orderly keyDisk (.start keySettings) "main.asm".toList keySource = true := by
    decide +kernel
  have hlength : ((Preprocessor.start keySettings).roundsOfText keyDisk "main.asm".toList
      keySource).length = 2 := by
    decide +kernel
  have hlast : (((Preprocessor.start keySettings).roundsOfText keyDisk "main.asm".toList
      keySource).drop 1).map (fun r => (r.inclusion keyDisk "main.asm".toList).2) =
        [.ok (keyLines, 0)] := by
    decide +kernel
  obtain ⟨first, last, hrounds⟩ := List.length_eq_two.mp hlength
  rw [hrounds] at hlast
  have hinc : last.inclusion keyDisk "main.asm".toList =
      ((last.inclusion keyDisk "main.asm".toList).1, .ok (keyLines, 0)) :=
    Prod.ext rfl (List.cons.inj hlast).1
  exact ⟨first, last, _, hrounds, hinc,
    (ends_of_settled (orderly_of_check horderly) (show _ = [first] ++ last :: [] from hrounds)
      hinc).2⟩

end Mcs51.Source
