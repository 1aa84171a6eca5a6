import Mcs51.Proofs.Source.Selection
import Mcs51.Proofs.Source.WholeWords

/-! # Expansion is complete

Each stored replacement is applied to a line once, in the order of the definitions. That leaves no
name to replace if the table is triangular: no expansion has its own name, or the name of an earlier
replacement, for a word (`Triangular.avoids`). A table comes out like that by itself, own names
apart, for a definition is expanded by the table so far before it is stored (`Makes.triangular`). So
it makes no difference in which order names that use each other are defined, or whether a name is
defined again.

Main statement: `expandLines_complete`. -/

namespace Mcs51.Source

/-! ### Words of texts that are put together -/

namespace Avoids

variable {word text : Text}

/-- A substitution brings in no words but those of the expansion, and takes its name out. -/
theorem of_substitute {name new : Text} (hname : ∀ c ∈ name, Text.isIdentChar c = true)
    (hnew : Avoids word new)
    (htext : ∀ w ∈ pieces text, w.sameWord name = false → w.sameWord word = false) :
    Avoids word (substitute name new text) := by
  intro w hw
  rw [pieces_substitute hname, List.mem_flatMap] at hw
  obtain ⟨v, hv, hw⟩ := hw
  cases hsame : Text.sameWord v name with
  | true =>
    rw [hsame, if_pos rfl] at hw
    exact hnew w hw
  | false =>
    rw [hsame, if_neg Bool.false_ne_true, List.mem_singleton] at hw
    rw [hw]
    exact htext v hv hsame

/-- Replacements with other expansions bring no word in. -/
theorem expandAll {rs : List Replacement} {t : Text} (hnames : ∀ r ∈ rs, r.name.isIdent = true)
    (hrs : ∀ r ∈ rs, Avoids word r.expansion) (htext : Avoids word text)
    (h : Replacement.expandAll rs text = .ok t) : Avoids word t := by
  induction rs generalizing text with
  | nil =>
    cases h
    exact htext
  | cons r rs ih =>
    obtain ⟨hident, hnames⟩ := List.forall_mem_cons.mp hnames
    obtain ⟨hexpansion, hrs⟩ := List.forall_mem_cons.mp hrs
    rw [Replacement.expandAll_cons hident] at h
    have hfirst : Avoids word (substitute r.name r.expansion text) :=
      of_substitute (isIdentChar_of_isIdent hident).2 hexpansion fun w hw _ => htext w hw
    exact ih hnames hrs hfirst h

/-- The words of the code of a line are words of the line. -/
theorem code (h : Avoids word text) : Avoids word text.code := by
  have hends : endsWord text.comment = true := by
    refine endsWord_dropWhile (fun c hc => ?_) text
    rw [bne_iff_ne]
    rintro rfl
    revert hc
    decide
  intro w hw
  refine h w ?_
  rw [← Text.code_append_comment text, pieces_append_of_endsWord _ hends]
  exact List.mem_append_left _ hw

end Avoids

/-! ### Triangular tables -/

/-- A table of replacements whose expansions have no name for a word that comes before them, and not
their own. -/
structure Triangular (rs : List Replacement) : Prop where
  names : ∀ r ∈ rs, r.name.isIdent = true
  own : ∀ r ∈ rs, Avoids r.name r.expansion
  earlier : rs.Pairwise fun r s => Avoids r.name s.expansion

namespace Triangular

variable {r : Replacement} {rs : List Replacement}

theorem nil : Triangular [] := ⟨by simp, by simp, .nil⟩

theorem tail (h : Triangular (r :: rs)) : Triangular rs :=
  ⟨(List.forall_mem_cons.mp h.names).2, (List.forall_mem_cons.mp h.own).2,
    (List.pairwise_cons.mp h.earlier).2⟩

/-- **A triangular table leaves none of its names**: each goes when its turn comes, and nothing that
comes later brings it back. -/
theorem avoids (h : Triangular rs) {text t : Text} (ht : Replacement.expandAll rs text = .ok t) :
    ∀ r ∈ rs, Avoids r.name t := by
  induction rs generalizing text with
  | nil => simp
  | cons r rs ih =>
    have hident := h.names r List.mem_cons_self
    rw [Replacement.expandAll_cons hident] at ht
    have hgone : Avoids r.name (substitute r.name r.expansion text) :=
      Avoids.of_substitute (isIdentChar_of_isIdent hident).2 (h.own r List.mem_cons_self)
        fun _ _ hw => hw
    have hlater := (List.pairwise_cons.mp h.earlier).1
    exact List.forall_mem_cons.mpr ⟨hgone.expandAll h.tail.names hlater ht, ih h.tail ht⟩

/-- **One more definition.** Whatever its text is expanded by first, the table comes last. So the
table stays triangular, unless the definition is left with its own name. -/
theorem store (h : Triangular rs) {predefined : List Replacement} {expansion : Text}
    (hident : r.name.isIdent = true) (hown : Avoids r.name expansion)
    (hexpands : Replacement.expandAll (predefined ++ rs) r.expansion = .ok expansion) :
    Triangular (rs ++ [⟨r.name, expansion⟩]) := by
  rw [Replacement.expandAll_append] at hexpands
  have havoids : ∀ s ∈ rs, Avoids s.name expansion := by
    cases hfirst : Replacement.expandAll predefined r.expansion with
    | error f =>
      rw [hfirst] at hexpands
      cases hexpands
    | ok text =>
      rw [hfirst] at hexpands
      exact h.avoids hexpands
  refine ⟨?_, ?_, ?_⟩
  · exact List.forall_mem_append.mpr ⟨h.names, List.forall_mem_singleton.mpr hident⟩
  · exact List.forall_mem_append.mpr ⟨h.own, List.forall_mem_singleton.mpr hown⟩
  · exact List.pairwise_append.mpr ⟨h.earlier, List.pairwise_singleton _ _,
      fun s hs => List.forall_mem_singleton.mpr (havoids s hs)⟩

end Triangular

/-! ### Lines -/

namespace Makes

variable {predefined rs rs' : List Replacement} {out : List Text} {ls : List (Text × Bool)}

/-- Lines are made one after the other. -/
theorem exists_of_append : ∀ {a b : List (Text × Bool)} {rs : List Replacement} {out : List Text},
    Makes predefined rs (a ++ b) out rs' → ∃ front back mid, out = front ++ back ∧
      Makes predefined rs a front mid ∧ Makes predefined mid b back rs'
  | [], b, rs, out, h => ⟨[], out, rs, rfl, .done, h⟩
  | _ :: a, b, rs, out, h => by
    cases h with
    | marker marks rest =>
      obtain ⟨front, back, mid, rfl, hfront, hback⟩ := rest.exists_of_append
      exact ⟨_ :: front, back, mid, rfl, .marker marks hfront, hback⟩
    | skip unmarked rest =>
      obtain ⟨front, back, mid, rfl, hfront, hback⟩ := rest.exists_of_append
      exact ⟨_ :: front, back, mid, rfl, .skip unmarked hfront, hback⟩
    | define unmarked mentions defines expands rest =>
      obtain ⟨front, back, mid, rfl, hfront, hback⟩ := rest.exists_of_append
      exact ⟨_ :: front, back, mid, rfl, .define unmarked mentions defines expands hfront, hback⟩
    | expand unmarked other expands rest =>
      obtain ⟨front, back, mid, rfl, hfront, hback⟩ := rest.exists_of_append
      exact ⟨_ :: front, back, mid, rfl, .expand unmarked other expands hfront, hback⟩

/-- What is stored stays. -/
theorem subset (h : Makes predefined rs ls out rs') : rs ⊆ rs' := by
  induction h with
  | done => exact fun _ hr => hr
  | marker _ _ ih | skip _ _ ih | expand _ _ _ _ ih => exact ih
  | define _ _ _ _ _ ih => exact fun r hr => ih (List.mem_append_left _ hr)

/-- **The cases of a line**, by what it says: it says nothing, or is stored, or is expanded. -/
theorem cons_cases {line : Text} {read : Bool}
    (h : Makes predefined rs ((line, read) :: ls) out rs') :
    ∃ written rest mid, out = written :: rest ∧ Makes predefined mid ls rest rs' ∧
      ((usedAs (line, read) = .idle ∧ mid = rs) ∨
        (∃ r expansion, usedAs (line, read) = .defines r ∧ mid = rs ++ [⟨r.name, expansion⟩]) ∨
        ((∀ r, usedAs (line, read) ≠ .defines r) ∧ mid = rs ∧
          ∃ code, Replacement.expandAll rs line.code = .ok code ∧
            written = code ++ line.comment)) := by
  cases h with
  | marker marks rest => exact ⟨_, _, _, rfl, rest, Or.inl ⟨by simp [usedAs, marks], rfl⟩⟩
  | skip _ rest => exact ⟨_, _, _, rfl, rest, Or.inl ⟨by simp [usedAs], rfl⟩⟩
  | define unmarked mentions defines _ rest =>
    refine ⟨_, _, _, rfl, rest, Or.inr (Or.inl ⟨_, _, ?_, rfl⟩)⟩
    simp [usedAs, unmarked, Use.ofCode, mentions, defines]
  | expand unmarked other expands rest =>
    refine ⟨_, _, _, rfl, rest, Or.inr (Or.inr ⟨fun r => ?_, rfl, _, expands, rfl⟩)⟩
    simp only [usedAs, unmarked, Use.ofCode, other, Option.isNone_none, Bool.and_true, if_true,
      Bool.false_eq_true, if_false]
    split_ifs <;> simp

/-- What is defined is stored. -/
theorem mem_of_defines {line : Text} {r : Replacement} :
    ∀ {ls : List (Text × Bool)} {rs : List Replacement} {out : List Text},
      Makes predefined rs ls out rs' → (line, Use.defines r) ∈ uses ls → ∃ s ∈ rs', s.name = r.name
  | [], _, _, _, hr => by simp [uses] at hr
  | (line', read) :: ls, rs, out, h, hr => by
    have hr : (line, Use.defines r) = (line', usedAs (line', read)) ∨
        (line, Use.defines r) ∈ uses ls := List.mem_cons.mp hr
    obtain ⟨_, _, mid, -, hrest, hcases⟩ := h.cons_cases
    rcases hr with heq | hr
    · have huse := (Prod.mk.inj heq).2
      obtain ⟨hidle, -⟩ | ⟨q, expansion, hq, rfl⟩ | ⟨hother, -⟩ := hcases
      · cases huse.trans hidle
      · cases huse.trans hq
        exact ⟨_, hrest.subset (List.mem_append_right _ (List.mem_singleton_self _)), rfl⟩
      · exact absurd huse.symm (hother r)
    · exact hrest.mem_of_defines hr

/-- **The table is triangular all the way**, if no definition keeps its own name. -/
theorem triangular (h : Makes predefined rs ls out rs') (hrs : Triangular rs)
    (hown : ∀ r ∈ rs', Avoids r.name r.expansion) : Triangular rs' := by
  induction h with
  | done => exact hrs
  | marker _ _ ih | skip _ _ ih | expand _ _ _ _ ih => exact ih hrs hown
  | define _ _ defines expands rest ih =>
    have hstored := rest.subset (List.mem_append_right _ (List.mem_singleton_self _))
    exact ih (hrs.store (isIdent_of_definition defines) (hown _ hstored) expands) hown

end Makes

/-- **Expansion is complete.** Take an expansion that begins with an empty table and succeeds, and
suppose that nothing it has stored mentions its own name. It gives a line for each line. The code of
a line that is active and defines nothing then has none of the names for a word that are defined on
active lines before it, letter case aside. -/
theorem expandLines_complete {p q : Preprocessor} {file : Text} {lines out : List Text}
    (hstored : p.stored = []) (h : expandLines p file lines = (q, .ok out))
    (hown : ∀ r ∈ q.stored, Avoids r.name r.expansion) :
    ∃ seen v, survey ⟨[], p.defined⟩ lines = some (seen, v) ∧ out.length = lines.length ∧
      ∀ before line use after, seen = before ++ (line, use) :: after → use ≠ .idle →
        (∀ r, use ≠ .defines r) → ∃ written, out[before.length]? = some written ∧
          ∀ l r, (l, Use.defines r) ∈ before → Avoids r.name written.code := by
  obtain ⟨o, ho, rfl, -⟩ := exists_outline h
  have hmakes := makes_of_expandLines h ho
  rw [hstored] at hmakes
  have hlength : out.length = o.lines.length := by
    rw [hmakes.length_eq, ← fst_reads o true p.defined, List.length_map]
  have hsurvey : survey (Expansion.start p file).reader.view o.lines = _ := survey_start ho
  refine ⟨_, _, hsurvey, hlength, ?_⟩
  intro before line use after hseen hidle hdefines
  obtain ⟨a, b, hreads, rfl, hb⟩ := List.map_eq_append_iff.mp hseen
  obtain ⟨⟨line', read⟩, rest, rfl, hline, -⟩ := List.map_eq_cons_iff.mp hb
  obtain ⟨rfl, rfl⟩ := Prod.mk.inj hline
  rw [hreads] at hmakes
  obtain ⟨front, back, table, rfl, hfront, hback⟩ := hmakes.exists_of_append
  obtain ⟨written, more, mid, rfl, -, hcases⟩ := hback.cons_cases
  obtain ⟨huse, -⟩ | ⟨r, -, huse, -⟩ | ⟨-, -, code, hcode, rfl⟩ := hcases
  · exact absurd huse hidle
  · exact absurd huse (hdefines r)
  have htable : Triangular table :=
    hfront.triangular .nil fun r hr => hown r (hback.subset hr)
  refine ⟨code ++ line'.comment, ?_, fun l r hr => ?_⟩
  · rw [List.length_map, ← hfront.length_eq]
    simp
  · obtain ⟨s, hs, hname⟩ := hfront.mem_of_defines hr
    rw [Text.code_of_append_comment, ← hname]
    exact (htable.avoids hcode s hs).code

set_option maxRecDepth 4000 in
/-- A name defined before the one it uses, one that gets to it through what is predefined, and one
defined twice. -/
theorem expandLines_complete_redefined :
    let p := Preprocessor.start { defines := [("D".toList, "B+1".toList)] }
    let before : List (Text × Use) :=
      [("#define A B".toList, .defines ⟨"A".toList, "B".toList⟩),
        ("#define B 5".toList, .defines ⟨"B".toList, "5".toList⟩),
        ("#define C d".toList, .defines ⟨"C".toList, "d".toList⟩),
        ("#define b 6".toList, .defines ⟨"b".toList, "6".toList⟩)]
    let lines := before.map Prod.fst ++ ["mov r0,#C+b+a ; A".toList]
    let out := ["; #define", "; #define", "; #define", "; #define", "mov r0,#5+1+5+5 ; A"].map
      String.toList
    ∃ q, p.stored = [] ∧ expandLines p "m.asm".toList lines = (q, .ok out) ∧
      (∀ r ∈ q.stored, Avoids r.name r.expansion) ∧
      ∀ l r, (l, Use.defines r) ∈ before →
        Avoids r.name (Text.code "mov r0,#5+1+5+5 ; A".toList) := by
  intro p before lines out
  have hrun : expandLines p "m.asm".toList lines =
      ((expandLines p "m.asm".toList lines).1, .ok out) := Prod.ext rfl (by decide)
  have hown : ∀ r ∈ (expandLines p "m.asm".toList lines).1.stored, Avoids r.name r.expansion := by
    decide
  obtain ⟨seen, v, hseen, -, hcomplete⟩ := expandLines_complete rfl hrun hown
  have hfirst : (survey ⟨[], p.defined⟩ lines).map Prod.fst =
      some (before ++ [("mov r0,#C+b+a ; A".toList, .plain)]) := by decide
  rw [hseen] at hfirst
  obtain ⟨written, hwritten, hnames⟩ :=
    hcomplete before _ .plain [] (Option.some.inj hfirst) nofun nofun
  cases hwritten
  exact ⟨_, rfl, hrun, hown, hnames⟩

end Mcs51.Source
