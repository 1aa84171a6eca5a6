import Mcs51.Proofs.Source.History
import Mcs51.Proofs.Source.PlainSource

/-! # What replacements do to a line

An expansion applies to a line, once each and in the order of their definitions, the replacements
that are stored when it comes to the line. Those are the ones that earlier expansions of the run
have stored, and the ones that are defined on lines before it. A run expands its lines again as long
as a directive is left, and each time begins with what it has stored by then. So a line is its stem
with all batches applied one after the other (`Stem.Gives`), and each batch begins with the one
before it.

Where a run expands its lines only once, each line gets the replacements that are defined before it,
and each of them once. Where it does not, a replacement that mentions its own name is applied again,
and a replacement reaches lines before its definition (`applied_again`).

Main statement: `substituted_in_order`. -/

namespace Mcs51.Source

open Tracked

/-- A text is its stem with all that was applied to it: the code changes, the comment does not. -/
def Stem.Gives (stem : Stem) (text : Text) : Prop :=
  ∃ code, Replacement.expandAll stem.batches.flatten stem.line.code = .ok code ∧
    text = code ++ stem.line.comment

/-- What a line has been through agrees with the replacements stored: its text is what its stem
gives, every batch is what was stored at some time, and what was applied once is applied again. -/
def Tracked.Accounted (stored : List Replacement) (l : Tracked) : Prop :=
  ∀ stem, l.stem = some stem → stem.Gives l.text ∧ stem.batches.Pairwise (· <+: ·) ∧
    ∀ batch ∈ stem.batches, batch <+: stored

/-- No expansion opens a comment. -/
def Uncommented (stored : List Replacement) : Prop := ∀ r ∈ stored, ';' ∉ r.expansion

/-! ### Code and comments -/

theorem notMem_expandAll {rs : List Replacement} {text t : Text} (hrs : Uncommented rs)
    (ht : ';' ∉ text) (h : Replacement.expandAll rs text = .ok t) : ';' ∉ t := by
  have hident (c : Char) (hc : Text.isIdentChar c = true) : c ≠ ';' := by
    rintro rfl
    revert hc
    decide
  have hall := Replacement.forall_expandAll hident
    (fun r hr c hc (h : c = ';') => hrs r hr (h ▸ hc)) (fun c hc (h : c = ';') => ht (h ▸ hc)) h
  exact fun hm => hall _ hm rfl

/-! ### Stems -/

theorem gives_fresh (text : Text) : Stem.Gives ⟨text, []⟩ text :=
  ⟨text.code, rfl, (Text.code_append_comment text).symm⟩

/-- Another expansion. -/
theorem Stem.Gives.after {stem : Stem} {text code : Text} {stored : List Replacement}
    (h : stem.Gives text) (hbatches : Uncommented stem.batches.flatten)
    (hcode : Replacement.expandAll stored text.code = .ok code) :
    (stem.after stored).Gives (code ++ text.comment) := by
  obtain ⟨before, hbefore, rfl⟩ := h
  have hplain : ';' ∉ before := notMem_expandAll hbatches (Text.notMem_code _) hbefore
  obtain ⟨hsame, hcomment⟩ := Text.code_of_notMem hplain stem.line
  rw [hsame] at hcode
  refine ⟨code, ?_, by rw [hcomment]; rfl⟩
  rw [Stem.after, List.flatten_append, List.flatten_singleton, Replacement.expandAll_append, hbefore]
  exact hcode

theorem accounted_fresh (stored : List Replacement) (text : Text) : (fresh text).Accounted stored := by
  rintro stem ⟨⟩
  exact ⟨gives_fresh text, .nil, by simp⟩

theorem accounted_ofParts (stored : List Replacement) (b : Bool) (text : Text) :
    (ofParts b text).Accounted stored := by
  cases b with
  | true => exact accounted_fresh stored text
  | false =>
    intro stem hstem
    simp [ofParts] at hstem

theorem Tracked.Accounted.mono {stored more : List Replacement} {l : Tracked} (h : l.Accounted stored)
    (hmore : stored <+: more) : l.Accounted more := by
  intro stem hstem
  obtain ⟨hgives, hgrows, hbatches⟩ := h stem hstem
  exact ⟨hgives, hgrows, fun batch hb => (hbatches batch hb).trans hmore⟩

theorem uncommented_batches {stored : List Replacement} {batches : List (List Replacement)}
    (hstored : Uncommented stored) (h : ∀ batch ∈ batches, batch <+: stored) :
    Uncommented batches.flatten := by
  intro r hr
  obtain ⟨batch, hbatch, hr⟩ := List.mem_flatten.mp hr
  exact hstored r ((h batch hbatch).subset hr)

/-! ### One expansion -/

theorem Tracked.Expands.stored {s t : Expansion} {l l' : Tracked} (h : l.Expands s t l') :
    t.pre.predefined = s.pre.predefined ∧ s.pre.stored <+: t.pre.stored := by
  cases h with
  | marker marks pre | skip pre | expand unmarked expands pre =>
    rw [pre]
    exact ⟨rfl, List.prefix_rfl⟩
  | define defines expands pre =>
    rw [pre]
    exact ⟨rfl, List.prefix_append _ _⟩

theorem Tracked.Expands.uncommented {s t : Expansion} {l l' : Tracked} (h : l.Expands s t l')
    (hpredefined : s.pre.predefined = []) (hs : Uncommented s.pre.stored) :
    Uncommented t.pre.stored := by
  cases h with
  | marker marks pre | skip pre | expand unmarked expands pre => rwa [pre]
  | @define r expansion words defines expands pre =>
    rw [hpredefined, List.nil_append] at expands
    have hcode : ';' ∉ r.expansion := fun hm => Text.notMem_code _ (definition_subset defines hm)
    rw [pre]
    intro r' hr'
    rcases List.mem_append.mp hr' with hr' | hr'
    · exact hs r' hr'
    · rw [List.mem_singleton.mp hr']
      exact notMem_expandAll hs hcode expands

/-- **One line of an expansion** has its batch added, and is what its stem then gives. -/
theorem Tracked.Expands.accounted {s t : Expansion} {l l' : Tracked} (h : l.Expands s t l')
    (hs : Uncommented s.pre.stored) (hl : l.Accounted s.pre.stored) : l'.Accounted t.pre.stored := by
  have hgrows := h.stored.2
  cases h with
  | marker marks pre => exact hl.mono hgrows
  | skip pre => exact fun stem hstem => by simp at hstem
  | define defines expands pre => exact fun stem hstem => by simp at hstem
  | expand unmarked expands pre =>
    intro stem' hstem'
    obtain ⟨stem, hstem, rfl⟩ := Option.map_eq_some_iff.mp hstem'
    obtain ⟨hgives, hpairs, hbatches⟩ := hl stem hstem
    refine ⟨hgives.after (uncommented_batches hs hbatches) expands, ?_, ?_⟩
    · refine List.pairwise_append.mpr ⟨hpairs, List.pairwise_singleton _ _, ?_⟩
      intro batch hb last hlast
      rw [List.mem_singleton.mp hlast]
      exact hbatches batch hb
    · intro batch hb
      rcases List.mem_append.mp hb with hb | hb
      · exact (hbatches batch hb).trans hgrows
      · rw [List.mem_singleton.mp hb]
        exact hgrows

/-- **All lines of an expansion.** -/
theorem accounted_followExpand : ∀ {ls : List Tracked} {s t : Expansion},
    walk Expansion.step s (ls.map text) = (t, none) → s.pre.predefined = [] →
      Uncommented s.pre.stored → (∀ l ∈ ls, l.Accounted s.pre.stored) →
      t.pre.predefined = [] ∧ Uncommented t.pre.stored ∧ s.pre.stored <+: t.pre.stored ∧
        ∀ l ∈ followExpand s ls, l.Accounted t.pre.stored
  | [], s, t, h, hpredefined, hs, _ => by
    cases h
    exact ⟨hpredefined, hs, List.prefix_rfl, by simp [followExpand]⟩
  | l :: ls, s, t, h, hpredefined, hs, haccounted => by
    obtain ⟨u, hu, hw⟩ := walk_cons_eq_none.mp h
    obtain ⟨l', hexpands, -, hcons⟩ := followExpand_cons hu
    obtain ⟨hsame, hgrows⟩ := hexpands.stored
    have hrest : ∀ m ∈ ls, m.Accounted u.pre.stored := fun m hm =>
      (haccounted m (List.mem_cons_of_mem _ hm)).mono hgrows
    obtain ⟨hpredefined', ht, hmore, hlines⟩ := accounted_followExpand hw (hsame.trans hpredefined)
      (hexpands.uncommented hpredefined hs) hrest
    refine ⟨hpredefined', ht, hgrows.trans hmore, ?_⟩
    rw [hcons]
    intro m hm
    rcases List.mem_cons.mp hm with rfl | hm
    · exact (hexpands.accounted hs (haccounted l List.mem_cons_self)).mono hmore
    · exact hlines m hm

/-- What a first expansion makes of a fresh line: it is used up, it is a marker, or all that is
stored is applied to it. -/
theorem Tracked.Expands.first {s t : Expansion} {text : Text} {l' : Tracked}
    (h : (fresh text).Expands s t l') :
    t.pre.stored = s.pre.stored ++ l'.defines.toList ∧
      (l'.stem = none → l'.text = defineFiller ∨ l'.text = regionFiller) ∧
      ∀ stem, l'.stem = some stem → Marker.ofLine? stem.line = none →
        stem.batches = [s.pre.stored] := by
  cases h with
  | marker marks pre =>
    refine ⟨by rw [pre]; simp [fresh], by simp [fresh], ?_⟩
    rintro stem ⟨⟩ hunmarked
    rw [show Marker.ofLine? text = _ from marks] at hunmarked
    simp at hunmarked
  | skip pre => exact ⟨by rw [pre]; simp [fresh], fun _ => Or.inr rfl, by simp⟩
  | define defines expands pre => exact ⟨by rw [pre]; rfl, fun _ => Or.inl rfl, by simp⟩
  | expand unmarked expands pre =>
    refine ⟨by rw [pre]; simp [fresh], by simp [fresh], ?_⟩
    rintro stem ⟨⟩ -
    rfl

/-- **A first expansion**, line by line: what is defined on the lines before is stored, and just
this is applied. -/
theorem first_followExpand : ∀ {ts : List Text} {s t : Expansion},
    walk Expansion.step s ts = (t, none) →
      t.pre.stored = s.pre.stored ++ (followExpand s (ts.map fresh)).filterMap Tracked.defines ∧
      ∀ before l after, followExpand s (ts.map fresh) = before ++ l :: after →
        (l.stem = none → l.text = defineFiller ∨ l.text = regionFiller) ∧
        ∀ stem, l.stem = some stem → Marker.ofLine? stem.line = none →
          stem.batches = [s.pre.stored ++ before.filterMap Tracked.defines]
  | [], s, t, h => by
    cases h
    exact ⟨by simp [followExpand], by simp [followExpand]⟩
  | text :: ts, s, t, h => by
    obtain ⟨u, hu, hw⟩ := walk_cons_eq_none.mp h
    obtain ⟨l', hexpands, -, hcons⟩ := followExpand_cons (l := fresh text) hu
    obtain ⟨hstored, hused, hbatch⟩ := hexpands.first
    obtain ⟨hstored', hrest⟩ := first_followExpand hw
    have hone : [l'].filterMap Tracked.defines = l'.defines.toList := by
      cases hd : l'.defines <;> simp [hd]
    rw [List.map_cons, hcons]
    constructor
    · rw [hstored', hstored, ← hone, List.append_assoc, ← List.filterMap_append,
        List.singleton_append]
    · intro before l after hsplit
      rcases List.cons_eq_append_iff.mp hsplit with ⟨rfl, hhead⟩ | ⟨before', rfl, hsplit'⟩
      · obtain ⟨rfl, -⟩ := List.cons.inj hhead
        simpa using ⟨hused, hbatch⟩
      · obtain ⟨hused', hbatch'⟩ := hrest before' l after hsplit'
        refine ⟨hused', fun stem hstem hunmarked => ?_⟩
        rw [hbatch' stem hstem hunmarked, hstored, ← hone, List.append_assoc,
          ← List.filterMap_append, List.singleton_append]

/-! ### Runs -/

/-- What holds of the lines between two rounds. -/
structure AllAccounted (p : Preprocessor) (ls : List Tracked) : Prop where
  predefined : p.predefined = []
  uncommented : Uncommented p.stored
  lines : ∀ l ∈ ls, l.Accounted p.stored

/-- No expansion has been at any line. -/
structure Untouched (p : Preprocessor) (ls : List Tracked) : Prop where
  stored : p.stored = []
  lines : ls = (ls.map text).map fresh

/-- A run that expands its lines once: what is stored is what the lines define, a line that is used
up leaves a filler, and each other line has its stem with what is defined before it applied. -/
structure Once (p : Preprocessor) (ls : List Tracked) : Prop where
  stored : p.stored = ls.filterMap Tracked.defines
  used : ∀ l ∈ ls, l.stem = none → l.text = defineFiller ∨ l.text = regionFiller
  applied : ∀ before l after, ls = before ++ l :: after → ∀ stem, l.stem = some stem →
    Marker.ofLine? stem.line = none → stem.batches = [before.filterMap Tracked.defines]

theorem alike_of_walk_inclusion {d : Disk} : ∀ {lines : List Text} {s t : Inclusion},
    walk (Inclusion.step d) s lines = (t, none) → s.pre.Alike t.pre
  | [], s, t, h => by
    cases h
    exact .refl _
  | line :: lines, s, t, h => by
    obtain ⟨u, hu, hw⟩ := walk_cons_eq_none.mp h
    obtain ⟨use, written, -, -, htakes⟩ := Inclusion.takes_of_step hu
    have halike : s.pre.Alike u.pre := by
      cases htakes with
      | keep other pre count =>
        rw [pre]
        exact .refl _
      | insert unmarked names found enters pre count =>
        rw [pre]
        exact s.pre.alike_insert _ _
    exact halike.trans (alike_of_walk_inclusion hw)

theorem AllAccounted.include {d : Disk} {p q : Preprocessor} {file : Text} {ls : List Tracked}
    {out : List Text} {count : Nat} (h : AllAccounted p ls)
    (hinc : includeLines d p file (ls.map text) = (q, .ok (out, count))) :
    AllAccounted q (followInclude d (.start p file) ls) := by
  obtain ⟨s, hs, rfl, -, -⟩ := includeLines_ok hinc
  have halike : p.Alike s.pre := alike_of_walk_inclusion hs
  refine ⟨halike.predefined.trans h.predefined, by rw [halike.stored]; exact h.uncommented, ?_⟩
  rw [halike.stored]
  intro l hl
  rcases mem_followInclude hl with hl | hl
  · exact h.lines l hl
  · rw [hl]
    exact accounted_fresh _ _

theorem AllAccounted.splice {p : Preprocessor} {ls : List Tracked} (h : AllAccounted p ls) :
    AllAccounted p (followSplice ls) := by
  refine ⟨h.predefined, h.uncommented, ?_⟩
  cases ls with
  | nil => exact h.lines
  | cons line ls =>
    exact mem_followSpliceFrom (accounted_ofParts p.stored) (h.lines line List.mem_cons_self)
      fun l hl => h.lines l (List.mem_cons_of_mem _ hl)

theorem Untouched.include {d : Disk} {p q : Preprocessor} {file : Text} {ls : List Tracked}
    {out : List Text} {count : Nat} (h : Untouched p ls)
    (hinc : includeLines d p file (ls.map text) = (q, .ok (out, count))) :
    Untouched q (followInclude d (.start p file) ls) := by
  obtain ⟨s, hs, rfl, -, -⟩ := includeLines_ok hinc
  have halike : p.Alike s.pre := alike_of_walk_inclusion hs
  refine ⟨halike.stored.trans h.stored, ?_⟩
  have hfresh : ∀ l ∈ followInclude d (.start p file) ls, fresh l.text = l := by
    intro l hl
    rcases mem_followInclude hl with hl | hl
    · rw [h.lines] at hl
      obtain ⟨t, -, rfl⟩ := List.mem_map.mp hl
      rfl
    · exact hl.symm
  rw [List.map_map]
  conv_lhs => rw [← List.map_id (followInclude d (.start p file) ls)]
  exact List.map_congr_left fun l hl => (hfresh l hl).symm

/-- **One expansion of a run.** -/
theorem AllAccounted.expand {p q : Preprocessor} {file : Text} {ls : List Tracked}
    {texts : List Text} (h : AllAccounted p ls)
    (hexp : expandLines p file (ls.map text) = (q, .ok texts)) :
    AllAccounted q (followExpand (.start p file) ls) ∧
      (followExpand (.start p file) ls).map text = texts := by
  obtain ⟨s, hs, rfl, rfl⟩ := expandLines_ok hexp
  obtain ⟨hpredefined, huncommented, -, hlines⟩ :=
    accounted_followExpand hs h.predefined h.uncommented h.lines
  refine ⟨⟨hpredefined, huncommented, hlines⟩, ?_⟩
  rw [text_followExpand hs]
  rfl

/-- **The first expansion of a run.** -/
theorem Untouched.expand {p q : Preprocessor} {file : Text} {ls : List Tracked}
    {texts : List Text} (h : Untouched p ls)
    (hexp : expandLines p file ((followSplice ls).map text) = (q, .ok texts)) :
    Once q (followExpand (.start p file) (followSplice ls)) := by
  obtain ⟨s, hs, rfl, -⟩ := expandLines_ok hexp
  have hfresh : followSplice ls = (splice (ls.map text)).map fresh := by
    conv_lhs => rw [h.lines]
    exact followSplice_fresh _
  rw [text_followSplice] at hs
  rw [hfresh]
  obtain ⟨hstored, hsplit⟩ := first_followExpand hs
  have hstart : (Expansion.start p file).pre.stored = [] := h.stored
  rw [hstart] at hstored hsplit
  refine ⟨hstored, fun l hl => ?_, fun before l after hlines => (hsplit before l after hlines).2⟩
  obtain ⟨before, after, hlines⟩ := List.append_of_mem hl
  exact (hsplit before l after hlines).1

/-- **Rounds.** Forgetting the stems gives the rounds back, and what holds between two rounds holds
of the result; if there was only one expansion, it was the first for every line. -/
theorem followRounds_of_rounds {d : Disk} {file : Text} : ∀ {left : Nat} {p q : Preprocessor}
    {ls : List Tracked} {out : List Text},
    Preprocessor.rounds d file left p (ls.map text) = (q, .ok out) → AllAccounted p ls →
      ∃ t, followRounds d file left p ls = some t ∧ t.lines.map text = out ∧ 0 < t.expansions ∧
        AllAccounted q t.lines ∧ (t.expansions = 1 → Untouched p ls → Once q t.lines)
  | 0, p, q, ls, out, h, _ => by simp [Preprocessor.rounds] at h
  | left + 1, p, q, ls, out, h, hp => by
    simp only [Preprocessor.rounds] at h
    simp only [followRounds]
    have hannounced : AllAccounted (p.announce left) ls :=
      ⟨hp.predefined, hp.uncommented, hp.lines⟩
    rcases hinc : includeLines d (p.announce left) file (ls.map text) with
      ⟨p₁, e | ⟨lines, count⟩⟩
    · rw [hinc] at h
      simp at h
    · rw [hinc] at h
      simp only at h ⊢
      have hinserted := hannounced.include hinc
      have huntouched (hu : Untouched p ls) :
          Untouched p₁ (followInclude d (.start (p.announce left) file) ls) :=
        Untouched.include ⟨hu.stored, hu.lines⟩ hinc
      have hlines : lines = (followInclude d (.start (p.announce left) file) ls).map text := by
        obtain ⟨s, hs, -, rfl, -⟩ := includeLines_ok hinc
        exact text_followInclude hs
      generalize followInclude d (.start (p.announce left) file) ls = inserted at *
      split_ifs at h ⊢ with hcount
      · rw [hlines] at h
        obtain ⟨t, ht, hout, hpos, hall, honce⟩ := followRounds_of_rounds h hinserted
        exact ⟨t, ht, hout, hpos, hall, fun hone hu => honce hone (huntouched hu)⟩
      · rw [hlines, ← text_followSplice] at h
        rcases hexp : expandLines p₁ file ((followSplice inserted).map text) with ⟨p₂, e | texts⟩
        · rw [hexp] at h
          simp at h
        · rw [hexp] at h
          obtain ⟨hexpanded, htexts⟩ := hinserted.splice.expand hexp
          simp only at h ⊢
          split_ifs at h ⊢
          · rw [← htexts] at h
            obtain ⟨t, ht, hout, hpos, hall, -⟩ := followRounds_of_rounds h hexpanded
            refine ⟨{ t with expansions := t.expansions + 1 }, by rw [ht]; rfl, hout,
              Nat.succ_pos _, hall, fun hone _ => ?_⟩
            -- an expansion before the last one makes two
            simp only at hone
            omega
          · cases h
            refine ⟨⟨_, 1⟩, rfl, htexts, Nat.one_pos,
              ⟨hexpanded.predefined, hexpanded.uncommented, hexpanded.lines⟩, fun _ hu => ?_⟩
            have honce := (huntouched hu).expand hexp
            exact ⟨honce.stored, honce.used, honce.applied⟩

/-- **What replacements do to a line.** Let a run with nothing predefined succeed. Each line of the
result that is not used up has for its text the code of its stem with one batch after the other
applied, followed by the comment of the stem. Each batch is what was stored at the time, in the
order of the definitions, and holds all that was applied before.

If the run has expanded its lines once, the lines that are used up are the definitions and those
that are not active, and every other line but a marker has, once each and in the order of the
definitions, the replacements applied that are defined on the lines before it. -/
theorem substituted_in_order {d : Disk} {settings : Settings} {file source : Text}
    {q : Preprocessor} {out : List Text} (hdefines : settings.defines = [])
    (h : (Preprocessor.start settings).processText d file source = (q, .ok out)) :
    ∃ t, history d (.start settings) file source = some t ∧ t.lines.map text = out ∧
      0 < t.expansions ∧
      (∀ l ∈ t.lines, ∀ stem, l.stem = some stem → stem.Gives l.text ∧
        stem.batches.Pairwise (· <+: ·) ∧ ∀ batch ∈ stem.batches, batch <+: q.stored) ∧
      (t.expansions = 1 →
        q.stored = t.lines.filterMap Tracked.defines ∧
        (∀ l ∈ t.lines, l.stem = none → l.text = defineFiller ∨ l.text = regionFiller) ∧
        ∀ before l after, t.lines = before ++ l :: after → ∀ stem, l.stem = some stem →
          Marker.ofLine? stem.line = none →
          ∃ code, Replacement.expandAll (before.filterMap Tracked.defines) stem.line.code = .ok code ∧
            l.text = code ++ stem.line.comment) := by
  have hpredefined : (Preprocessor.start settings).predefined = [] := by
    simp [Preprocessor.start, hdefines]
  have hentered : ((source.lines.map fresh).map text) = source.lines := by
    rw [List.map_map]
    exact List.map_id _
  have hstart : AllAccounted (.start settings) (source.lines.map fresh) := by
    refine ⟨hpredefined, by simp [Uncommented, Preprocessor.start], fun l hl => ?_⟩
    obtain ⟨line, -, rfl⟩ := List.mem_map.mp hl
    exact accounted_fresh _ _
  have hfresh : Untouched (.start settings) (source.lines.map fresh) := ⟨rfl, by rw [hentered]⟩
  unfold Preprocessor.processText at h
  unfold history
  rw [enter_of_no_defines hpredefined] at h ⊢
  simp only at h ⊢
  rw [← hentered] at h
  obtain ⟨t, ht, hout, hpos, hall, honce⟩ := followRounds_of_rounds h hstart
  refine ⟨t, ht, hout, hpos, hall.lines, fun hone => ?_⟩
  have honce := honce hone hfresh
  refine ⟨honce.stored, honce.used, fun before l after hsplit stem hstem hunmarked => ?_⟩
  have hl : l ∈ t.lines := by
    rw [hsplit]
    simp
  obtain ⟨code, hcode, htext⟩ := (hall.lines l hl stem hstem).1
  rw [honce.applied before l after hsplit stem hstem hunmarked, List.flatten_singleton] at hcode
  exact ⟨code, hcode, htext⟩

/-- A source with an expansion that mentions its own name, a joined line, and a use before a
definition. -/
def bumpSource : Text :=
  "#define X X+1\nmov a,#X \\\n; X\nmov b,#Y\n#define Y 2\nmov c,#Y\n".toList

theorem substituted_in_order_bump :
    ∃ q t before l after,
      (Preprocessor.start {}).processText .empty "main.asm".toList bumpSource =
        (q, .ok ["; #define".toList, "mov a,#X+1 ; X".toList, "; continued".toList,
          "mov b,#Y".toList, "; #define".toList, "mov c,#2".toList]) ∧
      history .empty (.start {}) "main.asm".toList bumpSource = some t ∧ t.expansions = 1 ∧
      t.lines = before ++ l :: after ∧ l.text = "mov a,#X+1 ; X".toList ∧
      before.filterMap Tracked.defines = [⟨"X".toList, "X+1".toList⟩] ∧
      ∃ code, Replacement.expandAll (before.filterMap Tracked.defines) "mov a,#X ".toList =
          .ok code ∧ l.text = code ++ "; X".toList := by
  have hrun : ((Preprocessor.start {}).processText .empty "main.asm".toList bumpSource).2 =
      .ok ["; #define".toList, "mov a,#X+1 ; X".toList, "; continued".toList,
        "mov b,#Y".toList, "; #define".toList, "mov c,#2".toList] := by
    decide +kernel
  have hhistory : (history .empty (.start {}) "main.asm".toList bumpSource).any (fun t =>
      t.expansions == 1 && t.lines.take 2 ==
        [⟨"; #define".toList, none, some ⟨"X".toList, "X+1".toList⟩⟩,
          ⟨"mov a,#X+1 ; X".toList,
            some ⟨"mov a,#X ; X".toList, [[⟨"X".toList, "X+1".toList⟩]]⟩, none⟩]) = true := by
    decide +kernel
  generalize hprocess :
    (Preprocessor.start {}).processText .empty "main.asm".toList bumpSource = run at hrun
  obtain ⟨q, out⟩ := run
  obtain rfl := hrun
  obtain ⟨t, ht, -, -, -, honce⟩ := substituted_in_order rfl hprocess
  rw [ht] at hhistory
  simp only [Option.any_some, Bool.and_eq_true, beq_iff_eq] at hhistory
  obtain ⟨hone, htake⟩ := hhistory
  have hsplit := List.take_append_drop 2 t.lines
  rw [htake] at hsplit
  exact ⟨q, t, _, _, _, rfl, ht, hone, hsplit.symm, rfl, rfl,
    (honce hone).2.2 [_] _ _ hsplit.symm _ rfl (by decide)⟩

/-- A source whose third definition gives a line that is a definition itself. -/
def againSource : Text :=
  "mov b,#Y\n#define X X+1\nmov a,#X\n#define Y 1\n#define D #define Z 2\nD\n".toList

/-- **A second expansion applies replacements again.** The last line becomes a directive, so all
lines are expanded twice. `Y` reaches a line before its definition, and `X` is applied to its own
expansion. Neither line mentions a directive, before or after. -/
theorem applied_again :
    ((Preprocessor.start {}).processText .empty "main.asm".toList againSource).2 =
      .ok ["mov b,#1".toList, "; #define".toList, "mov a,#X+1+1".toList, "; #define".toList,
        "; #define".toList, "; #define".toList] ∧
    Replacement.expandAll [] "mov b,#Y".toList = .ok "mov b,#Y".toList ∧
    Replacement.expandAll [⟨"X".toList, "X+1".toList⟩] "mov a,#X".toList =
      .ok "mov a,#X+1".toList ∧
    ∀ line ∈ ["mov b,#Y", "mov b,#1", "mov a,#X", "mov a,#X+1+1"],
      ∀ w ∈ directiveWords, (Text.code line.toList).mentions w = false := by
  decide +kernel

end Mcs51.Source
