import Mcs51.Proofs.Source.Expansion
import Mcs51.Proofs.Source.ReadingOrder
import Mcs51.Proofs.Source.Rounds

/-! # When rounds agree with reading in order

A round sees its lines while the files deeper down are still missing, so it may take a region for
active that is not active in reading order, and look for a file there. The rounds agree with reading
in order just if this does no harm (`settles`): whatever file is pending in a round leads to one
that reading opens, and some round within the limit finds none pending. -/

namespace Mcs51.Source

/-! ### Settling -/

/-- The name leads to a file whose path is listed. -/
def leadsInto (d : Disk) (p : Preprocessor) (opened : List Text) (name? : Option Text) : Bool :=
  match name?.bind (p.open? d) with
  | none => false
  | some (path, _) => listed opened path

/-- In every round the files pending lead to listed paths, until a round finds none pending. -/
def settles (d : Disk) (p : Preprocessor) (opened : List Text) : Nat → List Text → Bool
  | 0, _ => false
  | left + 1, stream =>
    match survey ⟨[], p.defined⟩ stream with
    | none => false
    | some (seen, _) =>
      (pending seen).all (leadsInto d p opened) &&
        ((pending seen).isEmpty || settles d p opened left (widen d p seen))

/-- The rounds of a source settle. -/
def settlesText (d : Disk) (p : Preprocessor) (opened : List Text) (source : Text) : Bool :=
  match p.enter source with
  | .error _ => false
  | .ok lines => settles d p opened p.maxRounds lines

/-- All files pending can be put in, and then only listed paths are included. -/
theorem all_leadsInto {d : Disk} {p : Preprocessor} {opened : List Text}
    {seen : List (Text × Use)} :
    (pending seen).all (leadsInto d p opened) = true ↔
      (∀ name? ∈ pending seen, Ready d p name?) ∧
        ∀ path, listed (takenIn d p seen) path = true → listed opened path = true := by
  rw [List.all_eq_true]
  constructor
  · intro h
    refine ⟨fun name? hname => ?_, fun path hpath => ?_⟩
    · have hleads := h name? hname
      unfold leadsInto at hleads
      split at hleads
      · simp at hleads
      · next path lines hopen =>
        obtain ⟨name, rfl, hopen⟩ := Option.bind_eq_some_iff.mp hopen
        exact ⟨name, path, lines, rfl, hopen⟩
    · obtain ⟨q, hq, hsame⟩ := List.any_eq_true.mp hpath
      obtain ⟨name?, hname, hopen⟩ := List.mem_filterMap.mp hq
      obtain ⟨f, hf, rfl⟩ := Option.map_eq_some_iff.mp hopen
      have hleads := h name? hname
      rw [leadsInto, hf] at hleads
      rw [listed_congr hsame]
      exact hleads
  · rintro ⟨hready, hlisted⟩ name? hname
    obtain ⟨name, path, lines, rfl, hopen⟩ := hready name? hname
    have hbind : (some name).bind (p.open? d) = some (path, lines) := hopen
    rw [leadsInto, hbind]
    refine hlisted path (listed_of_mem (List.mem_filterMap.mpr ⟨some name, hname, ?_⟩))
    rw [hbind]
    rfl

/-! ### Agreement needs it -/

/-- Rounds that succeed and include only listed paths settle. -/
theorem settles_of_rounds {d : Disk} {file : Text} {opened : List Text} {p₀ : Preprocessor} :
    ∀ {left : Nat} {p q : Preprocessor} {stream out : List Text}, p₀.Alike p →
      Preprocessor.rounds d file left p stream = (q, .ok out) →
      (∀ path, listed q.included path = true → listed opened path = true) →
      settles d p₀ opened left stream = true
  | 0, p, q, stream, out, _, h, _ => by simp [Preprocessor.rounds] at h
  | left + 1, p, q, stream, out, halike, h, hlisted => by
    simp only [Preprocessor.rounds] at h
    split at h
    · simp at h
    · next p₁ lines count hinc =>
      obtain ⟨seen, w, hseen, hready, halike₁, rfl, rfl, hincluded⟩ :=
        includeLines_puts halike hinc
      simp only [settles, hseen, Bool.and_eq_true, Bool.or_eq_true]
      split_ifs at h with hcount
      · refine ⟨all_leadsInto.mpr ⟨hready, fun path hpath => hlisted path ?_⟩,
          Or.inr (settles_of_rounds halike₁ h hlisted)⟩
        have hextends := extends_rounds d file left p₁ (widen d p₀ seen)
        rw [h] at hextends
        refine hextends.included path ?_
        rw [hincluded, listed_addPaths, hpath, Bool.or_true]
      · have hpending : pending seen = [] := by simpa using hcount
        rw [hpending]
        exact ⟨rfl, Or.inl rfl⟩

/-! ### It is enough -/

/-- The lines of a source, or of a file that a name leads to, as they enter a stream. -/
def Enters (d : Disk) (p : Preprocessor) (source : Text) (lines : List Text) : Prop :=
  p.enter source = .ok lines ∨ ∃ name path, p.open? d name = some (path, lines)

/-- What is asked of the source and of every file for reading in order to make sense line by line:
each closes the regions that it opens, no line goes on in the next one or looks like a marker, and
no expansion brings in a sign of directives. -/
structure Regular (d : Disk) (p : Preprocessor) (source : Text) : Prop where
  balanced : ∀ lines, Enters d p source lines → Regions.Balanced lines
  unjoined : ∀ lines, Enters d p source lines → ∀ line ∈ lines, '\\' ∉ line
  signFree : ∀ lines, Enters d p source lines → ∀ line ∈ lines, SignFree line
  defined : ∀ lines, Enters d p source lines → ∀ line ∈ lines, ∀ e ∈ expansion? line, '#' ∉ e
  predefined : ∀ r ∈ p.predefined, '#' ∉ r.expansion

/-- No directive can be left over by accident: conditions are mentioned only where they are applied,
no expansion begins with the word of a directive, and predefined names are identifiers. -/
structure Hygienic (d : Disk) (p : Preprocessor) (source : Text) : Prop where
  condition : ∀ lines, Enters d p source lines → ∀ line ∈ lines, ∀ w ∈ conditionWords,
    line.code.mentions w = true → Regions.isCondition line.code = true
  defined : ∀ lines, Enters d p source lines → ∀ line ∈ lines, ∀ e ∈ expansion? line,
    ∀ w ∈ bareWords, Text.leads w e = false
  predefined : ∀ r ∈ p.predefined, r.name.isIdent = true ∧
    ∀ w ∈ bareWords, Text.leads w r.expansion = false

/-- A run succeeds, and the files that it has included are those that reading opens. -/
def Agrees (d : Disk) (p : Preprocessor) (file source : Text) (found : Record) : Prop :=
  ∃ q out, p.processText d file source = (q, .ok out) ∧
    ∀ path, listed q.included path = listed found.opened path

/-- The expansion of a stream in which no file is pending. -/
theorem exists_expandLines {p₀ p : Preprocessor} {file : Text} {stream defined : List Text}
    {seen : List (Text × Use)} (halike : p₀.Alike p)
    (hpasses : (FileStack.start file).Passes stream)
    (hseen : survey ⟨[], p₀.defined⟩ stream = some (seen, ⟨[], defined⟩))
    (hpending : pending seen = []) (hmis : ∀ l ∈ seen, l.2 ≠ .misdefines)
    (hpre : ∀ r ∈ p₀.predefined ++ p₀.stored, r.Harmless bareWords)
    (htidy : ∀ line ∈ stream, Marker.ofLine? line = none → Tidy line) :
    ∃ q out, expandLines p file stream = (q, .ok out) ∧ q.included = p.included ∧
      needsPreprocessing out = false := by
  have hview : (Expansion.start p file).reader.view = ⟨[], p₀.defined⟩ :=
    congrArg (View.mk []) halike.defined
  have hpre' : ∀ r ∈ p.predefined ++ p.stored, r.Harmless bareWords := by
    rw [halike.predefined, halike.stored]
    exact hpre
  obtain ⟨t, out, hwalk, hend, hincluded, hout, hclear⟩ :=
    Expansion.exists_walk (s := Expansion.start p file) hpasses (hview ▸ hseen) hpending hmis hpre'
      htidy
  have hregions : t.reader.regions = [] := congrArg View.regions hend
  have hout : t.out.toList = out := hout
  refine ⟨t.pre, out, ?_, hincluded, needsPreprocessing_eq_false hclear⟩
  rw [expandLines, hwalk]
  simp [hregions, hout]

theorem tidy_includeFiller : Tidy includeFiller where
  condition := by decide
  noSign := by decide
  noWord := by decide

theorem continues_of_unjoined {line : Text} (h : '\\' ∉ line) : continues line = false := by
  unfold continues
  rw [beq_eq_false_iff_ne]
  exact fun hlast => h (List.mem_of_getLast? hlast)

section

variable {d : Disk} {p₀ : Preprocessor} {source : Text} {lines paths stream : List Text}
  {found : Record} {depth : Nat}

theorem Regular.tidy (hregular : Regular d p₀ source) (hhygienic : Hygienic d p₀ source)
    (h : Enters d p₀ source lines) : ∀ line ∈ lines, Tidy line := by
  intro line hline
  exact ⟨hhygienic.condition lines h line hline, hregular.defined lines h line hline,
    hhygienic.defined lines h line hline⟩

theorem Grown.splice (hregular : Regular d p₀ source) (h : Grown d p₀ paths lines stream)
    (hlines : Enters d p₀ source lines) : splice stream = stream := by
  refine splice_of_unjoined (h.forall_mem (by decide) (fun m _ => continues_marker m) ?_ ?_)
  · intro name path file hopen line hline
    exact continues_of_unjoined (hregular.unjoined file (Or.inr ⟨name, path, hopen⟩) line hline)
  · intro line hline
    exact continues_of_unjoined (hregular.unjoined lines hlines line hline)

theorem Grown.tidy (hregular : Regular d p₀ source) (hhygienic : Hygienic d p₀ source)
    (h : Grown d p₀ paths lines stream) (hlines : Enters d p₀ source lines) :
    ∀ line ∈ stream, Marker.ofLine? line = none → Tidy line := by
  refine h.forall_mem (fun _ => tidy_includeFiller) (fun m hm hnone => ?_) ?_ ?_
  · rw [hm] at hnone
    simp at hnone
  · intro name path file hopen line hline _
    exact hregular.tidy hhygienic (Or.inr ⟨name, path, hopen⟩) line hline
  · intro line hline _
    exact hregular.tidy hhygienic hlines line hline

theorem Hygienic.harmless (hregular : Regular d p₀ source) (hhygienic : Hygienic d p₀ source) :
    ∀ r ∈ p₀.predefined, r.Harmless bareWords := by
  intro r hr
  obtain ⟨hident, hword⟩ := hhygienic.predefined r hr
  exact ⟨hident, hregular.predefined r hr, hword⟩

/-- **A round that finds no file pending is the last**: its stream is read in order, and its
expansion leaves no directive. -/
theorem exists_rounds_of_settled (hregular : Regular d p₀ source)
    (hhygienic : Hygienic d p₀ source) (hstored : p₀.stored = [])
    (henter : p₀.enter source = .ok lines)
    (hread : readLines (readFile d p₀ depth) [] ⟨p₀.defined, []⟩ lines = some found)
    {file : Text} {left : Nat} {p : Preprocessor} {seen : List (Text × Use)} {w : View}
    (halike : p₀.Alike p) (hgrown : Grown d p₀ p.included lines stream)
    (hlisted : ∀ path, listed p.included path = true → listed found.opened path = true)
    (hseen : survey ⟨[], p₀.defined⟩ stream = some (seen, w)) (hpending : pending seen = []) :
    ∃ q out, Preprocessor.rounds d file (left + 1) p stream = (q, .ok out) ∧
      ∀ path, listed q.included path = listed found.opened path := by
  have hsource : Enters d p₀ source lines := Or.inl henter
  have hpasses := (hgrown.counts [] file 0).1
  obtain ⟨q, hinc, halike', hincluded⟩ :=
    exists_includeLines left halike hpasses hseen (by simp [hpending])
  rw [hpending, widen_of_settled d p₀ hpending, fst_of_survey hseen] at hinc
  rw [takenIn, hpending] at hincluded
  obtain ⟨rfl, hmis, hopened⟩ := hgrown.read_of_settled
    (fun name path file hopen => hregular.balanced file (Or.inr ⟨name, path, hopen⟩))
    (show Regions.active [] = true from rfl) hread hseen hpending
  have hharmless : ∀ r ∈ p₀.predefined ++ p₀.stored, r.Harmless bareWords := by
    rw [hstored, List.append_nil]
    exact hhygienic.harmless hregular
  obtain ⟨q', out, hexpand, hincluded', hneeds⟩ :=
    exists_expandLines halike' hpasses hseen hpending hmis hharmless
      (hgrown.tidy hregular hhygienic hsource)
  have hjoined : expandLines q file (splice stream) = (q', .ok out) := by
    rw [hgrown.splice hregular hsource]
    exact hexpand
  refine ⟨q'.settle left, out, ((rounds_of_expands hinc hjoined).1 hneeds).1, fun path => ?_⟩
  show listed q'.included path = _
  rw [hincluded', hincluded, Bool.eq_iff_iff]
  refine ⟨hlisted path, fun hpath => ?_⟩
  rcases hopened path hpath with hpath | hpath
  · simp [listed_nil] at hpath
  · exact hpath

/-- **Rounds that settle succeed**, and include what reading opens. -/
theorem rounds_of_settles (hregular : Regular d p₀ source) (hhygienic : Hygienic d p₀ source)
    (hstored : p₀.stored = []) (henter : p₀.enter source = .ok lines)
    (hread : readLines (readFile d p₀ depth) [] ⟨p₀.defined, []⟩ lines = some found)
    (file : Text) : ∀ {left : Nat} {p : Preprocessor} {stream : List Text}, p₀.Alike p →
      Grown d p₀ p.included lines stream →
      (∀ path, listed p.included path = true → listed found.opened path = true) →
      settles d p₀ found.opened left stream = true →
      ∃ q out, Preprocessor.rounds d file left p stream = (q, .ok out) ∧
        ∀ path, listed q.included path = listed found.opened path
  | 0, p, stream, _, _, _, h => by simp [settles] at h
  | left + 1, p, stream, halike, hgrown, hlisted, h => by
    rw [settles] at h
    split at h
    · simp at h
    · next seen w hseen =>
      rw [Bool.and_eq_true, Bool.or_eq_true, all_leadsInto] at h
      obtain ⟨⟨hready, htaken⟩, hrest⟩ := h
      by_cases hpending : pending seen = []
      · exact exists_rounds_of_settled hregular hhygienic hstored henter hread halike hgrown hlisted
          hseen hpending
      · -- the files pending are put in, and the next round sees them
        obtain ⟨q, hinc, halike', hincluded⟩ :=
          exists_includeLines left halike (hgrown.counts [] file 0).1 hseen hready
        have hq (path : Text) : listed q.included path =
            (listed p.included path || listed (takenIn d p₀ seen) path) := by
          rw [hincluded, listed_addPaths]
        have hlisted' : ∀ path, listed q.included path = true →
            listed found.opened path = true := by
          intro path hpath
          rw [hq, Bool.or_eq_true] at hpath
          exact hpath.elim (hlisted path) (htaken path)
        have hgrown' : Grown d p₀ q.included lines (widen d p₀ seen) := by
          refine hgrown.widen (fun name path file hopen line hline => ?_)
            (fun path hpath => by rw [hq, hpath, Bool.true_or]) hseen
            fun path hpath => by rw [hq, hpath, Bool.or_true]
          exact (hregular.signFree file (Or.inr ⟨name, path, hopen⟩) line hline).unmarked
        have hcount : (pending seen).length ≠ 0 := by simpa using hpending
        rw [(rounds_of_puts hinc hcount).1]
        exact rounds_of_settles hregular hhygienic hstored henter hread file halike' hgrown'
          hlisted' (hrest.resolve_left (by simpa using hpending))

/-- **When rounds agree with reading in order.** Take a source that can be read in order. If the
rounds succeed with the files that reading opens, then they settle: no round is misled into a file
that reading does not open, and one within the limit finds no file pending. Where no directive can
be left over by accident, this is enough. -/
theorem agrees_iff_settles {settings : Settings} {file : Text}
    (hregular : Regular d (.start settings) source)
    (hread : readSource d (.start settings) source = some found) :
    (Agrees d (.start settings) file source found →
      settlesText d (.start settings) found.opened source = true) ∧
    (Hygienic d (.start settings) source →
      settlesText d (.start settings) found.opened source = true →
      Agrees d (.start settings) file source found) := by
  unfold readSource at hread
  unfold Agrees settlesText Preprocessor.processText
  cases henter : (Preprocessor.start settings).enter source with
  | error f =>
    rw [henter] at hread
    simp at hread
  | ok lines =>
    rw [henter] at hread
    constructor
    · rintro ⟨q, out, hrun, hincluded⟩
      exact settles_of_rounds (.refl _) hrun fun path hpath => by rwa [← hincluded]
    · intro hhygienic hsettles
      have hgrown : Grown d (.start settings) (Preprocessor.start settings).included lines lines :=
        .refl fun line hline => (hregular.signFree lines (Or.inl henter) line hline).unmarked
      exact rounds_of_settles hregular hhygienic rfl henter hread file (.refl _) hgrown
        (fun path hpath => by simp [Preprocessor.start, listed_nil] at hpath) hsettles

end

/-! ### Two disks -/

/-- What `Regular` and `Hygienic` ask of the lines of a file. -/
def Fit (lines : List Text) : Prop :=
  Regions.Balanced lines ∧ ∀ line ∈ lines, '\\' ∉ line ∧ markerSign ∉ line ∧
    (∀ e ∈ expansion? line, '#' ∉ e ∧ ∀ w ∈ bareWords, Text.leads w e = false) ∧
    ∀ w ∈ conditionWords, line.code.mentions w = true → Regions.isCondition line.code = true

instance (lines : List Text) : Decidable (Fit lines) := by
  unfold Fit
  infer_instance

/-- Nothing is predefined, and the source and every file on the disk are fit. -/
def fits (d : Disk) (p : Preprocessor) (source : Text) : Bool :=
  let fit (text : Text) : Bool :=
    match p.enter text with
    | .error _ => true
    | .ok lines => decide (Fit lines)
  p.predefined.isEmpty && fit source && d.nodes.all fun n =>
    match n.2 with
    | .file bytes => fit (Text.decodeLossy bytes)
    | .directory => true

theorem regular_of_fits {d : Disk} {p : Preprocessor} {source : Text}
    (h : fits d p source = true) : Regular d p source ∧ Hygienic d p source := by
  simp only [fits, Bool.and_eq_true, List.isEmpty_iff, List.all_eq_true] at h
  obtain ⟨⟨hpredefined, hsource⟩, hdisk⟩ := h
  have hfit : ∀ lines, Enters d p source lines → Fit lines := by
    rintro lines (henter | ⟨name, path, hopen⟩)
    · rw [henter] at hsource
      simpa using hsource
    · obtain ⟨text, hfind, henter⟩ := Preprocessor.open?_eq_some.mp hopen
      obtain ⟨l, bytes, hmem, rfl⟩ := Disk.mem_of_readText (Preprocessor.find?_ok hfind)
      have hfile := hdisk _ hmem
      simp only [henter] at hfile
      simpa using hfile
  constructor
  · exact {
      balanced := fun lines h => (hfit lines h).1
      unjoined := fun lines h line hline => ((hfit lines h).2 line hline).1
      signFree := fun lines h line hline => ((hfit lines h).2 line hline).2.1
      defined := fun lines h line hline e he => (((hfit lines h).2 line hline).2.2.1 e he).1
      predefined := by simp [hpredefined] }
  · exact {
      condition := fun lines h line hline => ((hfit lines h).2 line hline).2.2.2
      defined := fun lines h line hline e he => (((hfit lines h).2 line hline).2.2.1 e he).2
      predefined := by simp [hpredefined] }

/-- A disk with two files, one of which includes the other unless it was read before. -/
def nestedDisk : Disk :=
  (Disk.empty.learn "a.inc".toList
    (.file "#ifndef A\n#define A\n#include <b.inc>\n#endif\n".toUTF8.toList)).learn
    "b.inc".toList (.file "mov a,#01\n".toUTF8.toList)

/-- A source that includes the first file twice. -/
def nestedSource : Text :=
  "#define FAST\n#ifdef FAST\n#include <a.inc>\n#endif\n#include <a.inc>\n".toList

theorem agrees_nested :
    Agrees nestedDisk (.start {}) "main.asm".toList nestedSource
      ⟨["A".toList, "FAST".toList], ["./a.inc".toList, "./b.inc".toList, "./a.inc".toList]⟩ := by
  have hfits : fits nestedDisk (.start {}) nestedSource = true := by decide +kernel
  have hread : readSource nestedDisk (.start {}) nestedSource =
      some ⟨["A".toList, "FAST".toList],
        ["./a.inc".toList, "./b.inc".toList, "./a.inc".toList]⟩ := by
    decide +kernel
  obtain ⟨hregular, hhygienic⟩ := regular_of_fits hfits
  exact (agrees_iff_settles hregular hread).2 hhygienic (by decide +kernel)

/-- A disk with one file, which defines a name. -/
def guardDisk : Disk := Disk.empty.learn "a.inc".toList (.file "#define X\n".toUTF8.toList)

/-- A source that includes the file, and another one unless the name is defined. -/
def guardSource : Text := "#include <a.inc>\n#ifndef X\n#include <c.inc>\n#endif\n".toList

/-- Reading in order never gets to the other file, but the first round looks for it. -/
theorem not_agrees_guard :
    Regular guardDisk (.start {}) guardSource ∧ Hygienic guardDisk (.start {}) guardSource ∧
      readSource guardDisk (.start {}) guardSource =
        some ⟨["X".toList], ["./a.inc".toList]⟩ ∧
      ((Preprocessor.start {}).processText guardDisk "main.asm".toList guardSource).2 =
        .error (.error ⟨.cannotFind "c.inc".toList, some ⟨"main.asm".toList, 3⟩⟩) ∧
      ¬ Agrees guardDisk (.start {}) "main.asm".toList guardSource
        ⟨["X".toList], ["./a.inc".toList]⟩ := by
  have hfits : fits guardDisk (.start {}) guardSource = true := by decide +kernel
  have hrun : ((Preprocessor.start {}).processText guardDisk "main.asm".toList guardSource).2 =
      .error (.error ⟨.cannotFind "c.inc".toList, some ⟨"main.asm".toList, 3⟩⟩) := by
    decide +kernel
  obtain ⟨hregular, hhygienic⟩ := regular_of_fits hfits
  refine ⟨hregular, hhygienic, by decide +kernel, hrun, ?_⟩
  rintro ⟨q, out, hok, -⟩
  rw [hok] at hrun
  simp at hrun

end Mcs51.Source
