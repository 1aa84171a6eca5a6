import Mathlib.Data.ENat.Lattice
import Mathlib.Data.List.Chain
import Mathlib.Data.List.Perm.Subperm
import Mathlib.Logic.Relation
import Mathlib.Order.CompletePartialOrder
import Mcs51.Proofs.Source.Region
import Mcs51.Proofs.Source.Rounds
import Mcs51.Proofs.Source.Sign

/-! # Rounds flatten a source

Where no line depends on a condition, what a line includes is a matter of the line alone, and the
files that a source includes form a tree. `Flattens` puts all of them in by going down the tree,
file by file. The rounds do it level by level: after `n` rounds the files of the first `n` levels
are in place (`flattenTo`), and their paths have been taken down level by level (`pathsAt`).

`nesting` is the depth of the tree. With fewer levels than rounds, the round after the last level is
the first to expand lines, and it expands the flattened source; otherwise all rounds are spent on
putting files in (`rounds_flatten`). The depth is infinite just if some file includes itself
(`nesting_eq_top_iff`). -/

namespace Mcs51.Source

/-! ### The files of a source -/

/-- A file that a line includes: its name on the line, the path it is found at, and its lines as
they enter a stream. -/
structure IncludedFile where
  name : Text
  path : Text
  lines : List Text
deriving DecidableEq, Repr

section

variable (d : Disk) (p : Preprocessor)

/-- The file that a line includes. -/
def includedFile? (line : Text) : Option IncludedFile :=
  match Use.ofCode line.code with
  | .includes (some name) => (p.open? d name).map fun f => ⟨name, f.1, f.2⟩
  | _ => none

/-- The lines that a line stands for, given what the lines of a file stand for. -/
def unfoldLine (inner : List Text → List Text) (line : Text) : List Text :=
  match includedFile? d p line with
  | none => [line]
  | some f => Inclusion.block f.name (inner f.lines)

/-- The lines with the files of so many levels put in. -/
def flattenTo : Nat → List Text → List Text
  | 0, lines => lines
  | n + 1, lines => lines.flatMap (unfoldLine d p (flattenTo n))

/-- The paths of the files on a level, in order. -/
def pathsAt : Nat → List Text → List Text
  | 0, lines => lines.flatMap fun line => (includedFile? d p line).toList.map (·.path)
  | n + 1, lines => lines.flatMap fun line =>
    (includedFile? d p line).toList.flatMap fun f => pathsAt n f.lines

/-- Files nest at least so deep in the lines. -/
def nests : Nat → List Text → Bool
  | 0, _ => true
  | n + 1, lines => lines.any fun line => (includedFile? d p line).any fun f => nests n f.lines

/-- How deep files nest in the lines. -/
noncomputable def nesting (lines : List Text) : ℕ∞ :=
  ⨆ n : { n : ℕ // nests d p n lines = true }, (n.1 : ℕ∞)

/-- A line of the first file includes the second. Files are given by their lines. -/
def Includes (lines file : List Text) : Prop :=
  ∃ line ∈ lines, ∃ f, includedFile? d p line = some f ∧ f.lines = file

/-- The file is the source itself, or included by it directly or indirectly. -/
def Reached (source file : List Text) : Prop := Relation.ReflTransGen (Includes d p) source file

/-- **The flattened source**: every line that includes a file is replaced by a filler and, between
markers, the flattened file. -/
inductive Flattens : List Text → List Text → Prop
  | nil : Flattens [] []
  | keep {line : Text} {lines flat : List Text} (other : includedFile? d p line = none)
      (rest : Flattens lines flat) : Flattens (line :: lines) (line :: flat)
  | file {line : Text} {lines flat inner : List Text} {f : IncludedFile}
      (includes : includedFile? d p line = some f) (file : Flattens f.lines inner)
      (rest : Flattens lines flat) :
      Flattens (line :: lines) (Inclusion.block f.name inner ++ flat)

/-- What is asked of a source and of every file that it includes, directly or indirectly: no line is
a condition or starts like a marker, and every file that a line includes can be put in. -/
structure Includable (source : List Text) : Prop where
  unconditional : ∀ file, Reached d p source file → ∀ line ∈ file,
    Regions.isCondition line.code = false
  unmarked : ∀ file, Reached d p source file → ∀ line ∈ file, line.head? ≠ some markerSign
  found : ∀ file, Reached d p source file → ∀ line ∈ file, ∀ name?,
    Use.ofCode line.code = .includes name? → Ready d p name?

end

variable {d : Disk} {p : Preprocessor} {lines file : List Text}

theorem includedFile?_eq_some {line : Text} {f : IncludedFile} :
    includedFile? d p line = some f ↔
      Use.ofCode line.code = .includes (some f.name) ∧
        p.open? d f.name = some (f.path, f.lines) := by
  unfold includedFile?
  constructor
  · intro h
    split at h
    · next name huse =>
      obtain ⟨⟨path, lines⟩, hopen, rfl⟩ := Option.map_eq_some_iff.mp h
      exact ⟨huse, hopen⟩
    · simp at h
  · rintro ⟨huse, hopen⟩
    rw [huse]
    simp [hopen]

theorem Includable.of_includes {source : List Text} (h : Includable d p source)
    (hfile : Includes d p source file) : Includable d p file where
  unconditional lines hlines := h.unconditional lines (.head hfile hlines)
  unmarked lines hlines := h.unmarked lines (.head hfile hlines)
  found lines hlines := h.found lines (.head hfile hlines)

/-- The name of a file that is included is one field. -/
theorem name_of_includedFile? {line : Text} {f : IncludedFile}
    (h : includedFile? d p line = some f) :
    f.name ≠ [] ∧ ∀ c ∈ f.name, Text.isBlank c = false :=
  includedName?_ok (Use.includes_of_ofCode (includedFile?_eq_some.mp h).1)

/-! ### Streams without conditions -/

/-- What a line of a stream without conditions says. -/
def useOf (line : Text) : Use :=
  if (Marker.ofLine? line).isSome then .idle else .ofCode line.code

/-- Every line of a stream without conditions, with what it says. -/
def tagged (stream : List Text) : List (Text × Use) := stream.map fun line => (line, useOf line)

theorem tagged_append (a b : List Text) : tagged (a ++ b) = tagged a ++ tagged b :=
  List.map_append

theorem useOf_of_unmarked {line : Text} (h : Marker.ofLine? line = none) :
    useOf line = .ofCode line.code := by
  simp [useOf, h]

theorem useOf_marker {m : Marker} (hn : m.name ≠ []) (hb : ∀ c ∈ m.name, Text.isBlank c = false) :
    useOf m.line = .idle := by
  simp [useOf, Marker.ofLine?_line hn hb]

theorem useOf_includeFiller : useOf includeFiller = .plain := by decide

/-- **A stream without conditions** is seen line by line. -/
theorem survey_tagged : ∀ (stream defined : List Text),
    (∀ line ∈ stream, Marker.ofLine? line = none → Regions.isCondition line.code = false) →
      ∃ more, survey ⟨[], defined⟩ stream = some (tagged stream, ⟨[], more⟩)
  | [], defined, _ => ⟨defined, rfl⟩
  | line :: stream, defined, h => by
    have hstep : ∃ more, View.step ⟨[], defined⟩ line = some (⟨[], more⟩, useOf line) := by
      cases hm : Marker.ofLine? line with
      | some m =>
        refine ⟨defined, ?_⟩
        rw [View.step_of_marker hm]
        simp [useOf, hm]
      | none =>
        have hdirective : Regions.directive [] defined line.code = .ok none :=
          Regions.directive_eq_none.mpr (h line (by simp) hm)
        rw [useOf_of_unmarked hm, View.step, View.role_of_unmarked hm, hdirective]
        refine ⟨(View.after ⟨[], defined⟩ (.ofCode line.code)).defined, ?_⟩
        cases Use.ofCode line.code <;> rfl
    obtain ⟨more, hmore⟩ := hstep
    obtain ⟨last, hlast⟩ := survey_tagged stream more fun l hl => h l (by simp [hl])
    exact ⟨last, survey_cons.mpr ⟨_, _, _, hmore, hlast, rfl⟩⟩

/-- What a line is replaced by. -/
theorem written_ofCode (line : Text) :
    written d p (line, .ofCode line.code) = unfoldLine d p id line := by
  unfold written unfoldLine includedFile?
  cases Use.ofCode line.code with
  | includes name? =>
    cases name? with
    | none => rfl
    | some name => cases hopen : p.open? d name <;> simp [hopen]
  | _ => rfl

theorem takenIn_ofCode (line : Text) :
    takenIn d p [(line, .ofCode line.code)] =
      (includedFile? d p line).toList.map IncludedFile.path := by
  unfold takenIn pending includedFile?
  cases Use.ofCode line.code with
  | includes name? =>
    cases name? with
    | none => rfl
    | some name => cases hopen : p.open? d name <;> simp [Use.included?, hopen]
  | _ => rfl

section Block

variable {name : Text} {inner : List Text}
  (hname : name ≠ [] ∧ ∀ c ∈ name, Text.isBlank c = false)
include hname

theorem tagged_block : tagged (Inclusion.block name inner) =
    (includeFiller, .plain) :: ((Marker.enter name).line, .idle) ::
      (tagged inner ++ [((Marker.leave name).line, .idle)]) := by
  have henter : useOf (Marker.enter name).line = .idle := useOf_marker hname.1 hname.2
  have hleave : useOf (Marker.leave name).line = .idle := useOf_marker hname.1 hname.2
  simp [tagged, Inclusion.block, useOf_includeFiller, henter, hleave]

/-- Files are put into a file where it stands. -/
theorem widen_block : widen d p (tagged (Inclusion.block name inner)) =
    Inclusion.block name (widen d p (tagged inner)) := by
  rw [tagged_block hname, widen_cons, widen_cons, widen_append, widen_cons]
  simp [widen, written, Inclusion.block]

theorem takenIn_block : takenIn d p (tagged (Inclusion.block name inner)) =
    takenIn d p (tagged inner) := by
  rw [tagged_block hname, takenIn_cons_of_other d p _ rfl, takenIn_cons_of_other d p _ rfl,
    takenIn_append, takenIn_cons_of_other d p _ rfl]
  simp [takenIn, pending]

end Block

theorem widen_flatMap (g : Text → List Text) : ∀ lines : List Text,
    widen d p (tagged (lines.flatMap g)) = lines.flatMap fun line => widen d p (tagged (g line))
  | [] => rfl
  | line :: lines => by
    rw [List.flatMap_cons, List.flatMap_cons, tagged_append, widen_append, widen_flatMap g lines]

theorem takenIn_flatMap (g : Text → List Text) : ∀ lines : List Text,
    takenIn d p (tagged (lines.flatMap g)) =
      lines.flatMap fun line => takenIn d p (tagged (g line))
  | [] => rfl
  | line :: lines => by
    rw [List.flatMap_cons, List.flatMap_cons, tagged_append, takenIn_append,
      takenIn_flatMap g lines]

/-! ### Levels -/

namespace Includable

variable {source : List Text} (h : Includable d p source)
include h

theorem unmarked_line {line : Text} (hline : line ∈ source) : Marker.ofLine? line = none := by
  exact unmarked_of_head (h.unmarked source .refl line hline)

theorem of_line {line : Text} {f : IncludedFile} (hline : line ∈ source)
    (hf : includedFile? d p line = some f) : Includable d p f.lines :=
  h.of_includes ⟨line, hline, f, hf, rfl⟩

/-- What a round puts in place of a line of a file. -/
theorem widen_line {line : Text} (hline : line ∈ source) :
    widen d p (tagged [line]) = unfoldLine d p id line := by
  have huse := useOf_of_unmarked (h.unmarked_line hline)
  rw [← written_ofCode, ← huse]
  simp [widen, tagged]

theorem takenIn_line {line : Text} (hline : line ∈ source) :
    takenIn d p (tagged [line]) = (includedFile? d p line).toList.map IncludedFile.path := by
  have huse := useOf_of_unmarked (h.unmarked_line hline)
  rw [← takenIn_ofCode, ← huse]
  simp [tagged]

end Includable

/-- **One more level**: a round puts in the files of the next level. -/
theorem widen_flattenTo : ∀ (n : Nat) {lines : List Text}, Includable d p lines →
    widen d p (tagged (flattenTo d p n lines)) = flattenTo d p (n + 1) lines
  | 0, lines, h => by
    have hone : widen d p (tagged (lines.flatMap fun line => [line])) =
        flattenTo d p 1 lines := by
      rw [widen_flatMap]
      exact List.flatMap_congr fun line hline => h.widen_line hline
    simpa [flattenTo] using hone
  | n + 1, lines, h => by
    rw [flattenTo, widen_flatMap]
    refine List.flatMap_congr fun line hline => ?_
    unfold unfoldLine
    cases hf : includedFile? d p line with
    | none =>
      have hline := h.widen_line hline
      rw [unfoldLine, hf] at hline
      exact hline
    | some f =>
      have hinner := widen_flattenTo n (h.of_line hline hf)
      simp only [widen_block (name_of_includedFile? hf), hinner]

/-- The files that a round puts in are those of the next level. -/
theorem takenIn_flattenTo : ∀ (n : Nat) {lines : List Text}, Includable d p lines →
    takenIn d p (tagged (flattenTo d p n lines)) = pathsAt d p n lines
  | 0, lines, h => by
    have hone : takenIn d p (tagged (lines.flatMap fun line => [line])) =
        pathsAt d p 0 lines := by
      rw [takenIn_flatMap]
      exact List.flatMap_congr fun line hline => h.takenIn_line hline
    simpa [flattenTo] using hone
  | n + 1, lines, h => by
    rw [flattenTo, takenIn_flatMap]
    refine List.flatMap_congr fun line hline => ?_
    unfold unfoldLine
    cases hf : includedFile? d p line with
    | none =>
      have hline := h.takenIn_line hline
      rw [hf] at hline
      exact hline
    | some f =>
      have hinner := takenIn_flattenTo n (h.of_line hline hf)
      simp [takenIn_block (name_of_includedFile? hf), hinner]

/-- What holds of fillers, of markers and of the lines of all files holds of every level. -/
theorem forall_flattenTo {P : Text → Prop} (hfiller : P includeFiller)
    (hmarker : ∀ m : Marker, Marker.ofLine? m.line = some m → P m.line) :
    ∀ (n : Nat) {lines : List Text},
      (∀ file, Reached d p lines file → ∀ line ∈ file, P line) →
      ∀ line ∈ flattenTo d p n lines, P line
  | 0, lines, hfiles => hfiles lines .refl
  | n + 1, lines, hfiles => by
    intro line hline
    obtain ⟨l, hl, hline⟩ := List.mem_flatMap.mp hline
    unfold unfoldLine at hline
    split at hline
    · rw [List.mem_singleton.mp hline]
      exact hfiles lines .refl l hl
    · next f hf =>
      obtain ⟨hne, hblank⟩ := name_of_includedFile? hf
      rw [Inclusion.block, List.mem_cons, List.mem_cons, List.mem_append,
        List.mem_singleton] at hline
      rcases hline with rfl | rfl | hline | rfl
      · exact hfiller
      · exact hmarker _ (Marker.ofLine?_line hne hblank)
      · refine forall_flattenTo hfiller hmarker n (fun file hfile => ?_) line hline
        exact hfiles file (.head ⟨l, hl, f, hf, rfl⟩ hfile)
      · exact hmarker _ (Marker.ofLine?_line hne hblank)

theorem counts_flatMap {g : Text → List Text} : ∀ {lines : List Text},
    (∀ line ∈ lines, FileStack.Counts 1 (g line)) →
      FileStack.Counts lines.length (lines.flatMap g)
  | [], _ => FileStack.counts_nil
  | line :: lines, h => by
    have hrest : FileStack.Counts lines.length (lines.flatMap g) :=
      counts_flatMap fun l hl => h l (by simp [hl])
    rw [List.flatMap_cons, List.length_cons, Nat.add_comm]
    exact (h line (by simp)).append hrest

/-- The file stack gets past every level. -/
theorem counts_flattenTo : ∀ (n : Nat) {lines : List Text}, Includable d p lines →
    FileStack.Counts lines.length (flattenTo d p n lines)
  | 0, lines, h => by
    have hone : FileStack.Counts lines.length (lines.flatMap fun line => [line]) :=
      counts_flatMap fun line hline => FileStack.counts_line (h.unmarked_line hline)
    simpa [flattenTo] using hone
  | n + 1, lines, h => by
    rw [flattenTo]
    refine counts_flatMap fun line hline => ?_
    unfold unfoldLine
    cases hf : includedFile? d p line with
    | none => exact FileStack.counts_line (h.unmarked_line hline)
    | some f =>
      have hinner := counts_flattenTo n (h.of_line hline hf)
      exact Inclusion.counts_block (name_of_includedFile? hf) hinner

/-! ### Depth -/

theorem nests_succ_iff {n : Nat} : nests d p (n + 1) lines = true ↔
    ∃ file, Includes d p lines file ∧ nests d p n file = true := by
  simp only [nests, List.any_eq_true, Option.any_eq_true]
  constructor
  · rintro ⟨line, hline, f, hf, hn⟩
    exact ⟨f.lines, ⟨line, hline, f, hf, rfl⟩, hn⟩
  · rintro ⟨file, ⟨line, hline, f, hf, rfl⟩, hn⟩
    exact ⟨line, hline, f, hf, hn⟩

theorem nests_of_succ : ∀ {n : Nat} {lines : List Text},
    nests d p (n + 1) lines = true → nests d p n lines = true
  | 0, _, _ => rfl
  | n + 1, lines, h => by
    obtain ⟨file, hfile, hn⟩ := nests_succ_iff.mp h
    exact nests_succ_iff.mpr ⟨file, hfile, nests_of_succ hn⟩

theorem nests_of_le {m n : Nat} (hle : m ≤ n) (h : nests d p n lines = true) :
    nests d p m lines = true := by
  induction n with
  | zero =>
    obtain rfl : m = 0 := by omega
    exact h
  | succ n ih =>
    by_cases hm : m = n + 1
    · rw [hm]
      exact h
    · exact ih (by omega) (nests_of_succ h)

theorem le_nesting_iff {n : Nat} : (n : ℕ∞) ≤ nesting d p lines ↔ nests d p n lines = true := by
  constructor
  · intro hle
    by_contra hn
    have hpos : n ≠ 0 := by
      rintro rfl
      exact hn rfl
    -- everything that nests is less deep than `n`
    have hbound : nesting d p lines ≤ ((n - 1 : ℕ) : ℕ∞) := by
      refine iSup_le fun m => ?_
      have hm : m.1 ≤ n - 1 := by
        by_contra hlt
        exact hn (nests_of_le (by omega) m.2)
      exact_mod_cast hm
    have hle : n ≤ n - 1 := by exact_mod_cast hle.trans hbound
    omega
  · intro hn
    exact le_iSup (fun m : { m : ℕ // nests d p m lines = true } => (m.1 : ℕ∞)) ⟨n, hn⟩

theorem nesting_eq_iff {n : Nat} : nesting d p lines = n ↔
    nests d p n lines = true ∧ nests d p (n + 1) lines = false := by
  rw [← Bool.not_eq_true, ← le_nesting_iff, ← le_nesting_iff]
  constructor
  · intro h
    rw [h]
    exact ⟨le_rfl, by norm_cast; omega⟩
  · rintro ⟨hle, hlt⟩
    refine le_antisymm ?_ hle
    have hlt : nesting d p lines < ((n + 1 : ℕ) : ℕ∞) := lt_of_not_ge hlt
    exact Order.le_of_lt_add_one (by exact_mod_cast hlt)

/-- Files are on a level just if files nest deeper than it. -/
theorem pathsAt_eq_nil_iff : ∀ {n : Nat} {lines : List Text},
    pathsAt d p n lines = [] ↔ nests d p (n + 1) lines = false
  | 0, lines => by
    simp only [pathsAt, nests, List.flatMap_eq_nil_iff, List.map_eq_nil_iff, List.any_eq_false]
    refine forall₂_congr fun line _ => ?_
    cases includedFile? d p line <;> simp
  | n + 1, lines => by
    have ih (f : IncludedFile) : pathsAt d p n f.lines = [] ↔ nests d p (n + 1) f.lines = false :=
      pathsAt_eq_nil_iff
    rw [pathsAt, nests]
    simp only [List.flatMap_eq_nil_iff, List.any_eq_false]
    refine forall₂_congr fun line _ => ?_
    cases includedFile? d p line with
    | none => simp
    | some f => simpa using ih f

/-- Below the last level the source is flattened. -/
theorem flattens_flattenTo : ∀ (n : Nat) {lines : List Text},
    nests d p n lines = false → Flattens d p lines (flattenTo d p n lines)
  | 0, lines, h => by simp [nests] at h
  | n + 1, lines, h => by
    have hlines : ∀ line ∈ lines, ∀ f, includedFile? d p line = some f →
        nests d p n f.lines = false := by
      intro line hline f hf
      by_contra hn
      have hdeep : nests d p (n + 1) lines = true :=
        nests_succ_iff.mpr ⟨f.lines, ⟨line, hline, f, hf, rfl⟩, by simpa using hn⟩
      rw [h] at hdeep
      simp at hdeep
    rw [flattenTo]
    clear h
    induction lines with
    | nil => exact .nil
    | cons line lines ih =>
      have hrest := ih fun l hl => hlines l (by simp [hl])
      rw [List.flatMap_cons, unfoldLine]
      cases hf : includedFile? d p line with
      | none => exact .keep hf hrest
      | some f => exact .file hf (flattens_flattenTo n (hlines line (by simp) f hf)) hrest

/-! ### Cycles -/

theorem nests_of_transGen {n : Nat} (h : Relation.TransGen (Includes d p) lines file)
    (hn : nests d p n file = true) : nests d p (n + 1) lines = true := by
  induction h using Relation.TransGen.head_induction_on with
  | single hab => exact nests_succ_iff.mpr ⟨_, hab, hn⟩
  | head hab _ ih => exact nests_succ_iff.mpr ⟨_, hab, nests_of_succ ih⟩

theorem exists_chain : ∀ {n : Nat} {lines : List Text}, nests d p n lines = true →
    ∃ chain : List (List Text), chain.length = n ∧ (lines :: chain).IsChain (Includes d p)
  | 0, lines, _ => ⟨[], rfl, .singleton lines⟩
  | n + 1, lines, h => by
    obtain ⟨file, hfile, hn⟩ := nests_succ_iff.mp h
    obtain ⟨chain, hlength, hchain⟩ := exists_chain hn
    exact ⟨file :: chain, by rw [List.length_cons, hlength], .cons_cons hfile hchain⟩

/-- The lines of all files on the disk, as they enter a stream. -/
def filesOn (d : Disk) (p : Preprocessor) : List (List Text) :=
  d.texts.filterMap fun text => (p.enter text).toOption

theorem mem_filesOn {name path : Text} (h : p.open? d name = some (path, file)) :
    file ∈ filesOn d p := by
  obtain ⟨text, hfind, henter⟩ := Preprocessor.open?_eq_some.mp h
  have htext := Disk.mem_texts (Preprocessor.find?_ok hfind)
  exact List.mem_filterMap.mpr ⟨text, htext, by simp [henter, Except.toOption]⟩

theorem Includes.mem_filesOn (h : Includes d p lines file) : file ∈ filesOn d p := by
  obtain ⟨line, -, f, hf, rfl⟩ := h
  exact Source.mem_filesOn (includedFile?_eq_some.mp hf).2

/-- **The depth is infinite just if some file includes itself**, directly or indirectly: a chain
longer than there are files on the disk comes back to one of them. -/
theorem nesting_eq_top_iff : nesting d p lines = ⊤ ↔
    ∃ file, Reached d p lines file ∧ Relation.TransGen (Includes d p) file file := by
  rw [ENat.eq_top_iff_forall_ge]
  simp only [le_nesting_iff]
  constructor
  · intro hdeep
    by_contra hnone
    obtain ⟨chain, hlength, hchain⟩ := exists_chain (hdeep ((filesOn d p).length + 1))
    have hpairs := (hchain.imp fun _ _ h => Relation.TransGen.single h).pairwise
    obtain ⟨hreached, hpairs⟩ := List.pairwise_cons.mp hpairs
    have hnodup : chain.Nodup := by
      refine hpairs.imp_of_mem ?_
      rintro a b ha - hab rfl
      exact hnone ⟨a, (hreached a ha).to_reflTransGen, hab⟩
    have hsub : chain ⊆ filesOn d p := by
      intro a ha
      obtain ⟨b, -, hab⟩ := Relation.TransGen.tail'_iff.mp (hreached a ha)
      exact hab.mem_filesOn
    have hle := (List.subperm_of_subset hnodup hsub).length_le
    omega
  · rintro ⟨file, hreached, hcycle⟩ n
    have hall : ∀ n, nests d p n file = true := by
      intro n
      induction n with
      | zero => rfl
      | succ n ih => exact nests_of_transGen hcycle ih
    rcases Relation.reflTransGen_iff_eq_or_transGen.mp hreached with rfl | htrans
    · exact hall n
    · exact nests_of_succ (nests_of_transGen htrans (hall n))

/-! ### Rounds -/

theorem Includable.ready (h : Includable d p lines) (n : Nat) :
    ∀ name? ∈ pending (tagged (flattenTo d p n lines)), Ready d p name? := by
  have hline : ∀ line ∈ flattenTo d p n lines, ∀ name?, useOf line = .includes name? →
      Ready d p name? := by
    refine forall_flattenTo ?_ ?_ n fun file hfile line hline name? hname => ?_
    · rw [useOf_includeFiller]
      simp
    · intro m hm name? hname
      simp [useOf, hm] at hname
    · rw [useOf_of_unmarked (unmarked_of_head (h.unmarked file hfile line hline))] at hname
      exact h.found file hfile line hline name? hname
  intro name? hname
  obtain ⟨line, hmem⟩ := mem_pending hname
  obtain ⟨l, hl, heq⟩ := List.mem_map.mp hmem
  obtain ⟨rfl, huse⟩ := Prod.mk.inj heq
  exact hline l hl name? huse

/-- **One round** takes the stream from one level to the next. -/
theorem exists_includeLevel {q : Preprocessor} (h : Includable d p lines) (halike : p.Alike q)
    (main : Text) (left n : Nat) :
    ∃ r, includeLines d (q.announce left) main (flattenTo d p n lines) =
        (r, .ok (flattenTo d p (n + 1) lines, (pathsAt d p n lines).length)) ∧ p.Alike r ∧
      r.included = (pathsAt d p n lines).foldl addPath q.included := by
  have hstream : ∀ line ∈ flattenTo d p n lines, Marker.ofLine? line = none →
      Regions.isCondition line.code = false := by
    refine forall_flattenTo (fun _ => by decide) (fun m hm hnone => ?_) n
      fun file hfile line hline _ => h.unconditional file hfile line hline
    rw [hm] at hnone
    simp at hnone
  obtain ⟨more, hsurvey⟩ := survey_tagged _ p.defined hstream
  have hpasses := (counts_flattenTo n h [] main 0).1
  obtain ⟨r, hinc, hr, hincluded⟩ := exists_includeLines left halike hpasses hsurvey (h.ready n)
  rw [widen_flattenTo n h, ← length_takenIn (h.ready n), takenIn_flattenTo n h] at hinc
  rw [takenIn_flattenTo n h] at hincluded
  exact ⟨r, hinc, hr, hincluded⟩

/-- The paths of so many levels from one on, level by level. -/
def pathsFrom (d : Disk) (p : Preprocessor) (n m : Nat) (lines : List Text) : List Text :=
  (List.range' n m).flatMap fun k => pathsAt d p k lines

theorem pathsFrom_succ (n m : Nat) (lines : List Text) :
    pathsFrom d p n (m + 1) lines = pathsAt d p n lines ++ pathsFrom d p (n + 1) m lines := by
  rw [pathsFrom, List.range'_succ, List.flatMap_cons]
  rfl

/-- **Rounds down to the last level.** Where `m` levels are left below level `n`, so many rounds put
their files in, and the next one finds nothing to put in. -/
theorem exists_lastLevel (h : Includable d p lines) (main : Text) : ∀ {m n : Nat} (left : Nat)
    {q : Preprocessor}, p.Alike q → nests d p (n + m) lines = true →
      nests d p (n + m + 1) lines = false →
      ∃ spent last r,
        roundsOf d main (left + m + 1) q (flattenTo d p n lines) =
          spent ++ roundsOf d main (left + 1) last (flattenTo d p (n + m) lines) ∧
        spent.length = m ∧ (∀ s ∈ spent, s.PutsIn d main) ∧
        Preprocessor.rounds d main (left + m + 1) q (flattenTo d p n lines) =
          Preprocessor.rounds d main (left + 1) last (flattenTo d p (n + m) lines) ∧
        includeLines d (last.announce left) main (flattenTo d p (n + m) lines) =
          (r, .ok (flattenTo d p (n + m + 1) lines, 0)) ∧
        p.Alike r ∧ r.included = (pathsFrom d p n m lines).foldl addPath q.included
  | 0, n, left, q, halike, _, hlast => by
    obtain ⟨r, hinc, hr, hincluded⟩ := exists_includeLevel h halike main left n
    rw [pathsAt_eq_nil_iff.mpr hlast] at hinc hincluded
    exact ⟨[], q, r, rfl, rfl, by simp, rfl, hinc, hr, hincluded⟩
  | m + 1, n, left, q, halike, hdeep, hlast => by
    obtain ⟨r, hinc, hr, hincluded⟩ := exists_includeLevel h halike main (left + m + 1) n
    have hfiles : (pathsAt d p n lines).length ≠ 0 := by
      rw [ne_eq, List.length_eq_zero_iff, pathsAt_eq_nil_iff, Bool.not_eq_false]
      exact nests_of_le (by omega) hdeep
    obtain ⟨hrounds, hlist⟩ := rounds_of_puts hinc hfiles
    have hn : n + (m + 1) = n + 1 + m := by omega
    rw [hn] at hdeep hlast ⊢
    obtain ⟨spent, last, r', hlist', hlength, hputs, hrounds', hinc', hr', hincluded'⟩ :=
      exists_lastLevel h main left hr hdeep hlast
    refine ⟨⟨left + m + 1, q, flattenTo d p n lines⟩ :: spent, last, r', ?_, ?_, ?_, ?_, hinc', hr',
      ?_⟩
    · rw [← Nat.add_assoc, hlist, hlist', List.cons_append]
    · rw [List.length_cons, hlength]
    · intro s hs
      rcases List.mem_cons.mp hs with rfl | hs
      · exact ⟨r, _, _, hinc, hfiles⟩
      · exact hputs s hs
    · rw [← Nat.add_assoc, hrounds, hrounds']
    · rw [hincluded', hincluded, ← List.foldl_append, ← pathsFrom_succ]

/-- **Rounds that do not get to the last level** only put files in, and give up. -/
theorem exists_unsettled (h : Includable d p lines) (main : Text) : ∀ {left n : Nat}
    {q : Preprocessor}, p.Alike q → nests d p (n + left) lines = true →
      ∃ r, Preprocessor.rounds d main left q (flattenTo d p n lines) =
          (r, .error (.ofProblem (.unsettled main p.maxRounds))) ∧ p.Alike r ∧
        (roundsOf d main left q (flattenTo d p n lines)).length = left ∧
        ∀ s ∈ roundsOf d main left q (flattenTo d p n lines), s.PutsIn d main
  | 0, n, q, halike, _ => by
    refine ⟨q, ?_, halike, rfl, by simp [roundsOf]⟩
    rw [Preprocessor.rounds, halike.maxRounds]
  | left + 1, n, q, halike, hdeep => by
    obtain ⟨r, hinc, hr, -⟩ := exists_includeLevel h halike main left n
    have hfiles : (pathsAt d p n lines).length ≠ 0 := by
      rw [ne_eq, List.length_eq_zero_iff, pathsAt_eq_nil_iff, Bool.not_eq_false]
      exact nests_of_le (by omega) hdeep
    obtain ⟨hrounds, hlist⟩ := rounds_of_puts hinc hfiles
    have hn : n + (left + 1) = n + 1 + left := by omega
    rw [hn] at hdeep
    obtain ⟨r', hrounds', hr', hlength, hputs⟩ := exists_unsettled h main hr hdeep
    rw [hrounds, hlist]
    refine ⟨r', hrounds', hr', by rw [List.length_cons, hlength], fun s hs => ?_⟩
    rcases List.mem_cons.mp hs with rfl | hs
    · exact ⟨r, _, _, hinc, hfiles⟩
    · exact hputs s hs

/-- **Rounds flatten a source.** The depth of a source is infinite just if some file includes
itself. With a depth less than the number of rounds, so many rounds only put files in; the next one
finds the flattened source, with the paths of its files taken down level by level, and expands it.
With any other depth every round only puts files in, and the run gives up. -/
theorem rounds_flatten {d : Disk} {settings : Settings} {source : Text} {lines : List Text}
    (henter : (Preprocessor.start settings).enter source = .ok lines)
    (h : Includable d (.start settings) lines) (main : Text) :
    (nesting d (.start settings) lines = ⊤ ↔
      ∃ file, Reached d (.start settings) lines file ∧
        Relation.TransGen (Includes d (.start settings)) file file) ∧
    (∀ n : ℕ, nesting d (.start settings) lines = n → n < max 1 settings.maxRounds →
      ∃ flat spent last rest q,
        Flattens d (.start settings) lines flat ∧
        (Preprocessor.start settings).roundsOfText d main source = spent ++ last :: rest ∧
        spent.length = n ∧ (∀ r ∈ spent, r.PutsIn d main) ∧
        last.inclusion d main = (q, .ok (flat, 0)) ∧
        q.included = ((List.range n).flatMap fun k =>
          pathsAt d (.start settings) k lines).eraseDupsBy Path.same ∧
        (∀ q' e, expandLines q main (splice flat) = (q', .error e) →
          (Preprocessor.start settings).processText d main source = (q', .error e)) ∧
        ∀ q' out, expandLines q main (splice flat) = (q', .ok out) →
          needsPreprocessing out = false →
          (Preprocessor.start settings).processText d main source =
            (q'.settle last.left, .ok out)) ∧
    ((max 1 settings.maxRounds : ℕ) ≤ nesting d (.start settings) lines →
      ((Preprocessor.start settings).roundsOfText d main source).length =
        max 1 settings.maxRounds ∧
      (∀ r ∈ (Preprocessor.start settings).roundsOfText d main source, r.PutsIn d main) ∧
      ∃ q, (Preprocessor.start settings).processText d main source =
          (q, .error (.ofProblem (.unsettled main (max 1 settings.maxRounds)))) ∧
        q.stored = []) := by
  have hmax : (Preprocessor.start settings).maxRounds = max 1 settings.maxRounds :=
    Nat.max_comm _ _
  have hlist : (Preprocessor.start settings).roundsOfText d main source =
      roundsOf d main (max 1 settings.maxRounds) (.start settings) lines := by
    rw [Preprocessor.roundsOfText, henter, hmax]
  have hrun : (Preprocessor.start settings).processText d main source =
      Preprocessor.rounds d main (max 1 settings.maxRounds) (.start settings) lines := by
    rw [Preprocessor.processText, henter, hmax]
  rw [hlist, hrun]
  refine ⟨nesting_eq_top_iff, fun n hn hlt => ?_, fun hdeep => ?_⟩
  · obtain ⟨hdeep, hlast⟩ := nesting_eq_iff.mp hn
    obtain ⟨left, hleft⟩ : ∃ left, max 1 settings.maxRounds = left + n + 1 :=
      ⟨max 1 settings.maxRounds - n - 1, by omega⟩
    rw [← Nat.zero_add n] at hdeep hlast
    obtain ⟨spent, last, q, hspent, hlength, hputs, hrounds, hinc, -, hincluded⟩ :=
      exists_lastLevel h main left (.refl _) hdeep hlast
    rw [Nat.zero_add] at hspent hrounds hinc hlast
    have hpaths : q.included = ((List.range n).flatMap fun k =>
        pathsAt d (.start settings) k lines).eraseDupsBy Path.same := by
      rw [hincluded, pathsFrom, ← List.range_eq_range']
      exact addPaths_nil _
    obtain ⟨rest, hrest⟩ : ∃ rest, roundsOf d main (left + 1) last
        (flattenTo d (.start settings) n lines) =
          ⟨left, last, flattenTo d (.start settings) n lines⟩ :: rest := ⟨_, rfl⟩
    rw [hleft]
    refine ⟨flattenTo d (.start settings) (n + 1) lines, spent,
      ⟨left, last, flattenTo d (.start settings) n lines⟩, rest, q, flattens_flattenTo _ hlast, ?_,
      hlength, hputs, hinc, hpaths, fun q' e hexp => ?_, fun q' out hexp hneeds => ?_⟩
    · rw [← hrest]
      exact hspent
    · exact hrounds.trans (rounds_of_expandError hinc hexp).1
    · exact hrounds.trans ((rounds_of_expands hinc hexp).1 hneeds).1
  · rw [le_nesting_iff, ← Nat.zero_add (max 1 settings.maxRounds)] at hdeep
    obtain ⟨q, hrounds, halike, hlength, hputs⟩ := exists_unsettled h main (.refl _) hdeep
    rw [hmax] at hrounds
    exact ⟨hlength, hputs, q, hrounds, halike.stored⟩

/-! ### A chain of files -/

/-- The source and every file on the disk hold no condition and no marker, and every file that a
line of them includes can be put in. -/
def includable (d : Disk) (p : Preprocessor) (source : List Text) : Bool :=
  (source :: filesOn d p).all fun file => file.all fun line =>
    !Regions.isCondition line.code && line.head? != some markerSign &&
      match Use.ofCode line.code with
      | .includes name? => (name?.bind (p.open? d)).isSome
      | _ => true

theorem includable_of_check {source : List Text} (h : includable d p source = true) :
    Includable d p source := by
  have hline : ∀ file, Reached d p source file → ∀ line ∈ file,
      Regions.isCondition line.code = false ∧ line.head? ≠ some markerSign ∧
        ∀ name?, Use.ofCode line.code = .includes name? → (name?.bind (p.open? d)).isSome := by
    intro file hfile line hline
    have hmem : file ∈ source :: filesOn d p := by
      rcases Relation.ReflTransGen.cases_tail hfile with rfl | ⟨outer, -, hincludes⟩
      · exact List.mem_cons_self
      · exact List.mem_cons_of_mem _ hincludes.mem_filesOn
    have hall := List.all_eq_true.mp (List.all_eq_true.mp h file hmem) line hline
    simp only [Bool.and_eq_true, Bool.not_eq_true', bne_iff_ne] at hall
    refine ⟨hall.1.1, hall.1.2, fun name? huse => ?_⟩
    have hfound := hall.2
    rw [huse] at hfound
    exact hfound
  refine ⟨fun file hf l hl => (hline file hf l hl).1, fun file hf l hl => (hline file hf l hl).2.1,
    fun file hf l hl name? huse => ?_⟩
  obtain ⟨⟨path, lines⟩, hopen⟩ := Option.isSome_iff_exists.mp ((hline file hf l hl).2.2 name? huse)
  obtain ⟨name, rfl, hopen⟩ := Option.bind_eq_some_iff.mp hopen
  exact ⟨name, path, lines, rfl, hopen⟩

/-- A disk with two files, one of which includes the other twice. -/
def chainDisk : Disk :=
  (Disk.empty.learn "a.inc".toList
    (.file "#include <b.inc>\n#include <b.inc>\n".toUTF8.toList)).learn
      "b.inc".toList (.file "nop\n".toUTF8.toList)

/-- A source that includes the first file. -/
def chainSource : Text := "#include <a.inc>\nret\n".toList

/-- The lines of the source. -/
def chainLines : List Text := ["#include <a.inc>".toList, "ret".toList]

/-- Three rounds are enough for two levels, and two rounds are not. -/
theorem rounds_flatten_chain :
    (∃ flat spent last rest q, Flattens chainDisk (.start { maxRounds := 3 }) chainLines flat ∧
      (Preprocessor.start { maxRounds := 3 }).roundsOfText chainDisk "main.asm".toList chainSource =
        spent ++ last :: rest ∧
      spent.length = 2 ∧ last.inclusion chainDisk "main.asm".toList = (q, .ok (flat, 0)) ∧
      q.included = ["./a.inc".toList, "./b.inc".toList]) ∧
    ∃ q, (Preprocessor.start { maxRounds := 2 }).processText chainDisk "main.asm".toList
        chainSource = (q, .error (.ofProblem (.unsettled "main.asm".toList 2))) ∧
      q.stored = [] := by
  constructor
  · have hincludable : includable chainDisk (.start { maxRounds := 3 }) chainLines = true := by
      decide +kernel
    have hnesting : nesting chainDisk (.start { maxRounds := 3 }) chainLines = (2 : ℕ) :=
      nesting_eq_iff.mpr (by decide +kernel)
    have hpaths : ((List.range 2).flatMap fun k =>
        pathsAt chainDisk (.start { maxRounds := 3 }) k chainLines).eraseDupsBy Path.same =
          ["./a.inc".toList, "./b.inc".toList] := by
      decide +kernel
    have henter : (Preprocessor.start { maxRounds := 3 }).enter chainSource = .ok chainLines := by
      decide +kernel
    obtain ⟨flat, spent, last, rest, q, hflat, hlist, hlength, -, hinc, hincluded, -⟩ :=
      (rounds_flatten henter (includable_of_check hincludable) "main.asm".toList).2.1 2 hnesting
        (by decide)
    exact ⟨flat, spent, last, rest, q, hflat, hlist, hlength, hinc, hincluded.trans hpaths⟩
  · have hincludable : includable chainDisk (.start { maxRounds := 2 }) chainLines = true := by
      decide +kernel
    have hnests : nests chainDisk (.start { maxRounds := 2 }) 2 chainLines = true := by
      decide +kernel
    have henter : (Preprocessor.start { maxRounds := 2 }).enter chainSource = .ok chainLines := by
      decide +kernel
    exact ((rounds_flatten henter (includable_of_check hincludable) "main.asm".toList).2.2
      (le_nesting_iff.mpr hnests)).2.2

end Mcs51.Source
