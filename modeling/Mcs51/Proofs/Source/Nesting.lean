import Mcs51.Proofs.Source.LineNumbers

/-! # Markers stay nested

Each file that is put in stands between two markers with its name. Going along the markers of a
stream, `unclosed` keeps the names of the files entered and not left, and refuses a marker that
leaves any other file than the last one entered; a stream is `Nested` if all of them are left at its
end.

Putting a file in adds a pair of markers, which leaves the names as they are wherever it stands
(`unclosed_includes`); every other change of a round keeps the markers (`markersOf_keeps`). So a run
gives nested markers (`nested_of_trace`) on the same condition as it gives true positions: no marker
is joined to the line before it. A file stack then ends where it began (`depth_after`). -/

namespace Mcs51.Source

open Sourced

/-! ### Names of open files -/

/-- The markers on lines, in order. -/
def markersOf (lines : List Text) : List Marker := lines.filterMap Marker.ofLine?

/-- The names of the files entered and not left, innermost first, after markers that come on top of
some such names. A marker that leaves another file than the innermost is refused. -/
def unclosed : List Text → List Marker → Option (List Text)
  | names, [] => some names
  | names, .enter name :: ms => unclosed (name :: names) ms
  | [], .leave _ :: _ => none
  | inner :: names, .leave name :: ms => if name = inner then unclosed names ms else none

/-- Every file that is entered is left again, under its own name and in the opposite order. -/
def Nested (ms : List Marker) : Prop := unclosed [] ms = some []

instance (ms : List Marker) : Decidable (Nested ms) := inferInstanceAs (Decidable (_ = _))

theorem unclosed_append (names : List Text) (a b : List Marker) :
    unclosed names (a ++ b) = (unclosed names a).bind fun names => unclosed names b := by
  fun_induction unclosed names a with
  | case1 names => rfl
  | case2 names name ms ih => exact ih
  | case3 name ms => rfl
  | case4 inner names ms ih => rw [List.cons_append, unclosed, if_pos rfl, ih]
  | case5 inner names name ms hname => rw [List.cons_append, unclosed, if_neg hname]; rfl

theorem markersOf_append (a b : List Text) : markersOf (a ++ b) = markersOf a ++ markersOf b :=
  List.filterMap_append

theorem markersOf_unmarked {lines : List Text} (h : ∀ line ∈ lines, Marker.ofLine? line = none) :
    markersOf lines = [] :=
  List.filterMap_eq_nil_iff.mpr h

theorem markersOf_cons_of_unmarked {line : Text} (h : Marker.ofLine? line = none)
    (lines : List Text) : markersOf (line :: lines) = markersOf lines :=
  List.filterMap_cons_none h

theorem markersOf_cons_of_marked {line : Text} {m : Marker} (h : Marker.ofLine? line = some m)
    (lines : List Text) : markersOf (line :: lines) = m :: markersOf lines :=
  List.filterMap_cons_some h

/-- The lines that take the place of one that includes a file bring in a pair of markers. -/
theorem markersOf_block {name : Text} {lines : List Text}
    (hname : name ≠ [] ∧ ∀ c ∈ name, Text.isBlank c = false)
    (hlines : ∀ line ∈ lines, SignFree line) :
    markersOf (Inclusion.block name lines) = [.enter name, .leave name] := by
  have henter : Marker.ofLine? (Marker.enter name).line = some (.enter name) :=
    Marker.ofLine?_line hname.1 hname.2
  have hleave : Marker.ofLine? (Marker.leave name).line = some (.leave name) :=
    Marker.ofLine?_line hname.1 hname.2
  rw [Inclusion.block, markersOf_cons_of_unmarked signFree_includeFiller.unmarked,
    markersOf_cons_of_marked henter, markersOf_append,
    markersOf_unmarked fun line hline => (hlines line hline).unmarked,
    markersOf_cons_of_marked hleave]
  rfl

/-! ### What a round keeps -/

/-- **Inclusion** leaves the same files open as the lines that it reads. -/
theorem unclosed_includes {d : Disk}
    (hdisk : ∀ path text, d.readText path = .ok text → SignFree text) :
    ∀ {lines : List Text} {s t : Inclusion}, walk (Inclusion.step d) s lines = (t, none) →
      s.pre.SignFree → ∃ written, t.out.toList = s.out.toList ++ written ∧
        ∀ names, unclosed names (markersOf written) = unclosed names (markersOf lines)
  | [], s, t, h, _ => by
    cases h
    exact ⟨[], by simp, fun names => rfl⟩
  | line :: lines, s, t, h, hpre => by
    obtain ⟨u, hu, hw⟩ := walk_cons_eq_none.mp h
    obtain ⟨use, first, -, hout, htakes⟩ := Inclusion.takes_of_step hu
    have hfirst : u.pre.SignFree ∧
        ∀ names, unclosed names (markersOf first) = unclosed names (markersOf [line]) := by
      cases htakes with
      | keep other pre count => exact ⟨by rwa [pre], fun names => rfl⟩
      | insert unmarked names found enters pre count =>
        rename_i name path text entered
        have hlines := signFree_enter hpre (hdisk _ _ (Preprocessor.find?_ok found)) enters
        refine ⟨hpre.alike (pre ▸ s.pre.alike_insert name path), fun open' => ?_⟩
        rw [markersOf_block (includedName?_ok names) hlines, markersOf_cons_of_unmarked unmarked]
        simp [unclosed, markersOf]
    obtain ⟨written, hout', hnames⟩ := unclosed_includes hdisk hw hfirst.1
    refine ⟨first ++ written, by rw [hout', hout, List.append_assoc], fun names => ?_⟩
    have hcons : markersOf (line :: lines) = markersOf [line] ++ markersOf lines :=
      markersOf_append [line] lines
    rw [markersOf_append, hcons, unclosed_append, unclosed_append, hfirst.2]
    simp only [hnames]

/-- A change of lines one by one keeps the markers. -/
theorem markersOf_keeps {ls ls' : List Sourced} (h : List.Forall₂ Keeps ls ls') :
    markersOf (ls'.map text) = markersOf (ls.map text) := by
  induction h with
  | nil => rfl
  | cons hk _ ih =>
    unfold markersOf at ih ⊢
    rw [List.map_cons, List.map_cons, List.filterMap_cons, List.filterMap_cons, ih]
    rcases hk with rfl | ⟨hl, hl', -⟩
    · rfl
    · rw [hl.unmarked, hl'.unmarked]

/-! ### Runs -/

/-- What holds of the lines before each round: they are located, and their markers are nested. -/
structure Bracketed (p : Preprocessor) (file : Text) (ls : List Sourced) : Prop where
  sound : Sound p file ls
  nested : Nested (markersOf (ls.map text))

section Round

variable {d : Disk} {p q : Preprocessor} {file : Text} {ls : List Sourced}

theorem Bracketed.announce (left : Nat) (h : Bracketed p file ls) :
    Bracketed (p.announce left) file ls :=
  ⟨h.sound.announce left, h.nested⟩

theorem Bracketed.include (hdisk : ∀ path text, d.readText path = .ok text → SignFree text)
    {out : List Text} {count : Nat} (h : Bracketed p file ls)
    (hinc : includeLines d p file (ls.map text) = (q, .ok (out, count))) :
    Bracketed q file (traceInclude d (.start p file) ls) := by
  refine ⟨h.sound.include hdisk hinc, ?_⟩
  obtain ⟨s, hs, -, -, -⟩ := includeLines_ok hinc
  obtain ⟨written, hout, hnames⟩ := unclosed_includes hdisk hs h.sound.signFree
  obtain rfl : written = (traceInclude d (.start p file) ls).map text :=
    List.append_cancel_left (hout.symm.trans (text_traceInclude hs))
  exact (hnames []).trans h.nested

theorem Bracketed.expand {texts : List Text} (h : Bracketed p file ls)
    (hjoin : ∀ t ∈ joined (ls.map text), Marker.ofLine? t = none)
    (hexp : expandLines p file ((spliceSourced ls).map text) = (q, .ok texts)) :
    Bracketed q file (retext (spliceSourced ls) texts) := by
  obtain ⟨-, hsplice, hkeeps⟩ := h.sound.keeps hjoin hexp
  refine ⟨h.sound.expand hjoin hexp, ?_⟩
  rw [markersOf_keeps hkeeps, markersOf_keeps hsplice]
  exact h.nested

/-- The lines of one file have no markers to nest. -/
theorem bracketed_ofFile {lines : List Text} (hpre : p.SignFree)
    (hlines : ∀ line ∈ lines, SignFree line) : Bracketed p file (ofFile file lines) := by
  refine ⟨⟨hpre, fun l hl => ?_, located_ofFile 0 hlines⟩, ?_⟩
  · have hmem : l.text ∈ (ofFile file lines).map text := List.mem_map_of_mem hl
    rw [text_ofFile] at hmem
    exact Or.inl (hlines _ hmem)
  · rw [text_ofFile, markersOf_unmarked fun line hline => (hlines line hline).unmarked]
    rfl

end Round

/-- **Runs keep brackets.** -/
theorem bracketed_trace {d : Disk} {p : Preprocessor} {file source : Text} {t : Trace}
    (hsource : SignFree source)
    (hdisk : ∀ path text, d.readText path = .ok text → SignFree text) (hpre : p.SignFree)
    (ht : trace d p file source = some t)
    (hjoin : ∀ line ∈ t.joined, Marker.ofLine? line = none) : ∃ q, Bracketed q file t.lines := by
  unfold trace at ht
  split at ht
  · simp at ht
  · next lines henter =>
    exact traceRounds_invariant Bracketed.announce (Bracketed.include hdisk) Bracketed.expand ht
      (bracketed_ofFile hpre (signFree_enter hpre hsource henter)) hjoin

/-! ### The file stack -/

theorem Located.passes : ∀ {ls : List Sourced} {s : FileStack}, Located s ls →
    s.Passes (ls.map text)
  | [], _, _ => trivial
  | _ :: _, _, h => ⟨h.1, Located.passes h.2.2⟩

namespace FileStack

theorem depth_step_enter {s : FileStack} {line name : Text}
    (hm : Marker.ofLine? line = some (.enter name)) : (s.step line).1.depth = s.depth + 1 := by
  simp [step, hm, enter, depth, count]

theorem depth_step_leave {s : FileStack} {line name : Text} {b : Bool}
    (hm : Marker.ofLine? line = some (.leave name)) (h : (s.step line).2 = .ok b) :
    (s.step line).1.depth + 1 = s.depth := by
  obtain ⟨frames, pos⟩ := s
  rcases frames with _ | ⟨⟨file, _ | n⟩, frames⟩ <;> simp [step, hm, count, depth] at h ⊢

/-- A file stack that passes lines is as deep as there are files open. -/
theorem depth_after : ∀ {lines : List Text} {s : FileStack} {names more : List Text},
    s.Passes lines → names.length = s.depth → unclosed names (markersOf lines) = some more →
      (s.after lines).depth = more.length
  | [], s, names, more, _, hdepth, h => by
    cases h
    exact hdepth.symm
  | line :: lines, s, names, more, ⟨⟨b, hstep⟩, hpasses⟩, hdepth, h => by
    rw [after_cons]
    cases hm : Marker.ofLine? line with
    | none =>
      rw [markersOf_cons_of_unmarked hm] at h
      rw [step_of_unmarked hm] at hpasses ⊢
      exact depth_after hpasses hdepth h
    | some m =>
      rw [markersOf_cons_of_marked hm] at h
      cases m with
      | enter name =>
        have hin := s.depth_step_enter hm
        exact depth_after hpasses (by rw [List.length_cons]; omega) h
      | leave name =>
        have hout := s.depth_step_leave hm hstep
        cases names with
        | nil => simp [unclosed] at h
        | cons inner names =>
          rw [unclosed] at h
          split_ifs at h
          rw [List.length_cons] at hdepth
          exact depth_after hpasses (by omega) h

end FileStack

end Mcs51.Source
