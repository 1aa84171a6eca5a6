import Mcs51.Proofs.Object.LinkErrors
import Mcs51.Proofs.Object.Reassembly

/-! # Lines taken at will

`Takes` says what a line does to a session that takes it. Here is the other direction: a session
takes a line if what the line says can be done at its location counter and with its symbols
(`Session.step_of_statement`). What was placed before and the notes that were made play no part, so
a first pass can be played again from another session (`Run.replay`).

`twoPasses` is what both passes make of a list of lines. `placement_of_line` finds the place of one
instruction in a first pass. -/

namespace Mcs51.Object

open Instruction Source

/-- The image and the symbols of lines, if both passes succeed. -/
def twoPasses (file : Text) (origin : UInt16) (lines : List Text) :
    Option (Image × Table Text UInt16) :=
  match (Session.start file origin).feed lines with
  | (s, none) => (link s.symbols s.entries.toList).toOption.map fun image => (image, s.symbols)
  | (_, some _) => none

/-! ### One line -/

namespace Session

theorem define_of_defines {s : Session} {name : Text} {symbols : Table Text UInt16}
    (h : Defines s.counter s.symbols (some name) symbols) :
    ∃ t, s.define name = (t, none) ∧ t.counter = s.counter ∧ t.stack = s.stack ∧
      t.symbols = symbols ∧ t.entries = s.entries := by
  cases h with | some ident new room =>
    have ha : s.addr? = some (UInt16.ofNat s.counter) := if_pos room
    unfold define
    rw [ident, new, ha]
    exact ⟨_, rfl, rfl, rfl, rfl, rfl⟩

theorem act_of_acts {s : Session} {action : Action} {n : Nat} {new : List Placement}
    (h : Acts s.counter s.stack.pos action n new) :
    ∃ t, s.act action = (t, none) ∧ t.counter = n ∧ t.stack = s.stack ∧ t.symbols = s.symbols ∧
      t.entries.toList = s.entries.toList ++ new.flatMap Placement.entries := by
  cases h with
  | nothing => exact ⟨s, rfl, rfl, rfl, rfl, by simp⟩
  | origin spells =>
    simp only [act, setOrigin, spells]
    exact ⟨_, rfl, rfl, rfl, rfl, by simp [note]⟩
  | @instruction code e encodes room =>
    have hlen := length_cells e s.stack.pos
    have ha : s.addr? = some (UInt16.ofNat s.counter) := by
      have hpos : 0 < e.length := by rw [← hlen]; exact Nat.succ_pos _
      exact if_pos (by omega)
    simp only [act, encode, ha, encodes]
    obtain ⟨t, ht⟩ := emitAll_of_room (cells e s.stack.pos) (s.note _)
      (by rw [hlen]; exact room)
    obtain ⟨-, hcounter, hentries, hstack, hsymbols⟩ := emitAll_ok ht
    rw [hlen] at hcounter
    exact ⟨t, ht, hcounter, hstack, hsymbols, by rw [List.flatMap_singleton]; exact hentries⟩

theorem perform_of_acts {s : Session} {st : Statement} {symbols : Table Text UInt16} {n : Nat}
    {new : List Placement} (hdef : Defines s.counter s.symbols st.label symbols)
    (hacts : Acts s.counter s.stack.pos st.action n new) :
    ∃ t, s.perform st = (t, none) ∧ t.counter = n ∧ t.stack = s.stack ∧ t.symbols = symbols ∧
      t.entries.toList = s.entries.toList ++ new.flatMap Placement.entries := by
  obtain ⟨label, action⟩ := st
  cases label with
  | none =>
    cases hdef
    exact act_of_acts hacts
  | some name =>
    obtain ⟨u, hu, hcounter, hstack, hsymbols, hentries⟩ := define_of_defines hdef
    rw [← hcounter, ← hstack] at hacts
    obtain ⟨t, ht, hrest⟩ := act_of_acts hacts
    rw [hstack, hsymbols, hentries] at hrest
    exact ⟨t, by simp only [perform, hu, ht], hrest⟩

/-- **A session takes a line** if the file stack does and if what the line says can be done. -/
theorem step_of_statement {s : Session} {line : Text} {stack : FileStack} {st : Statement}
    {symbols : Table Text UInt16} {n : Nat} {new : List Placement}
    (hstep : s.stack.step line = (stack, .ok false)) (hreads : Statement.ofLine? line = some st)
    (hdef : Defines s.counter s.symbols st.label symbols)
    (hacts : Acts s.counter stack.pos st.action n new) :
    ∃ t, s.step line = (t, none) ∧ t.counter = n ∧ t.stack = stack ∧ t.symbols = symbols ∧
      t.entries.toList = s.entries.toList ++ new.flatMap Placement.entries := by
  obtain ⟨t, ht, hrest⟩ := perform_of_acts (s := { s with stack := stack }) hdef hacts
  refine ⟨t, ?_, hrest⟩
  simp only [step, hstep, obey, hreads, ht]

/-- A marker moves the file stack only. -/
theorem step_of_marker {s : Session} {line : Text} {stack : FileStack}
    (hstep : s.stack.step line = (stack, .ok true)) :
    s.step line = ({ s with stack := stack }, none) := by
  simp only [step, hstep]

end Session

/-! ### Whole passes -/

theorem twoPasses_eq_some_iff {file : Text} {origin : UInt16} {lines : List Text} {image : Image}
    {symbols : Table Text UInt16} : twoPasses file origin lines = some (image, symbols) ↔
      ∃ s, (Session.start file origin).feed lines = (s, none) ∧ s.symbols = symbols ∧
        link s.symbols s.entries.toList = .ok image := by
  unfold twoPasses
  split
  · next s hs =>
    cases hlink : link s.symbols s.entries.toList with
    | error e => simp [hs, hlink, Except.toOption]
    | ok image' => simp [hs, hlink, Except.toOption, and_comm]
  · next s e hs => simp [hs]

theorem Session.feed_of_walk {s t : Session} {lines : List Text}
    (h : walk step s lines = (t, none)) (hdepth : t.stack.depth = 0) :
    s.feed lines = (t, none) := by
  rw [feed, h]
  exact if_pos hdepth

theorem Session.depth_of_feed {s t : Session} {lines : List Text}
    (h : s.feed lines = (t, none)) : t.stack.depth = 0 := by
  have hwalk := walk_of_feed h
  rw [feed, hwalk] at h
  by_contra hdepth
  simp [hdepth] at h

/-- **A pass played again.** From a session with the same location counter, file stack and symbols,
a first pass places the same instructions and ends alike. -/
theorem Run.replay {s t : Session} {lines : List Text} {ps : List Placement}
    (h : Run s lines t ps) : ∀ {s' : Session}, s'.counter = s.counter → s'.stack = s.stack →
      s'.symbols = s.symbols → ∃ t', walk Session.step s' lines = (t', none) ∧
        t'.stack = t.stack ∧ t'.symbols = t.symbols ∧
        t'.entries.toList = s'.entries.toList ++ ps.flatMap Placement.entries := by
  induction h with
  | nil => exact fun _ hstack hsymbols => ⟨_, rfl, hstack, hsymbols, by simp⟩
  | @cons s u t line lines new more takes rest ih =>
    intro s' hcounter hstack hsymbols
    obtain ⟨u', hu, hcounter', hstack', hsymbols', hentries⟩ : ∃ u', s'.step line = (u', none) ∧
        u'.counter = u.counter ∧ u'.stack = u.stack ∧ u'.symbols = u.symbols ∧
        u'.entries.toList = s'.entries.toList ++ new.flatMap Placement.entries := by
      cases takes with
      | marker step counter symbols entries =>
        rw [← hstack] at step
        refine ⟨_, Session.step_of_marker step, hcounter.trans counter.symm, rfl,
          hsymbols.trans symbols.symm, by simp⟩
      | statement step reads defines acts entries =>
        rw [← hstack] at step
        rw [← hcounter] at defines acts
        rw [← hsymbols] at defines
        exact Session.step_of_statement step reads defines acts
    obtain ⟨t', ht, hrest, hsym, hmore⟩ := ih hcounter' hstack' hsymbols'
    refine ⟨t', walk_cons_eq_none.mpr ⟨u', hu, ht⟩, hrest, hsym, ?_⟩
    rw [hmore, hentries, List.flatMap_append, List.append_assoc]

/-! ### The place of an instruction -/

/-- **The place of an instruction.** A session that takes all lines comes to the line of an
instruction, places it at the location counter and goes on with the lines after it. -/
theorem placement_of_line {file : Text} {origin : UInt16} {before after : List Text}
    {line code : Text} {label : Option Text} {s : Session}
    (hwalk : walk Session.step (Session.start file origin) (before ++ line :: after) = (s, none))
    (hm : Marker.ofLine? line = none)
    (hst : Statement.ofLine? line = some ⟨label, .instruction code⟩) :
    ∃ u v e ps qs, walk Session.step (Session.start file origin) before = (u, none) ∧
      Run (Session.start file origin) before u ps ∧
      assemble code (UInt16.ofNat u.counter) = .ok e ∧
      Takes u line v [⟨code, v.stack.pos, u.counter, e⟩] ∧ Run v after s qs := by
  obtain ⟨u, hu, hrest⟩ := walk_append_eq_none.mp hwalk
  obtain ⟨v, hv, hs⟩ := walk_cons_eq_none.mp hrest
  obtain ⟨ps, hps⟩ := run_of_walk hu
  obtain ⟨qs, hqs⟩ := run_of_walk hs
  obtain ⟨new, htakes⟩ := Session.takes_of_step hv
  cases htakes with
  | marker step counter symbols entries =>
    obtain ⟨m, hmarked⟩ := FileStack.marked_of_step step
    rw [hm] at hmarked
    simp at hmarked
  | statement step reads defines acts entries =>
    obtain rfl := Option.some.inj (hst.symm.trans reads)
    generalize hn : v.counter = n at acts
    cases acts with | instruction encodes room =>
      refine ⟨u, v, _, ps, qs, hu, hps, encodes, ?_, hqs⟩
      exact .statement step reads defines (hn ▸ .instruction encodes room) entries

/-- The entries of a source around the instruction of one line. -/
theorem entries_of_line {file : Text} {origin : UInt16} {before after : List Text} {line : Text}
    {u v s : Session} {p : Placement} {ps qs : List Placement}
    (hps : Run (Session.start file origin) before u ps) (htakes : Takes u line v [p])
    (hqs : Run v after s qs) :
    s.entries.toList =
      ps.flatMap Placement.entries ++ (p.entries ++ qs.flatMap Placement.entries) := by
  rw [hqs.entries_eq, htakes.entries_eq, hps.entries_eq, List.flatMap_singleton]
  simp [Session.start]

end Mcs51.Object
