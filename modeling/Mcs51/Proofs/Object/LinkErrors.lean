import Mcs51.Proofs.Object.Stream
import Mcs51.Proofs.Source.Position

/-! # Why linking fails

After a first pass that succeeds, the second can fail in two ways only: a label that no line
defines, and a target out of reach of the instruction that names it. An entry is `Linkable` if
neither is the case. `link_fails_at_first` says that linking succeeds if all entries are linkable,
and otherwise stops at the first that is not, with an error at the line that the entry comes from. -/

namespace Mcs51.Object

open Instruction Source

/-- The entry can be written: it is no label, or a label with an address that is in reach. -/
def Linkable (symbols : Table Text UInt16) (e : Entry) : Prop :=
  match e.cell with
  | .label name _ mode =>
    ∃ target, symbols.lookup name = some target ∧ Reaches (e.addr + 1) target mode
  | _ => True

/-- The entries that a source has become once some of its lines are taken. -/
def entriesAfter (file : Text) (origin : UInt16) (lines : List Text) : List Entry :=
  (walk Session.step (Session.start file origin) lines).1.entries.toList

variable {symbols : Table Text UInt16}

theorem fault?_eq_none_iff {e : Entry} : e.fault? symbols = none ↔ Linkable symbols e := by
  obtain ⟨a, cell⟩ := e
  cases cell with
  | byte b => simp [Entry.fault?, Linkable]
  | second => simp [Entry.fault?, Linkable]
  | label name pos mode => exact fault?_label_eq_none

/-- What the error of an entry that cannot be written is. -/
theorem exists_fault {e : Entry} (h : ¬ Linkable symbols e) :
    ∃ name pos mode err, e.cell = .label name pos mode ∧ e.fault? symbols = some err ∧
      err.pos = some pos ∧
      err.problem.kind =
        if symbols.lookup name = none then .illegalOperand else .jumpOutOfRange := by
  obtain ⟨a, cell⟩ := e
  cases cell with
  | byte b => exact absurd trivial h
  | second => exact absurd trivial h
  | label name pos mode =>
    cases hl : symbols.lookup name with
    | none => exact ⟨name, pos, mode, _, rfl, by rw [fault?_label, hl], rfl, (if_pos hl).symm⟩
    | some target =>
      have hr : ¬ Reaches (a + 1) target mode := fun hr => h ⟨target, hl, hr⟩
      refine ⟨name, pos, mode, ⟨reachProblem (a + 1) target mode, some pos⟩, rfl, ?_, rfl, ?_⟩
      · rw [fault?_label, hl]
        exact if_neg hr
      · cases mode <;> simp [reachProblem, Problem.kind, hl]

/-- The kinds of errors of linking a stream. -/
theorem kind_of_fault? {e : Entry} {err : Error} (h : e.fault? symbols = some err) :
    err.problem.kind ≠ .parse := by
  have hn : ¬ Linkable symbols e := by
    rw [← fault?_eq_none_iff, h]
    simp
  obtain ⟨name, pos, mode, err', -, herr, -, hkind⟩ := exists_fault hn
  obtain rfl : err = err' := Option.some.inj (h.symm.trans herr)
  rw [hkind]
  split_ifs <;> decide

theorem link_error_iff {es : List Entry} (h : Stream es) {err : Error} :
    link symbols es = .error err ↔ es.findSome? (Entry.fault? symbols) = some err := by
  rw [← linkFrom_fault h ⟨[], []⟩]
  unfold link
  split
  · next l hl => simp [hl]
  · next l e hl => simp [hl]

theorem link_ok_iff {es : List Entry} (h : Stream es) :
    (∃ image, link symbols es = .ok image) ↔ ∀ e ∈ es, e.fault? symbols = none := by
  rw [← List.findSome?_eq_none_iff, Option.eq_none_iff_forall_ne_some]
  simp only [ne_eq, ← link_error_iff h]
  cases link symbols es <;> simp

/-! ### The line behind an entry -/

theorem stack_of_walk : ∀ {lines : List Text} {s t : Session},
    walk Session.step s lines = (t, none) → t.stack = s.stack.after lines
  | [], s, t, h => by
    cases h
    rfl
  | line :: lines, s, t, h => by
    obtain ⟨u, hu, hw⟩ := walk_cons_eq_none.mp h
    obtain ⟨new, htakes⟩ := Session.takes_of_step hu
    have hstack : (s.stack.step line).1 = u.stack := by
      cases htakes with
      | marker step counter symbols entries => rw [step]
      | statement step reads defines acts entries => rw [step]
    rw [stack_of_walk hw, ← hstack]
    rfl

theorem Session.entries_of_walk {lines : List Text} {s t : Session}
    (h : walk Session.step s lines = (t, none)) : s.entries.toList <+: t.entries.toList := by
  obtain ⟨ps, hrun⟩ := run_of_walk h
  exact ⟨_, hrun.entries_eq.symm⟩

theorem pos_of_mem_cells {e : Encoding} {pos pos' : Pos} {name : Text} {mode : Mode}
    (h : Cell.label name pos' mode ∈ cells e pos) : pos' = pos := by
  unfold cells at h
  rcases List.mem_cons.mp h with h | h
  · cases h
  · obtain ⟨f, -, hf⟩ := List.mem_flatMap.mp h
    cases f with
    | byte b => simp [fieldCells] at hf
    | label name' mode' => cases mode' <;> simp_all [fieldCells]

theorem Acts.pos_of_label {n n' : Nat} {pos pos' : Pos} {action : Action} {new : List Placement}
    (h : Acts n pos action n' new) {e : Entry} {name : Text} {mode : Mode}
    (he : e ∈ new.flatMap Placement.entries) (hc : e.cell = .label name pos' mode) :
    pos' = pos := by
  cases h with
  | nothing => simp at he
  | origin spells => simp at he
  | instruction encodes room =>
    rw [List.flatMap_singleton] at he
    have hcell := cell_mem_of_mem_placeFrom he
    rw [hc] at hcell
    exact pos_of_mem_cells hcell

/-- A label among the entries of a line has the position of the line. -/
theorem Takes.pos_of_label {s t : Session} {line : Text} {new : List Placement}
    (h : Takes s line t new) {e : Entry} {name : Text} {pos : Pos} {mode : Mode}
    (he : e ∈ new.flatMap Placement.entries) (hc : e.cell = .label name pos mode) :
    pos = t.stack.pos ∧ Marker.ofLine? line = none := by
  cases h with
  | marker step counter symbols entries => simp at he
  | statement step reads defines acts entries =>
    exact ⟨acts.pos_of_label he hc, FileStack.unmarked_of_step step⟩

/-- **The line behind an entry.** Each entry that lines add comes from one of them. -/
theorem exists_line : ∀ {lines : List Text} {s t : Session} {k : Nat},
    walk Session.step s lines = (t, none) → s.entries.toList.length ≤ k →
    k < t.entries.toList.length → ∃ before line after u v new, lines = before ++ line :: after ∧
      walk Session.step s before = (u, none) ∧ walk Session.step s (before ++ [line]) = (v, none) ∧
      walk Session.step v after = (t, none) ∧ Takes u line v new ∧
      u.entries.toList.length ≤ k ∧ k < v.entries.toList.length
  | [], s, t, k, h, h1, h2 => by
    cases h
    omega
  | line :: lines, s, t, k, h, h1, h2 => by
    obtain ⟨u, hu, hw⟩ := walk_cons_eq_none.mp h
    by_cases hk : k < u.entries.toList.length
    · obtain ⟨new, htakes⟩ := Session.takes_of_step hu
      exact ⟨[], line, lines, s, u, new, rfl, rfl, walk_cons_eq_none.mpr ⟨u, hu, rfl⟩, hw, htakes,
        h1, hk⟩
    · obtain ⟨before, l, after, v, w, new, rfl, hv, hw', hrest, htakes, hk1, hk2⟩ :=
        exists_line hw (Nat.le_of_not_lt hk) h2
      exact ⟨line :: before, l, after, v, w, new, rfl, walk_cons_eq_none.mpr ⟨u, hu, hv⟩,
        walk_cons_eq_none.mpr ⟨u, hu, hw'⟩, hrest, htakes, hk1, hk2⟩

theorem mem_new {α : Type} {old new now all : List α} {a : α} {k : Nat} (hnow : now = old ++ new)
    (hall : now <+: all) (h1 : old.length ≤ k) (h2 : k < now.length) (ha : all[k]? = some a) :
    a ∈ new := by
  obtain ⟨more, rfl⟩ := hall
  rw [List.getElem?_append_left h2, hnow, List.getElem?_append_right h1] at ha
  exact List.mem_of_getElem? ha

/-- **Linking stops at the first entry that cannot be written.** After a first pass that succeeds,
linking never complains of the order of the entries. It succeeds if all entries are linkable.
Otherwise it fails on the first that is not: that is a label, the error tells whether it is unknown
or out of reach, and its position is the one the file stack has after the line which the entry comes
from. -/
theorem link_fails_at_first {file : Text} {origin : UInt16} {lines : List Text} {s : Session}
    (hfeed : (Session.start file origin).feed lines = (s, none)) :
    (∀ err, link s.symbols s.entries.toList = .error err → err.problem.kind ≠ .parse) ∧
    ((∃ image, link s.symbols s.entries.toList = .ok image) ↔
      ∀ e ∈ s.entries.toList, Linkable s.symbols e) ∧
    ∀ front e back, s.entries.toList = front ++ e :: back → ¬ Linkable s.symbols e →
      (∀ d ∈ front, Linkable s.symbols d) →
      ∃ name pos mode err, e.cell = .label name pos mode ∧
        link s.symbols s.entries.toList = .error err ∧
        err.problem.kind =
          (if s.symbols.lookup name = none then .illegalOperand else .jumpOutOfRange) ∧
        err.pos = some pos ∧
        ∃ before line after, lines = before ++ line :: after ∧ Marker.ofLine? line = none ∧
          (entriesAfter file origin before).length ≤ front.length ∧
          front.length < (entriesAfter file origin (before ++ [line])).length ∧
          pos = ((FileStack.start file).after (before ++ [line])).pos := by
  have hwalk := Session.walk_of_feed hfeed
  have hstream : Stream s.entries.toList := by
    obtain ⟨ps, hrun⟩ := run_of_walk hwalk
    rw [hrun.entries_eq]
    exact hrun.stream
  refine ⟨?_, ?_, ?_⟩
  · intro err herr
    obtain ⟨e, -, he⟩ := List.exists_of_findSome?_eq_some ((link_error_iff hstream).mp herr)
    exact kind_of_fault? he
  · rw [link_ok_iff hstream]
    simp only [fault?_eq_none_iff]
  · intro front e back hsplit he hfront
    obtain ⟨name, pos, mode, err, hcell, herr, hpos, hkind⟩ := exists_fault he
    refine ⟨name, pos, mode, err, hcell, ?_, hkind, hpos, ?_⟩
    · rw [link_error_iff hstream, hsplit, List.findSome?_append,
        List.findSome?_eq_none_iff.mpr fun d hd => fault?_eq_none_iff.mpr (hfront d hd)]
      simp [herr]
    · obtain ⟨before, line, after, u, v, new, rfl, hu, hv, hrest, htakes, h1, h2⟩ :=
        exists_line hwalk (Nat.zero_le front.length) (by rw [hsplit]; simp)
      have hmem : e ∈ new.flatMap Placement.entries := by
        refine mem_new htakes.entries_eq (Session.entries_of_walk hrest) h1 h2 ?_
        rw [hsplit, List.getElem?_append_right (Nat.le_refl _), Nat.sub_self, List.getElem?_cons_zero]
      obtain ⟨rfl, hm⟩ := htakes.pos_of_label hmem hcell
      refine ⟨before, line, after, rfl, hm, ?_, ?_, ?_⟩
      · unfold entriesAfter
        rw [hu]
        exact h1
      · unfold entriesAfter
        rw [hv]
        exact h2
      · rw [stack_of_walk hv]
        rfl

/-- A source with a branch that is too long. -/
def farLines : List Text :=
  ["» a.inc :start".toList, "nop".toList, " sjmp far".toList, "» a.inc :end".toList,
    ".org 1000".toList, "far: ret".toList]

theorem link_fails_at_first_far :
    ∃ s err, (Session.start "main.asm".toList 0).feed farLines = (s, none) ∧
      ¬ Linkable s.symbols ⟨2, .label "far".toList ⟨"a.inc".toList, 2⟩ .relative⟩ ∧
      link s.symbols s.entries.toList = .error err ∧ err.problem.kind = .jumpOutOfRange ∧
      err.pos = some ⟨"a.inc".toList, 2⟩ := by
  have hdone : ((Session.start "main.asm".toList 0).feed farLines).2 = none := by
    decide +kernel
  have hfed : ((Session.start "main.asm".toList 0).feed farLines).1.symbols =
        [("far".toList, 0x1000)] ∧
      ((Session.start "main.asm".toList 0).feed farLines).1.entries.toList =
        [⟨0, .byte 0x00⟩, ⟨1, .byte 0x80⟩] ++
          ⟨2, .label "far".toList ⟨"a.inc".toList, 2⟩ .relative⟩ :: [⟨0x1000, .byte 0x22⟩] := by
    decide +kernel
  generalize hfeed : (Session.start "main.asm".toList 0).feed farLines = fed at *
  obtain ⟨s, stop⟩ := fed
  cases hdone
  obtain ⟨hsymbols, hentries⟩ := hfed
  have hfar : ¬ Linkable s.symbols ⟨2, .label "far".toList ⟨"a.inc".toList, 2⟩ .relative⟩ := by
    rw [hsymbols, ← fault?_eq_none_iff]
    decide +kernel
  obtain ⟨name, pos, mode, err, hcell, hlink, hkind, hpos, -⟩ :=
    (link_fails_at_first hfeed).2.2 _ _ _ hentries hfar (by simp [Linkable])
  obtain ⟨rfl, rfl, rfl⟩ := Cell.label.inj hcell
  refine ⟨s, err, rfl, hfar, hlink, hkind.trans ?_, hpos⟩
  rw [hsymbols]
  decide +kernel

end Mcs51.Object
