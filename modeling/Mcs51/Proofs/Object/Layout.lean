import Mathlib.Tactic.SplitIfs
import Mcs51.Object.Session

/-! # What the first pass lays out

A line that a session takes does one of a few things to it. `Takes` says which, notes aside: a
marker moves the file stack only; any other line is a statement, whose label gets the location
counter as its address (`Defines`) and whose action moves the counter or places an instruction at it
(`Acts`). `takes_of_step` derives this from `Session.step` once and for all, and every property of a
first pass is an induction over its lines from there.

An instruction is placed by giving its cells consecutive addresses (`placeFrom`). -/

namespace Mcs51.Object

open Instruction Source

/-! ### Cells at consecutive addresses -/

/-- The cells as entries, from the given address on. -/
def placeFrom : Nat → List Cell → List Entry
  | _, [] => []
  | n, c :: cs => ⟨UInt16.ofNat n, c⟩ :: placeFrom (n + 1) cs

theorem placeFrom_append : ∀ (n : Nat) (cs ds : List Cell),
    placeFrom n (cs ++ ds) = placeFrom n cs ++ placeFrom (n + cs.length) ds
  | _, [], _ => rfl
  | n, c :: cs, ds => by
    simp only [List.cons_append, placeFrom, placeFrom_append (n + 1) cs ds, List.length_cons]
    rw [Nat.add_right_comm, Nat.add_assoc]

theorem length_placeFrom : ∀ (n : Nat) (cs : List Cell), (placeFrom n cs).length = cs.length
  | _, [] => rfl
  | n, c :: cs => by rw [placeFrom, List.length_cons, length_placeFrom, List.length_cons]

theorem cell_mem_of_mem_placeFrom : ∀ {n : Nat} {cs : List Cell} {e : Entry},
    e ∈ placeFrom n cs → e.cell ∈ cs
  | _, [], _, h => by simp [placeFrom] at h
  | n, c :: cs, e, h => by
    rcases List.mem_cons.mp h with rfl | h
    · simp
    · exact List.mem_cons_of_mem _ (cell_mem_of_mem_placeFrom h)

/-- An instruction at its address, with the line it stands on. -/
structure Placement where
  code : Text
  pos : Pos
  addr : Nat
  encoding : Encoding

/-- The entries that an instruction becomes. -/
def Placement.entries (p : Placement) : List Entry := placeFrom p.addr (cells p.encoding p.pos)

/-! ### What a statement does -/

/-- What the label of a statement does to the symbols at a location counter. -/
inductive Defines (n : Nat) (symbols : Table Text UInt16) :
    Option Text → Table Text UInt16 → Prop
  | none : Defines n symbols none symbols
  | some {name : Text} (ident : name.isIdent = true) (new : symbols.lookup name = .none)
      (room : n < 65536) :
      Defines n symbols (.some name) (symbols ++ [(name, UInt16.ofNat n)])

/-- What the action of a statement does to the location counter, and what it places. -/
inductive Acts (n : Nat) (pos : Pos) : Action → Nat → List Placement → Prop
  | nothing : Acts n pos .nothing n []
  | origin {arg : Text} {a : UInt16} (spells : arg.readHex? = some a) :
      Acts n pos (.origin arg) a.toNat []
  | instruction {code : Text} {e : Encoding} (encodes : assemble code (UInt16.ofNat n) = .ok e)
      (room : n + e.length ≤ 65536) :
      Acts n pos (.instruction code) (n + e.length) [⟨code, pos, n, e⟩]

/-- What a line that is taken does to a session, notes aside. -/
inductive Takes (s : Session) (line : Text) (t : Session) : List Placement → Prop
  | marker (step : s.stack.step line = (t.stack, .ok true)) (counter : t.counter = s.counter)
      (symbols : t.symbols = s.symbols) (entries : t.entries = s.entries) : Takes s line t []
  | statement {st : Statement} {new : List Placement}
      (step : s.stack.step line = (t.stack, .ok false)) (reads : Statement.ofLine? line = some st)
      (defines : Defines s.counter s.symbols st.label t.symbols)
      (acts : Acts s.counter t.stack.pos st.action t.counter new)
      (entries : t.entries.toList = s.entries.toList ++ new.flatMap Placement.entries) :
      Takes s line t new

namespace Session

theorem addr?_eq_some {s : Session} {a : UInt16} (h : s.addr? = some a) :
    s.counter < 65536 ∧ a = UInt16.ofNat s.counter := by
  unfold addr? at h
  split_ifs at h with hlt
  exact ⟨hlt, (Option.some.inj h).symm⟩

theorem define_ok {s t : Session} {name : Text} (h : s.define name = (t, none)) :
    Defines s.counter s.symbols (some name) t.symbols ∧ t.stack = s.stack ∧
      t.counter = s.counter ∧ t.entries = s.entries := by
  unfold define at h
  split_ifs at h with hid hnew
  · simp at h
  · simp at h
  · cases ha : s.addr? with
    | none => simp [ha] at h
    | some a =>
      simp only [ha, Prod.mk.injEq, and_true] at h
      subst h
      obtain ⟨hlt, rfl⟩ := addr?_eq_some ha
      have hnew : s.symbols.lookup name = none := Option.not_isSome_iff_eq_none.mp hnew
      exact ⟨.some (by simpa using hid) hnew hlt, rfl, rfl, rfl⟩

/-- Cells are added at consecutive addresses, and none past the last address. -/
theorem emitAll_ok : ∀ {cs : List Cell} {s t : Session}, s.emitAll cs = (t, none) →
    (cs = [] ∨ s.counter + cs.length ≤ 65536) ∧ t.counter = s.counter + cs.length ∧
      t.entries.toList = s.entries.toList ++ placeFrom s.counter cs ∧
      t.stack = s.stack ∧ t.symbols = s.symbols
  | [], s, t, h => by
    cases h
    exact ⟨Or.inl rfl, rfl, by simp [placeFrom], rfl, rfl⟩
  | c :: cs, s, t, h => by
    unfold emitAll at h
    obtain ⟨u, hu, hw⟩ := walk_cons_eq_none.mp h
    unfold emit at hu
    cases ha : s.addr? with
    | none => simp [ha] at hu
    | some a =>
      obtain ⟨hlt, rfl⟩ := addr?_eq_some ha
      simp only [ha, Prod.mk.injEq, and_true] at hu
      subst hu
      obtain ⟨hroom, hcounter, hentries, hstack, hsymbols⟩ := emitAll_ok hw
      simp only at hroom hcounter hentries hstack hsymbols
      refine ⟨Or.inr ?_, ?_, ?_, hstack, hsymbols⟩
      · rcases hroom with rfl | hroom
        · simp only [List.length_cons, List.length_nil]; omega
        · simp only [List.length_cons]; omega
      · rw [hcounter, List.length_cons]; omega
      · rw [hentries, Array.toList_push, placeFrom, List.append_assoc, List.singleton_append]

theorem encode_ok {s t : Session} {code : Text} (h : s.encode code = (t, none)) :
    ∃ new, Acts s.counter s.stack.pos (.instruction code) t.counter new ∧
      t.entries.toList = s.entries.toList ++ new.flatMap Placement.entries ∧
      t.stack = s.stack ∧ t.symbols = s.symbols := by
  unfold encode at h
  cases ha : s.addr? with
  | none => simp [ha] at h
  | some pc =>
    obtain ⟨-, rfl⟩ := addr?_eq_some ha
    cases he : assemble code (UInt16.ofNat s.counter) with
    | error e => simp [ha, he] at h
    | ok e =>
      simp only [ha, he] at h
      obtain ⟨hroom, hcounter, hentries, hstack, hsymbols⟩ := emitAll_ok h
      rw [length_cells] at hroom hcounter
      have hroom : s.counter + e.length ≤ 65536 := by
        rcases hroom with hnil | hroom
        · simp [cells] at hnil
        · exact hroom
      refine ⟨[⟨code, s.stack.pos, s.counter, e⟩], ?_, ?_, hstack, hsymbols⟩
      · rw [show t.counter = s.counter + e.length from hcounter]
        exact .instruction he hroom
      · rw [List.flatMap_singleton]
        exact hentries

theorem act_ok {s t : Session} {action : Action} (h : s.act action = (t, none)) :
    ∃ new, Acts s.counter s.stack.pos action t.counter new ∧
      t.entries.toList = s.entries.toList ++ new.flatMap Placement.entries ∧
      t.stack = s.stack ∧ t.symbols = s.symbols := by
  cases action with
  | nothing =>
    cases h
    exact ⟨[], .nothing, by simp, rfl, rfl⟩
  | origin arg =>
    simp only [act, setOrigin] at h
    cases ha : arg.readHex? with
    | none => simp [ha] at h
    | some a =>
      simp only [ha, Prod.mk.injEq, and_true] at h
      subst h
      exact ⟨[], .origin ha, by simp [note], rfl, rfl⟩
  | instruction code => exact encode_ok h

theorem perform_ok {s t : Session} {st : Statement} (h : s.perform st = (t, none)) :
    ∃ new, Defines s.counter s.symbols st.label t.symbols ∧
      Acts s.counter s.stack.pos st.action t.counter new ∧
      t.entries.toList = s.entries.toList ++ new.flatMap Placement.entries ∧
      t.stack = s.stack := by
  unfold perform at h
  cases hl : st.label with
  | none =>
    simp only [hl] at h
    obtain ⟨new, hacts, hentries, hstack, hsymbols⟩ := act_ok h
    exact ⟨new, hsymbols ▸ .none, hacts, hentries, hstack⟩
  | some name =>
    simp only [hl] at h
    split at h
    · next u hu =>
      obtain ⟨hdef, hstack, hcounter, hentries⟩ := define_ok hu
      obtain ⟨new, hacts, hentries', hstack', hsymbols⟩ := act_ok h
      rw [hcounter, hstack] at hacts
      rw [hentries] at hentries'
      exact ⟨new, hsymbols ▸ hdef, hacts, hentries', hstack'.trans hstack⟩
    · simp at h

/-- **What a line does to a session that takes it.** -/
theorem takes_of_step {s t : Session} {line : Text} (h : s.step line = (t, none)) :
    ∃ new, Takes s line t new := by
  unfold step at h
  split at h
  · simp at h
  · next stack hs =>
    cases h
    exact ⟨[], .marker hs rfl rfl rfl⟩
  · next stack hs =>
    split at h
    · next u hu =>
      cases h
      unfold obey at hu
      cases hst : Statement.ofLine? line with
      | none => simp [hst] at hu
      | some st =>
        simp only [hst] at hu
        obtain ⟨new, hdef, hacts, hentries, hstack⟩ := perform_ok hu
        simp only at hdef hacts hentries hstack
        rw [← hstack] at hs hacts
        exact ⟨new, .statement hs hst hdef hacts hentries⟩
    · simp at h

/-- A session that takes all lines takes them one after the other. -/
theorem walk_of_feed {s t : Session} {lines : List Text} (h : s.feed lines = (t, none)) :
    walk step s lines = (t, none) := by
  unfold feed at h
  split at h
  · next u hu =>
    split_ifs at h
    · cases h
      exact hu
    · simp at h
  · simp at h

end Session

/-! ### Whole passes -/

/-- What a session makes of lines it takes one after the other, and what it places. -/
inductive Run : Session → List Text → Session → List Placement → Prop
  | nil {s : Session} : Run s [] s []
  | cons {s t u : Session} {line : Text} {lines : List Text} {new more : List Placement}
      (takes : Takes s line t new) (rest : Run t lines u more) :
      Run s (line :: lines) u (new ++ more)

theorem run_of_walk : ∀ {lines : List Text} {s t : Session},
    walk Session.step s lines = (t, none) → ∃ ps, Run s lines t ps
  | [], s, t, h => by
    cases h
    exact ⟨[], .nil⟩
  | line :: lines, s, t, h => by
    obtain ⟨u, hu, hw⟩ := walk_cons_eq_none.mp h
    obtain ⟨new, htakes⟩ := Session.takes_of_step hu
    obtain ⟨more, hrun⟩ := run_of_walk hw
    exact ⟨new ++ more, .cons htakes hrun⟩

theorem Takes.entries_eq {s t : Session} {line : Text} {new : List Placement}
    (h : Takes s line t new) :
    t.entries.toList = s.entries.toList ++ new.flatMap Placement.entries := by
  cases h with
  | marker step counter symbols entries => simp [entries]
  | statement step reads defines acts entries => exact entries

theorem Run.entries_eq {s t : Session} {lines : List Text} {ps : List Placement}
    (h : Run s lines t ps) :
    t.entries.toList = s.entries.toList ++ ps.flatMap Placement.entries := by
  induction h with
  | nil => simp
  | cons takes rest ih =>
    rw [ih, takes.entries_eq, List.flatMap_append, List.append_assoc]

theorem Defines.subtable {n : Nat} {symbols symbols' : Table Text UInt16} {label : Option Text}
    (h : Defines n symbols label symbols') : symbols <+: symbols' := by
  cases h with
  | none => exact List.prefix_rfl
  | some ident new room => exact List.prefix_append _ _

theorem Takes.subtable {s t : Session} {line : Text} {new : List Placement}
    (h : Takes s line t new) : s.symbols <+: t.symbols := by
  cases h with
  | marker step counter symbols entries => exact symbols ▸ List.prefix_rfl
  | statement step reads defines acts entries => exact defines.subtable

/-- Symbols are only ever added. -/
theorem Run.subtable {s t : Session} {lines : List Text} {ps : List Placement}
    (h : Run s lines t ps) : s.symbols <+: t.symbols := by
  induction h with
  | nil => exact List.prefix_rfl
  | cons takes rest ih => exact takes.subtable.trans ih

end Mcs51.Object
