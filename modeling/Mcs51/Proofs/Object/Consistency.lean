import Mathlib.Data.List.Chain
import Mathlib.Data.List.Nodup
import Mcs51.Proofs.Instruction.Reading
import Mcs51.Proofs.Object.Layout
import Mcs51.Proofs.Source.Position

/-! # Sessions that go on after a failure

A session is fed one list of lines after another, and a call that fails leaves behind what it did
before it failed. Whatever lines it is fed, a session stays `Consistent`: its location counter is at
most one past the last address, and its symbols are identifiers, each there once.

One line can do only so much. `Session.advances_step` says what, whether the line is taken or not:
it adds entries at addresses that follow one another (`Consecutive`) and adds symbols, and it
changes nothing that was there. A call that succeeds adds the entries of one instruction for each of
its instruction lines (`IsInstruction`), and no others.

Main statement: `session_stays_consistent`. -/

namespace Mcs51.Instruction

/-! ### The length of an instruction -/

/-- An operand changes the opcode only in a slot for a page. -/
theorem fillSlot_opcode {pc : UInt16} {op op' : UInt8} {slot : Slot} {operand : Operand}
    {fields : List Field} (hslot : slot ≠ .page)
    (h : fillSlot pc op slot operand = .ok (op', fields)) : op' = op := by
  unfold fillSlot at h
  split at h
  all_goals first
    | exact absurd rfl hslot
    | exact (map_byteOf_ok h).1
    | exact (Prod.mk.inj (Except.ok.inj h)).1.symm

theorem fillSlots_opcode {pc : UInt16} : ∀ {ps : List (Slot × Operand)} {op op' : UInt8}
    {fields : List Field}, Slot.page ∉ ps.map Prod.fst →
      fillSlots pc op ps = .ok (op', fields) → op' = op
  | [], op, op', fields, _, h => by
    cases h
    rfl
  | (slot, operand) :: ps, op, op', fields, hpage, h => by
    obtain ⟨op₁, fields₁, fields₂, hslot, hrest, -⟩ := fillSlots_cons_ok h
    have hpage : Slot.page ≠ slot ∧ Slot.page ∉ ps.map Prod.fst := by simpa using hpage
    rw [fillSlots_opcode hpage.2 hrest, fillSlot_opcode hpage.1.symm hslot]

/-- **An instruction has the length of its opcode**, also where a page is put into the opcode. -/
theorem length_of_assemble {line : Text} {pc : UInt16} {e : Encoding}
    (h : assemble line pc = .ok e) :
    (formOf e.opcode).isAssigned = true ∧ e.length = (formOf e.opcode).length := by
  obtain ⟨-, -, operands, f, -, -, hf, hassigned, -, hadmits, hfill⟩ := assemble_ok h
  have hlength := (fill_ok hfill).1
  by_cases hpage : Slot.page ∈ f.slots
  · obtain ⟨hslots, o, -, hfit, hslot⟩ := fillSlot_of_page hf hadmits hfill hpage
    have hop : e.opcode.toNat % 32 = f.opcode.toNat % 32 := by
      cases o with
      | address v =>
        cases v with
        | const target =>
          cases hfold : foldPage f.opcode (pc + 2) target with
          | error p => simp [fillSlot, hfold, Except.map] at hslot
          | ok op =>
            simp only [fillSlot, hfold, Except.map, Except.ok.injEq, Prod.mk.injEq] at hslot
            rw [← hslot.1]
            exact (foldPage_ok hfold).1
        | label name => rw [(Prod.mk.inj (Except.ok.inj hslot)).1]
      | _ => cases hfit
    rw [formOf_page hf hslots hop]
    exact ⟨hassigned, hlength⟩
  · have hstored := Form.map_fst_stored hf hadmits
    have hop := fillSlots_opcode (by rwa [hstored]) (fillSlots_stored hf hadmits hfill)
    rw [hop, formOf_opcode hf]
    exact ⟨hassigned, hlength⟩

end Mcs51.Instruction

namespace Mcs51.Object

open Instruction Source

/-! ### Entries in a row -/

/-- Each entry has the address after that of the entry before it. -/
def Consecutive (es : List Entry) : Prop :=
  es.IsChain fun e f => f.addr.toNat = e.addr.toNat + 1

theorem consecutive_placeFrom : ∀ {cs : List Cell} {n : Nat}, n + cs.length ≤ 65536 →
    Consecutive (placeFrom n cs)
  | [], _, _ => .nil
  | [c], _, _ => .singleton _
  | c :: d :: cs, n, h => by
    have hlen : (c :: d :: cs).length = cs.length + 2 := rfl
    have hrest : Consecutive (placeFrom (n + 1) (d :: cs)) :=
      consecutive_placeFrom (by rw [List.length_cons]; omega)
    refine List.IsChain.cons_cons ?_ hrest
    show (UInt16.ofNat (n + 1)).toNat = (UInt16.ofNat n).toNat + 1
    rw [UInt16.toNat_ofNat', UInt16.toNat_ofNat']
    omega

namespace Session

/-- The session after calls, whether they succeed or not. -/
def after (s : Session) (calls : List (List Text)) : Session :=
  calls.foldl (fun s lines => (s.feed lines).1) s

/-- What holds of a session at all times. -/
structure Consistent (s : Session) : Prop where
  counter : s.counter ≤ 65536
  idents : ∀ p ∈ s.symbols, p.1.isIdent = true
  once : (s.symbols.map Prod.fst).Nodup

/-- What one line may do to a session, taken or not: it adds entries in a row and symbols, and keeps
all that is there. -/
structure Advances (s t : Session) : Prop where
  entries : ∃ new, t.entries.toList = s.entries.toList ++ new ∧ Consecutive new
  symbols : s.symbols <+: t.symbols
  consistent : t.Consistent

/-! ### One line -/

theorem Advances.refl {s : Session} (h : s.Consistent) : s.Advances s :=
  ⟨⟨[], by simp, .nil⟩, List.prefix_rfl, h⟩

/-- A label adds at most one symbol, and a new one. -/
theorem define_keeps {s : Session} (h : s.Consistent) (name : Text) :
    (s.define name).1.entries = s.entries ∧ s.symbols <+: (s.define name).1.symbols ∧
      (s.define name).1.Consistent := by
  unfold define
  split_ifs with hident hold
  · exact ⟨rfl, List.prefix_rfl, h⟩
  · exact ⟨rfl, List.prefix_rfl, h⟩
  · cases ha : s.addr? with
    | none => exact ⟨rfl, List.prefix_rfl, h⟩
    | some a =>
      have hident : name.isIdent = true := by simpa using hident
      have hnew : name ∉ s.symbols.map Prod.fst := by
        have hnone := List.lookup_eq_none_iff.mp (Option.not_isSome_iff_eq_none.mp hold)
        intro hmem
        obtain ⟨p, hp, rfl⟩ := List.mem_map.mp hmem
        simpa using hnone p hp
      refine ⟨rfl, List.prefix_append _ _, h.counter, fun p hp => ?_, ?_⟩
      · rcases List.mem_append.mp hp with hp | hp
        · exact h.idents p hp
        · rw [List.mem_singleton.mp hp]
          exact hident
      · show ((s.symbols ++ [(name, a)]).map Prod.fst).Nodup
        rw [List.map_append, List.map_singleton, ← List.concat_eq_append]
        exact List.Nodup.concat hnew h.once

/-- Cells are added one after the other, up to the last address. -/
theorem emitAll_keeps : ∀ (cs : List Cell) {s : Session}, s.counter ≤ 65536 →
    ∃ k, s.counter + k ≤ 65536 ∧ (s.emitAll cs).1.counter = s.counter + k ∧
      (s.emitAll cs).1.entries.toList = s.entries.toList ++ placeFrom s.counter (cs.take k) ∧
      (s.emitAll cs).1.symbols = s.symbols
  | [], s, h => ⟨0, h, rfl, by simp [emitAll, placeFrom], rfl⟩
  | c :: cs, s, h => by
    by_cases hroom : s.counter < 65536
    · have hemit : s.emit c = ({ s with
          entries := s.entries.push ⟨UInt16.ofNat s.counter, c⟩
          counter := s.counter + 1 }, none) := by
        simp only [emit, addr?, if_pos hroom]
      obtain ⟨k, hk, hcounter, hentries, hsymbols⟩ := emitAll_keeps cs (s := (s.emit c).1)
        (by rw [hemit]; exact hroom)
      have hall : s.emitAll (c :: cs) = (s.emit c).1.emitAll cs := by
        simp only [emitAll, walk, hemit]
      rw [hall]
      rw [hemit] at hk hcounter hentries hsymbols ⊢
      refine ⟨k + 1, by simp only at hk; omega, by rw [hcounter]; simp only; omega, ?_, hsymbols⟩
      rw [hentries, Array.toList_push, List.take_succ_cons, placeFrom, List.append_assoc,
        List.singleton_append]
    · have hall : (s.emitAll (c :: cs)).1 = s := by
        simp only [emitAll, walk, emit, addr?, if_neg hroom]
      rw [hall]
      exact ⟨0, h, rfl, by simp [placeFrom], rfl⟩

theorem advances_emitAll {s : Session} (h : s.Consistent) (cs : List Cell) :
    s.Advances (s.emitAll cs).1 := by
  obtain ⟨k, hk, hcounter, hentries, hsymbols⟩ := emitAll_keeps cs h.counter
  have hlen : (cs.take k).length ≤ k := by rw [List.length_take]; omega
  refine ⟨⟨_, hentries, consecutive_placeFrom (by omega)⟩, hsymbols ▸ List.prefix_rfl, ?_⟩
  exact ⟨by omega, by rw [hsymbols]; exact h.idents, by rw [hsymbols]; exact h.once⟩

theorem advances_act {s : Session} (h : s.Consistent) (action : Action) :
    s.Advances (s.act action).1 := by
  cases action with
  | nothing => exact .refl h
  | origin arg =>
    unfold act setOrigin
    simp only
    split
    · exact .refl h
    · next a _ =>
      have hcounter : a.toNat ≤ 65536 := Nat.le_of_lt a.toNat_lt
      exact ⟨⟨[], by simp [note], .nil⟩, List.prefix_rfl, hcounter, h.idents, h.once⟩
  | instruction code =>
    unfold act encode
    simp only
    split
    · exact .refl h
    · split
      · exact .refl h
      · obtain ⟨hentries, hsymbols, hafter⟩ :=
          advances_emitAll (s := s.note _) ⟨h.counter, h.idents, h.once⟩ _
        exact ⟨hentries, hsymbols, hafter⟩

theorem advances_perform {s : Session} (h : s.Consistent) (st : Statement) :
    s.Advances (s.perform st).1 := by
  unfold perform
  split
  · exact advances_act h st.action
  · next name _ =>
    obtain ⟨hentries, hsymbols, hconsistent⟩ := define_keeps h name
    split
    · next t ht =>
      rw [ht] at hentries hsymbols hconsistent
      obtain ⟨⟨new, hnew, hrow⟩, hmore, hafter⟩ := advances_act hconsistent st.action
      exact ⟨⟨new, by rw [hnew, hentries], hrow⟩, hsymbols.trans hmore, hafter⟩
    · next t e ht =>
      rw [ht] at hentries hsymbols hconsistent
      have hsame : t.entries = s.entries := hentries
      exact ⟨⟨[], by simp [hsame], .nil⟩, hsymbols, hconsistent⟩

/-- **What one line may do to a session**, whether it is taken or not. -/
theorem advances_step {s : Session} (h : s.Consistent) (line : Text) :
    s.Advances (s.step line).1 := by
  unfold step
  split
  · exact ⟨⟨[], by simp, .nil⟩, List.prefix_rfl, h.counter, h.idents, h.once⟩
  · exact ⟨⟨[], by simp, .nil⟩, List.prefix_rfl, h.counter, h.idents, h.once⟩
  · next stack _ =>
    have hobey : s.Advances ({ s with stack := stack }.obey line).1 := by
      unfold obey
      split
      · exact ⟨⟨[], by simp, .nil⟩, List.prefix_rfl, h.counter, h.idents, h.once⟩
      · next st _ =>
        obtain ⟨hentries, hsymbols, hafter⟩ :=
          advances_perform (s := { s with stack := stack }) ⟨h.counter, h.idents, h.once⟩ st
        exact ⟨hentries, hsymbols, hafter⟩
    split <;> next ht => rwa [ht] at hobey

/-! ### Calls -/

/-- A later state of a session: what was there is there still, in its place. -/
structure Extends (s t : Session) : Prop where
  entries : s.entries.toList <+: t.entries.toList
  symbols : s.symbols <+: t.symbols

theorem Advances.extends {s t : Session} (h : s.Advances t) : s.Extends t := by
  obtain ⟨⟨new, hnew, -⟩, hsymbols, -⟩ := h
  exact ⟨⟨new, hnew.symm⟩, hsymbols⟩

theorem Extends.refl (s : Session) : s.Extends s := ⟨List.prefix_rfl, List.prefix_rfl⟩

theorem Extends.trans {s t u : Session} (h : s.Extends t) (h' : t.Extends u) : s.Extends u :=
  ⟨h.entries.trans h'.entries, h.symbols.trans h'.symbols⟩

/-- Lines keep a session consistent and only add to it, up to where they stop. -/
theorem extends_walk {s : Session} (h : s.Consistent) (lines : List Text) :
    s.Extends (walk step s lines).1 ∧ (walk step s lines).1.Consistent := by
  refine walk_invariant (P := fun t : Session => s.Extends t ∧ t.Consistent) ?_ lines ⟨.refl s, h⟩
  rintro t line ⟨hext, ht⟩
  have hline := advances_step ht line
  exact ⟨hext.trans hline.extends, hline.consistent⟩

/-- A call leaves the session where its last line did. -/
theorem feed_fst (s : Session) (lines : List Text) :
    (s.feed lines).1 = (walk step s lines).1 := by
  unfold feed
  split
  · next t ht => split_ifs <;> rw [ht]
  · next t e ht => rw [ht]

/-- **What calls keep**, whether they succeed or not. -/
theorem extends_after : ∀ (calls : List (List Text)) {s : Session}, s.Consistent →
    s.Extends (s.after calls) ∧ (s.after calls).Consistent
  | [], s, h => ⟨.refl s, h⟩
  | lines :: calls, s, h => by
    obtain ⟨hfirst, hs⟩ := extends_walk h lines
    rw [← feed_fst] at hfirst hs
    obtain ⟨hrest, hafter⟩ := extends_after calls hs
    exact ⟨hfirst.trans hrest, hafter⟩

theorem consistent_start (file : Text) (origin : UInt16) : (start file origin).Consistent :=
  ⟨Nat.le_of_lt origin.toNat_lt, by simp [start], by simp [start]⟩

end Session

/-! ### Calls that succeed -/

/-- The instruction on a line, if there is one: what follows the label, unless that is nothing or an
origin. -/
def instruction? (line : Text) : Option Text :=
  match Marker.ofLine? line, Statement.ofLine? line with
  | none, some ⟨_, .instruction code⟩ => some code
  | _, _ => none

/-- The entries of an instruction: its opcode comes first, and there is one entry for each byte that
the opcode asks for. -/
def IsInstruction (code : Text) (es : List Entry) : Prop :=
  ∃ addr e rest, assemble code addr = .ok e ∧ es = ⟨addr, .byte e.opcode⟩ :: rest ∧
    (formOf e.opcode).isAssigned = true ∧ es.length = (formOf e.opcode).length

theorem isInstruction_entries {code : Text} {n : Nat} {e : Encoding} (pos : Pos)
    (h : assemble code (UInt16.ofNat n) = .ok e) :
    IsInstruction code (Placement.mk code pos n e).entries := by
  obtain ⟨hassigned, hlength⟩ := length_of_assemble h
  refine ⟨UInt16.ofNat n, e, placeFrom (n + 1) (e.fields.flatMap (fieldCells pos)), h, rfl,
    hassigned, ?_⟩
  rw [Placement.entries, length_placeFrom, length_cells, hlength]

/-- A line that is taken adds the entries of its instruction, if it has one. -/
theorem Takes.instructions {s t : Session} {line : Text} {new : List Placement}
    (h : Takes s line t new) :
    List.Forall₂ IsInstruction (instruction? line).toList (new.map Placement.entries) := by
  cases h with
  | marker step counter symbols entries =>
    obtain ⟨m, hm⟩ := FileStack.marked_of_step step
    simp [instruction?, hm]
  | @statement st _ step reads defines acts entries =>
    have hm := FileStack.unmarked_of_step step
    obtain ⟨label, action⟩ := st
    generalize t.counter = n at acts
    cases acts with
    | nothing => simp [instruction?, hm, reads]
    | origin spells => simp [instruction?, hm, reads]
    | instruction encodes room =>
      simp only [instruction?, hm, reads, Option.toList_some, List.map_cons, List.map_nil]
      exact .cons (isInstruction_entries _ encodes) .nil

/-- Lines that are taken add the entries of their instructions, one after the other. -/
theorem Run.instructions {s t : Session} {lines : List Text} {ps : List Placement}
    (h : Run s lines t ps) :
    List.Forall₂ IsInstruction (lines.filterMap instruction?) (ps.map Placement.entries) := by
  induction h with
  | nil => exact .nil
  | @cons s t u line lines new more takes rest ih =>
    have hlines : (line :: lines).filterMap instruction? =
        (instruction? line).toList ++ lines.filterMap instruction? := by
      rw [List.filterMap_cons]
      cases instruction? line <;> rfl
    rw [hlines, List.map_append]
    exact List.rel_append takes.instructions ih

/-- **A session stays consistent.** Take a session after any calls, succeeded or not. Its location
counter is at most `65536`, and its symbols are identifiers, each there once. Further calls keep its
entries and symbols and add to them only. A line of another call, taken or not, adds entries at
addresses that follow one another. And a call that succeeds adds for each of its instruction lines
as many entries as the opcode of the instruction asks for, the opcode first. -/
theorem session_stays_consistent (file : Text) (origin : UInt16) (calls more : List (List Text))
    (lines : List Text) :
    let s := (Session.start file origin).after calls
    s.Consistent ∧ s.Extends (s.after more) ∧
      (∀ before line rest u, lines = before ++ line :: rest →
        walk Session.step s before = (u, none) → u.Advances (u.step line).1) ∧
      ∀ t, s.feed lines = (t, none) → ∃ chunks,
        t.entries.toList = s.entries.toList ++ chunks.flatten ∧
        List.Forall₂ IsInstruction (lines.filterMap instruction?) chunks := by
  intro s
  have hs : s.Consistent :=
    (Session.extends_after calls (Session.consistent_start file origin)).2
  refine ⟨hs, (Session.extends_after more hs).1, ?_, ?_⟩
  · intro before line rest u _ hu
    have hbefore := (Session.extends_walk hs before).2
    rw [hu] at hbefore
    exact Session.advances_step hbefore line
  · intro t ht
    obtain ⟨ps, hrun⟩ := run_of_walk (Session.walk_of_feed ht)
    refine ⟨ps.map Placement.entries, ?_, hrun.instructions⟩
    rw [hrun.entries_eq, List.flatMap_def]

/-- A call fails within an instruction that starts two before the end, after its label. The next
call goes on with the label and the bytes there, and adds the one byte of its instruction. -/
theorem session_stays_consistent_past_the_end :
    let calls := ["top: LJMP top".toList] :: []
    let lines := [".org 10".toList, "back: RET".toList]
    let s := (Session.start "m.asm".toList 0xFFFE).after calls
    s.counter = 65536 ∧ s.symbols = [("top".toList, 0xFFFE)] ∧ s.entries.size = 2 ∧
      s.Consistent ∧ s.Extends (s.after [lines]) ∧
      (s.step ".org 10".toList).1.Advances ((s.step ".org 10".toList).1.step "back: RET".toList).1 ∧
      lines.filterMap instruction? = ["RET ".toList] ∧
      ∃ chunks, (s.feed lines).1.entries.toList = s.entries.toList ++ chunks.flatten ∧
        List.Forall₂ IsInstruction (lines.filterMap instruction?) chunks := by
  intro calls lines s
  obtain ⟨hconsistent, hextends, hline, hcall⟩ :=
    session_stays_consistent "m.asm".toList 0xFFFE calls [lines] lines
  exact ⟨by decide, by decide, by decide, hconsistent, hextends,
    hline [".org 10".toList] "back: RET".toList [] _ rfl (Prod.ext rfl (by decide)),
    by decide, hcall (s.feed lines).1 (Prod.ext rfl (by decide))⟩

end Mcs51.Object
