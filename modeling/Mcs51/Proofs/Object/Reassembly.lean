import Mcs51.Proofs.Instruction.Listing
import Mcs51.Proofs.Object.Stream
import Mcs51.Proofs.Source.Sign

/-! # A listing assembles to its program

A program is a list of instructions that stand in memory one after the other from an address on.
Its listing has a line for each of them (`Lists`). A first pass takes such a line and places the
bytes of its instruction at the location counter (`step_rendered`); since all of them are known by
then, the second pass has nothing to fill in (`link_bytes`).

Main statement: `listing_reassembles`, both passes go through and give the bytes of the program, as
long as it does not run past the last address. -/

namespace Mcs51.Object

open Instruction Source

/-! ### Statements -/

section Line

variable {word : Text} {tokens : List Text} (hword : IsPrinted word)
  (htokens : ∀ t ∈ tokens, IsPrinted t)

include hword htokens

theorem notMem_lineOf {d : Char} (hd : d ∈ [';', ':', markerSign]) : d ∉ lineOf word tokens := by
  have hsigns : [';', ':', markerSign].all
      (fun d => d != ' ' && d != ',' && !isPrinted d) = true := by
    decide
  have hd := List.all_eq_true.mp hsigns d hd
  simp only [Bool.and_eq_true, bne_iff_ne, Bool.not_eq_true'] at hd
  obtain ⟨⟨hblank, hcomma⟩, hprinted⟩ := hd
  intro hmem
  rcases mem_lineOf hword htokens hmem with h | h | h
  · exact hblank h
  · exact hcomma h
  · simp [hprinted] at h

/-- A mnemonic and its operands make a statement without label. -/
theorem statement_lineOf (hdot : word.head? ≠ some '.') :
    Statement.ofLine? (lineOf word tokens) =
      some ⟨none, .instruction (lineOf word tokens).collapse⟩ := by
  have hcode : (lineOf word tokens).code = lineOf word tokens := by
    refine List.takeWhile_eq_self_iff.mpr fun c hc => ?_
    rw [bne_iff_ne]
    rintro rfl
    exact notMem_lineOf hword htokens (by simp) hc
  have hsign : (lineOf word tokens).head? ≠ some markerSign := fun h =>
    notMem_lineOf hword htokens (by simp) (List.mem_of_head? h)
  have hlabel : Text.find? [':'] (lineOf word tokens) = none :=
    Text.find?_eq_none_of_notMem (by decide) (notMem_lineOf hword htokens (by simp))
  have hne : (lineOf word tokens).isEmpty = false := by
    unfold lineOf
    split_ifs <;> simp [hword.1]
  have horigin : Statement.originWord.leads (lineOf word tokens).collapse = false := by
    rw [collapse_lineOf hword htokens]
    obtain ⟨c, w, rfl⟩ := List.exists_cons_of_ne_nil hword.1
    have hc : c ≠ '.' := fun h => hdot (by simp [h])
    have hword : Statement.originWord = '.' :: "org".toList := rfl
    rw [Bool.eq_false_iff, Ne, List.cons_append, hword, Text.leads_cons_cons]
    exact fun h => hc ((Text.toUpper_eq_iff (by decide)).mp h.1)
  unfold Statement.ofLine?
  rw [hcode, trim_lineOf hword htokens, if_neg hsign, Statement.ofCode, hlabel]
  simp [Statement.actionOf, hne, horigin]

end Line

/-! ### The first pass -/

namespace Session

/-- There is an address for each cell up to the last address. -/
theorem emitAll_of_room : ∀ (cs : List Cell) (s : Session), s.counter + cs.length ≤ 65536 →
    ∃ t, s.emitAll cs = (t, none)
  | [], s, _ => ⟨s, rfl⟩
  | c :: cs, s, room => by
    rw [List.length_cons] at room
    have ha : s.addr? = some (UInt16.ofNat s.counter) := if_pos (by omega)
    have hemit : ∃ u, s.emit c = (u, none) ∧ u.counter = s.counter + 1 := by
      rw [emit, ha]
      exact ⟨_, rfl, rfl⟩
    obtain ⟨u, hemit, hcounter⟩ := hemit
    obtain ⟨t, ht⟩ := emitAll_of_room cs u (by omega)
    exact ⟨t, walk_cons_eq_none.mpr ⟨u, hemit, ht⟩⟩

/-- An instruction of known bytes is placed at the location counter. -/
theorem encode_bytes {s : Session} {code : Text} {op : UInt8} {args : List UInt8}
    (h : assemble code (UInt16.ofNat s.counter) = .ok ⟨op, args.map .byte⟩)
    (room : s.counter + (op :: args).length ≤ 65536) :
    ∃ t, s.encode code = (t, none) ∧ t.counter = s.counter + (op :: args).length ∧
      t.stack = s.stack ∧
      t.entries.toList = s.entries.toList ++ placeFrom s.counter ((op :: args).map .byte) := by
  have ha : s.addr? = some (UInt16.ofNat s.counter) :=
    if_pos (by rw [List.length_cons] at room; omega)
  have hcells (pos : Pos) : cells ⟨op, args.map .byte⟩ pos = (op :: args).map .byte := by
    rw [List.map_cons, List.map_eq_flatMap (f := Cell.byte), cells, List.flatMap_map]
    rfl
  unfold encode
  simp only [ha, h, hcells]
  obtain ⟨t, ht⟩ := emitAll_of_room ((op :: args).map .byte) (s.note _)
    (by rw [List.length_map]; exact room)
  obtain ⟨-, hcounter, hentries, hstack, -⟩ := emitAll_ok ht
  rw [List.length_map] at hcounter
  exact ⟨t, ht, hcounter, hstack, hentries⟩

/-- **A line of a listing** places its instruction at the location counter. -/
theorem step_rendered {s : Session} {c : MachineCode} {line : Text} (h : Renders s.counter c line)
    (room : s.counter + c.bytes.length ≤ 65536) :
    ∃ t, s.step line = (t, none) ∧ t.counter = s.counter + c.bytes.length ∧
      t.stack.depth = s.stack.depth ∧
      t.entries.toList = s.entries.toList ++ placeFrom s.counter (c.bytes.map .byte) := by
  have hassemble := assemble_rendered h
  obtain ⟨tokens, hspelled, rfl⟩ := h
  have hword := isPrinted_name c.form.mnemonic
  have htokens := isPrinted_tokens hspelled
  have hstatement := statement_lineOf hword htokens (by cases c.form.mnemonic <;> decide)
  have hunmarked : Marker.ofLine? (lineOf c.form.mnemonic.name tokens) = none :=
    SignFree.unmarked (notMem_lineOf hword htokens (by simp))
  obtain ⟨t, hencode, hcounter, hstack, hentries⟩ :=
    encode_bytes (s := { s with stack := s.stack.count }) hassemble room
  refine ⟨t, ?_, hcounter, by rw [hstack]; rfl, hentries⟩
  simp only [step, FileStack.step_of_unmarked hunmarked, obey, hstatement, perform, act, hencode]

end Session

/-! ### The second pass -/

theorem linkFrom_bytes (symbols : Table Text UInt16) : ∀ (bs : List UInt8) (n : Nat) (l : Linking),
    ∃ l', linkFrom symbols l (placeFrom n (bs.map .byte)) = (l', none) ∧
      l'.written = (placeBytes n bs).reverse ++ l.written
  | [], _, l => ⟨l, rfl, rfl⟩
  | b :: bs, n, l => by
    obtain ⟨l', hlink, hwritten⟩ := linkFrom_bytes symbols bs (n + 1)
      ((l.look ⟨UInt16.ofNat n, .byte b⟩).write (UInt16.ofNat n) b)
    refine ⟨l', hlink, ?_⟩
    rw [hwritten, placeBytes, List.reverse_cons, List.append_assoc]
    rfl

/-- Bytes that are known are written as they are. -/
theorem link_bytes (symbols : Table Text UInt16) (n : Nat) (bs : List UInt8) :
    link symbols (placeFrom n (bs.map .byte)) = .ok (placeBytes n bs) := by
  obtain ⟨l, hlink, hwritten⟩ := linkFrom_bytes symbols bs n ⟨[], []⟩
  rw [link, hlink]
  simp [hwritten]

/-! ### Listings -/

/-- The bytes of a program. -/
def programBytes (program : List MachineCode) : List UInt8 := program.flatMap MachineCode.bytes

/-- The lines are a listing of the program from an address on: one line for each instruction, with
the operands that it has at its address. -/
inductive Lists : Nat → List MachineCode → List Text → Prop
  | nil {n : Nat} : Lists n [] []
  | cons {n : Nat} {c : MachineCode} {line : Text} {program : List MachineCode} {lines : List Text}
      (renders : Renders n c line) (rest : Lists (n + c.bytes.length) program lines) :
      Lists n (c :: program) (line :: lines)

/-- The listing of a program with as few digits as a byte or a word needs. -/
def listing : Nat → List MachineCode → List Text
  | _, [] => []
  | n, c :: program => c.listing n :: listing (n + c.bytes.length) program

/-- Every program has a listing. -/
theorem lists_listing : ∀ (n : Nat) (program : List MachineCode),
    Lists n program (listing n program)
  | _, [] => .nil
  | n, c :: program => .cons (renders_listing n c) (lists_listing _ program)

/-- A first pass over a listing places the program at the location counter. -/
theorem Lists.walk {program : List MachineCode} {lines : List Text} {n : Nat}
    (h : Lists n program lines) : ∀ {s : Session}, s.counter = n →
    n + (programBytes program).length ≤ 65536 →
    ∃ t, Mcs51.walk Session.step s lines = (t, none) ∧ t.stack.depth = s.stack.depth ∧
      t.entries.toList =
        s.entries.toList ++ placeFrom n ((programBytes program).map .byte) := by
  induction h with
  | nil => exact fun {s} _ _ => ⟨s, rfl, rfl, by simp [programBytes, placeFrom]⟩
  | @cons n c line program lines renders rest ih =>
    rintro s rfl room
    have hbytes : programBytes (c :: program) = c.bytes ++ programBytes program :=
      List.flatMap_cons
    rw [hbytes, List.length_append] at room
    obtain ⟨u, hstep, hcounter, hdepth, hentries⟩ := Session.step_rendered renders (by omega)
    obtain ⟨t, hwalk, hdepth', hentries'⟩ := ih hcounter (by omega)
    refine ⟨t, walk_cons_eq_none.mpr ⟨u, hstep, hwalk⟩, hdepth'.trans hdepth, ?_⟩
    rw [hentries', hentries, hbytes, List.map_append, placeFrom_append, List.length_map,
      List.append_assoc]

/-- **A listing assembles to its program.** Both passes over a listing from an origin succeed, and
what they give are the bytes of the program at consecutive addresses from the origin on, if these do
not run past the last address. -/
theorem listing_reassembles (file : Text) {origin : UInt16} {program : List MachineCode}
    {lines : List Text} (h : Lists origin.toNat program lines)
    (room : origin.toNat + (programBytes program).length ≤ 65536) :
    ∃ s, (Session.start file origin).feed lines = (s, none) ∧
      link s.symbols s.entries.toList = .ok (placeBytes origin.toNat (programBytes program)) := by
  obtain ⟨s, hwalk, hdepth, hentries⟩ := h.walk (s := Session.start file origin) rfl room
  refine ⟨s, ?_, ?_⟩
  · rw [Session.feed, hwalk]
    exact if_pos hdepth
  · rw [hentries]
    exact link_bytes _ _ _

/-- A program with a jump from the end of a page, a move that keeps its operands in the opposite
order, a complemented bit, a word, a distance and an instruction without operands. -/
def mixedProgram : List MachineCode :=
  [⟨0x21, [0x05], by decide, by decide⟩, ⟨0x85, [0x90, 0x30], by decide, by decide⟩,
    ⟨0xB0, [0x2F], by decide, by decide⟩, ⟨0x90, [0x12, 0x34], by decide, by decide⟩,
    ⟨0xB7, [0xFF, 0xFE], by decide, by decide⟩, ⟨0x22, [], by decide, by decide⟩]

/-- The listing of `mixedProgram` from address `07FE` on. -/
def mixedLines : List Text :=
  ["AJMP 0905".toList, "MOV 030,090".toList, "ANL C,/02F".toList, "MOV DPTR,#01234".toList,
    "CJNE @R1,#0FF,0FE".toList, "RET".toList]

set_option maxRecDepth 4000 in
theorem listing_reassembles_mixed : Lists 0x7FE mixedProgram mixedLines ∧
    ∃ s, (Session.start "main.asm".toList 0x7FE).feed mixedLines = (s, none) ∧
      link s.symbols s.entries.toList = .ok (placeBytes 0x7FE
        [0x21, 0x05, 0x85, 0x90, 0x30, 0xB0, 0x2F, 0x90, 0x12, 0x34, 0xB7, 0xFF, 0xFE, 0x22]) := by
  have hlisting : listing 0x7FE mixedProgram = mixedLines := by decide
  have hlists : Lists 0x7FE mixedProgram mixedLines := hlisting ▸ lists_listing _ _
  exact ⟨hlists, @listing_reassembles "main.asm".toList 0x7FE _ _ hlists (by decide)⟩

end Mcs51.Object
