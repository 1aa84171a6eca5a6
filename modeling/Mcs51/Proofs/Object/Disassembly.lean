import Mcs51.Proofs.Object.Stream
import Mcs51.Proofs.Source.Position

/-! # The image reads back as the source

`Disassembles` reads an image line by line, next to the source it was made from. A location counter
goes along: it moves to the address of an origin, and past the bytes of each instruction. The bytes
of an instruction come off the front of the image; they stand at consecutive addresses from the
counter on, and they are the instruction on the line (`Instruction.Reads`). A label on a line names
the address at the counter.

Main statement: `image_disassembles`, whatever both passes make of a source disassembles to it. -/

namespace Mcs51.Object

open Instruction Source

/-- A label, if there is one, names the address at the location counter. -/
def Names (symbols : Table Text UInt16) (n : Nat) : Option Text → Prop
  | none => True
  | some name => n < 65536 ∧ symbols.lookup name = some (UInt16.ofNat n)

/-- The image, read from a location counter on, is what the lines say. -/
inductive Disassembles (symbols : Table Text UInt16) : Nat → List Text → Image → Prop
  | done {n : Nat} : Disassembles symbols n [] []
  | marker {n : Nat} {line : Text} {lines : List Text} {image : Image} {m : Marker}
      (marks : Marker.ofLine? line = some m) (rest : Disassembles symbols n lines image) :
      Disassembles symbols n (line :: lines) image
  | nothing {n : Nat} {line : Text} {lines : List Text} {image : Image} {label : Option Text}
      (unmarked : Marker.ofLine? line = none)
      (states : Statement.ofLine? line = some ⟨label, .nothing⟩) (names : Names symbols n label)
      (rest : Disassembles symbols n lines image) :
      Disassembles symbols n (line :: lines) image
  | origin {n : Nat} {line arg : Text} {a : UInt16} {lines : List Text} {image : Image}
      {label : Option Text} (unmarked : Marker.ofLine? line = none)
      (states : Statement.ofLine? line = some ⟨label, .origin arg⟩) (names : Names symbols n label)
      (spells : arg.readHex? = some a) (rest : Disassembles symbols a.toNat lines image) :
      Disassembles symbols n (line :: lines) image
  | instruction {n : Nat} {line code : Text} {op : UInt8} {args : List UInt8} {lines : List Text}
      {image : Image} {label : Option Text} (unmarked : Marker.ofLine? line = none)
      (states : Statement.ofLine? line = some ⟨label, .instruction code⟩)
      (names : Names symbols n label) (reads : Reads symbols n code op args)
      (room : n + (1 + args.length) ≤ 65536)
      (rest : Disassembles symbols (n + (1 + args.length)) lines image) :
      Disassembles symbols n (line :: lines) (placeBytes n (op :: args) ++ image)

theorem lookup_of_isPrefix {symbols symbols' : Table Text UInt16} {name : Text} {a : UInt16}
    (h : symbols <+: symbols') (hl : symbols.lookup name = some a) :
    symbols'.lookup name = some a := by
  obtain ⟨more, rfl⟩ := h
  rw [List.lookup_append, hl, Option.some_or]

/-- A label that is defined names its address from then on. -/
theorem Defines.names {n : Nat} {symbols symbols' final : Table Text UInt16} {label : Option Text}
    (h : Defines n symbols label symbols') (hf : symbols' <+: final) : Names final n label := by
  cases h with
  | none => trivial
  | some ident new room =>
    refine ⟨room, lookup_of_isPrefix hf ?_⟩
    rw [List.lookup_append, new]
    simp

theorem Run.disassembles {symbols : Table Text UInt16} {s t : Session} {lines : List Text}
    {ps : List Placement} (h : Run s lines t ps) : ∀ {image : Image}, t.symbols <+: symbols →
    Resolves symbols (ps.flatMap Placement.entries) image →
    Disassembles symbols s.counter lines image := by
  induction h with
  | nil =>
    intro image _ hres
    cases hres
    exact .done
  | @cons s u t line lines new more takes rest ih =>
    intro image hsub hres
    rw [List.flatMap_append] at hres
    cases takes with
    | marker step counter symbols entries =>
      obtain ⟨m, hm⟩ := FileStack.marked_of_step step
      exact .marker hm (counter ▸ ih hsub hres)
    | @statement st _ step reads defines acts entries =>
      have hm := FileStack.unmarked_of_step step
      have hnames := defines.names (rest.subtable.trans hsub)
      obtain ⟨label, action⟩ := st
      generalize u.counter = n at acts ih
      cases acts with
      | nothing => exact .nothing hm reads hnames (ih hsub hres)
      | origin spells => exact .origin hm reads hnames spells (ih hsub hres)
      | instruction encodes room =>
        rw [List.flatMap_singleton] at hres
        obtain ⟨op, args, image', rfl, hb, hres⟩ := resolves_placement encodes rest.stream hres
        rw [hb.length] at room ih
        exact .instruction hm reads hnames (reads_of_assemble encodes hb) room (ih hsub hres)

/-- **The image is the source.** If both passes succeed, the bytes they give disassemble to the
lines: one chunk for each instruction, in the order of the lines and at the location counter of its
line, and each chunk is the instruction on its line. -/
theorem image_disassembles {file : Text} {origin : UInt16} {lines : List Text} {s : Session}
    {image : Image} (hfeed : (Session.start file origin).feed lines = (s, none))
    (hlink : link s.symbols s.entries.toList = .ok image) :
    Disassembles s.symbols origin.toNat lines image := by
  obtain ⟨ps, hrun⟩ := run_of_walk (Session.walk_of_feed hfeed)
  have hentries : s.entries.toList = ps.flatMap Placement.entries := by
    rw [hrun.entries_eq]
    rfl
  rw [hentries] at hlink
  exact hrun.disassembles List.prefix_rfl (link_ok hrun.stream hlink)

/-- A source with a move that keeps its operands in the opposite order, an origin, an included file
and jumps both ways. -/
def loopLines : List Text :=
  ["loop: MOV 30,P1 ; copy".toList, ".org 0800".toList, "» a.inc :start".toList,
    " sjmp near".toList, "near: ljmp loop".toList, "» a.inc :end".toList]

/-- The image of `loopLines` from address `10` on. -/
def loopImage : Image :=
  [(0x10, 0x85), (0x11, 0x90), (0x12, 0x30), (0x800, 0x80), (0x801, 0x00), (0x802, 0x02),
    (0x803, 0x00), (0x804, 0x10)]

theorem image_disassembles_loop :
    ∃ s, (Session.start "main.asm".toList 0x10).feed loopLines = (s, none) ∧
      link s.symbols s.entries.toList = .ok loopImage ∧
      Disassembles s.symbols 0x10 loopLines loopImage := by
  have hdone : ((Session.start "main.asm".toList 0x10).feed loopLines).2 = none := by
    decide +kernel
  have hlink : link ((Session.start "main.asm".toList 0x10).feed loopLines).1.symbols
      ((Session.start "main.asm".toList 0x10).feed loopLines).1.entries.toList = .ok loopImage := by
    decide +kernel
  generalize hfeed : (Session.start "main.asm".toList 0x10).feed loopLines = fed at *
  obtain ⟨s, stop⟩ := fed
  cases hdone
  exact ⟨s, rfl, hlink, image_disassembles hfeed hlink⟩

end Mcs51.Object
