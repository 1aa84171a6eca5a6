import Mcs51.Proofs.Object.Replay

/-! # Numbers for labels

A jump to a label and a load of its address may as well be written with the number that the label
stands for. The two take different ways through the assembler. A number is encoded in the first
pass, which also refuses a jump out of its page; a label is left open there, and the second pass
fills it in or refuses it. `stands_of_numbered` compares the two for one instruction: either both
become the same bytes or neither becomes any.

An instruction can be exchanged for one that becomes the same bytes (`exchange_line`), so a source
and its numbered form come to the same.

Main statement: `twoPasses_numbered`. -/

namespace Mcs51.Instruction

/-! ### Two ways to write an instruction -/

/-- The second tokens are the first with a number in place of a label: for the target of a jump or a
call within a page or anywhere, or for the word that goes to the data pointer. -/
inductive Numbered (name : Text) (target : UInt16) : List Text → List Text → Prop
  | jump {word : Text} {m : Mnemonic} (spells : Mnemonic.ofText? word = some m)
      (jumps : m ∈ [Mnemonic.ajmp, .acall, .ljmp, .lcall])
      (label : classify name = .ok (.address (.label name))) :
      Numbered name target [word, name] [word, '0' :: Text.hexWord target]
  | pointer {word dptr : Text} (spells : Mnemonic.ofText? word = some .mov)
      (points : classify dptr = .ok .dataPointer)
      (label : classify ('#' :: name) = .ok (.immediate (.label name))) :
      Numbered name target [word, dptr, '#' :: name] [word, dptr, '#' :: '0' :: Text.hexWord target]

/-- An instruction stands for an encoding at an address: it can be encoded if the encoding becomes
any bytes, and then takes up as many bytes and becomes the same ones. -/
structure Stands (symbols : Table Text UInt16) (n : Nat) (code : Text) (e : Encoding) : Prop where
  encodes : ∀ op args, e.Becomes symbols n op args → ∃ e', assemble code (UInt16.ofNat n) = .ok e'
  length : ∀ e', assemble code (UInt16.ofNat n) = .ok e' → e'.length = e.length
  becomes : ∀ e', assemble code (UInt16.ofNat n) = .ok e' →
    ∀ op args, e'.Becomes symbols n op args ↔ e.Becomes symbols n op args

variable {symbols : Table Text UInt16}

theorem classify_hexWord (t : UInt16) :
    classify ('0' :: Text.hexWord t) = .ok (.address (.const t)) :=
  Operand.Spelled.classify ⟨t, rfl, Text.isLiteral_hex 4 t.toNat⟩

theorem classify_immediate_hexWord (t : UInt16) :
    classify ('#' :: '0' :: Text.hexWord t) = .ok (.immediate (.const t)) :=
  Operand.Spelled.classify ⟨t, _, rfl, rfl, Text.isLiteral_hex 4 t.toNat⟩

/-! ### Words -/

theorem becomes_word {n : Nat} {op op' : UInt8} {v : Value} {t : UInt16} {args : List UInt8}
    (hv : v.resolve symbols = some t) :
    Encoding.Becomes symbols n ⟨op, wordFields v⟩ op' args ↔
      op' = op ∧ args = [highByte t, lowByte t] := by
  cases v with
  | const w =>
    obtain rfl : w = t := Option.some.inj hv
    constructor
    · intro h
      cases h with | plain written =>
        cases written with | byte rest =>
          cases rest with | byte rest =>
            cases rest
            exact ⟨rfl, rfl⟩
    · rintro ⟨rfl, rfl⟩
      exact .plain (.byte (.byte .nil))
  | label name =>
    have hname : symbols.lookup name = some t := hv
    constructor
    · intro h
      generalize hfields : wordFields (.label name) = fields at h
      cases h with
      | plain written =>
        subst hfields
        cases written with | absolute found rest =>
          cases rest
          rw [hname] at found
          obtain rfl := Option.some.inj found
          exact ⟨rfl, rfl⟩
      | page found folded => simp [wordFields] at hfields
    · rintro ⟨rfl, rfl⟩
      exact .plain (.absolute hname .nil)

/-- A word is the same, given by its number or by a label. -/
theorem stands_of_word {n : Nat} {code : Text} {op : UInt8} {name : Text} {t : UInt16}
    (hname : symbols.lookup name = some t)
    (h : assemble code (UInt16.ofNat n) = .ok ⟨op, wordFields (.const t)⟩) :
    Stands symbols n code ⟨op, wordFields (.label name)⟩ := by
  refine ⟨fun _ _ _ => ⟨_, h⟩, fun e' he => ?_, fun e' he op' args => ?_⟩ <;>
    obtain rfl := Except.ok.inj (h.symm.trans he)
  · rfl
  · rw [becomes_word rfl, becomes_word (v := .label name) hname]

/-! ### Pages -/

theorem becomes_pageLabel {n : Nat} {op op' : UInt8} {name : Text} {t : UInt16}
    {args : List UInt8} (hname : symbols.lookup name = some t) :
    Encoding.Becomes symbols n ⟨op, [.label name .page]⟩ op' args ↔
      foldPage op (UInt16.ofNat n + 2) t = .ok op' ∧ args = [lowByte t] := by
  constructor
  · intro h
    cases h with
    | plain written => cases written
    | page found folded =>
      rw [hname] at found
      obtain rfl := Option.some.inj found
      exact ⟨folded, rfl⟩
  · rintro ⟨hfold, rfl⟩
    exact .page hname hfold

theorem becomes_byte {n : Nat} {op op' b : UInt8} {args : List UInt8} :
    Encoding.Becomes symbols n ⟨op, [.byte b]⟩ op' args ↔ op' = op ∧ args = [b] := by
  constructor
  · intro h
    cases h with | plain written =>
      cases written with | byte rest =>
        cases rest
        exact ⟨rfl, rfl⟩
  · rintro ⟨rfl, rfl⟩
    exact .plain (.byte .nil)

/-- A jump within a page is the same to a number and to a label, and as impossible if the target is
in another page. -/
theorem stands_of_page {n : Nat} {code : Text} {op : UInt8} {name : Text} {t : UInt16}
    (hname : symbols.lookup name = some t)
    (h : ∀ e, assemble code (UInt16.ofNat n) = .ok e ↔
      ∃ op', foldPage op (UInt16.ofNat n + 2) t = .ok op' ∧ e = ⟨op', [.byte (lowByte t)]⟩) :
    Stands symbols n code ⟨op, [.label name .page]⟩ := by
  refine ⟨fun op' args hbecomes => ?_, fun e' he => ?_, fun e' he op' args => ?_⟩
  · exact ⟨_, (h _).mpr ⟨op', ((becomes_pageLabel hname).mp hbecomes).1, rfl⟩⟩
  · obtain ⟨op', -, rfl⟩ := (h e').mp he
    rfl
  · obtain ⟨op'', hfold, rfl⟩ := (h e').mp he
    rw [becomes_byte, becomes_pageLabel hname, hfold, Except.ok.injEq, eq_comm]

/-! ### The two ways compared -/

theorem fill_word {f : Form} {operands : List Operand} {v : Value} {pc : UInt16}
    (hlength : f.length = 3) (hop : f.opcode ≠ swappedOpcode)
    (hfill : fillSlots pc f.opcode (f.slots.zip operands) = .ok (f.opcode, wordFields v)) :
    fill f operands pc = .ok ⟨f.opcode, wordFields v⟩ := by
  have hwidth : (Encoding.mk f.opcode (wordFields v)).length = f.length := by
    rw [hlength]
    cases v <;> rfl
  simp [fill, hfill, hop, hwidth]

theorem fill_pageLabel {f : Form} (hlength : f.length = 2) (hop : f.opcode ≠ swappedOpcode)
    (hf : f.slots = [.page]) (name : Text) (pc : UInt16) :
    fill f [.address (.label name)] pc = .ok ⟨f.opcode, [.label name .page]⟩ := by
  have hwidth : (Encoding.mk f.opcode [.label name .page]).length = f.length := hlength.symm
  simp [fill, fillSlots, fillSlot, hf, Except.map, hop, hwidth]

theorem fill_pageNumber {f : Form} (hlength : f.length = 2) (hop : f.opcode ≠ swappedOpcode)
    (hf : f.slots = [.page]) (t pc : UInt16) {e : Encoding} :
    fill f [.address (.const t)] pc = .ok e ↔
      ∃ op, foldPage f.opcode (pc + 2) t = .ok op ∧ e = ⟨op, [.byte (lowByte t)]⟩ := by
  have hwidth (op : UInt8) : (Encoding.mk op [.byte (lowByte t)]).length = f.length := hlength.symm
  cases hfold : foldPage f.opcode (pc + 2) t with
  | error p => simp [fill, fillSlots, fillSlot, hf, Except.map, hfold]
  | ok op => simp [fill, fillSlots, fillSlot, hf, Except.map, hfold, hop, hwidth, eq_comm]

/-- The forms of the jumps and calls that name an address of code. -/
theorem form_of_jump {m : Mnemonic} (hm : m ∈ [Mnemonic.ajmp, .acall, .ljmp, .lcall]) :
    ∃ f ∈ forms m, f.opcode ≠ swappedOpcode ∧
      (f.slots = [.page] ∧ f.length = 2 ∨ f.slots = [.absolute] ∧ f.length = 3) := by
  have hall : ∀ m ∈ [Mnemonic.ajmp, .acall, .ljmp, .lcall], ∃ f ∈ forms m,
      f.opcode ≠ swappedOpcode ∧
        (f.slots = [.page] ∧ f.length = 2 ∨ f.slots = [.absolute] ∧ f.length = 3) := by
    decide +kernel
  exact hall m hm

/-- The form of a load of the data pointer. -/
theorem form_of_pointer : ∃ f ∈ forms .mov, f.opcode ≠ swappedOpcode ∧
    f.slots = [.dataPointer, .immediateWord] ∧ f.length = 3 := by
  decide +kernel

/-- **A number in place of a label** stands for it, wherever the label is the target of a jump or
the word that goes to the data pointer. -/
theorem stands_of_numbered {n : Nat} {code code' name : Text} {t : UInt16} {e : Encoding}
    (h : Numbered name t (tokenize code) (tokenize code'))
    (hname : symbols.lookup name = some t) (he : assemble code (UInt16.ofNat n) = .ok e) :
    Stands symbols n code' e := by
  generalize htok : tokenize code = tokens, htok' : tokenize code' = tokens' at h
  cases h with
  | @jump word m spells jumps label =>
    have hclass : classifyAll [name] = .ok [.address (.label name)] := by
      simp [classifyAll, label, Except.map]
    have hclass' : classifyAll ['0' :: Text.hexWord t] = .ok [.address (.const t)] := by
      simp [classifyAll, classify_hexWord, Except.map]
    obtain ⟨f, hf, hop, ⟨hslots, hlength⟩ | ⟨hslots, hlength⟩⟩ := form_of_jump jumps
    · have hadmits (v : Value) : f.admits [.address v] = true := by
        simp [Form.admits, hslots, Operand.fits]
      rw [assemble_of_form htok spells hclass hf (hadmits _),
        fill_pageLabel hlength hop hslots] at he
      obtain rfl := Except.ok.inj he
      refine stands_of_page hname fun e => ?_
      rw [assemble_of_form htok' spells hclass' hf (hadmits _),
        fill_pageNumber hlength hop hslots]
    · have hadmits (v : Value) : f.admits [.address v] = true := by
        simp [Form.admits, hslots, Operand.fits]
      have hfill (v : Value) (pc : UInt16) :
          fill f [.address v] pc = .ok ⟨f.opcode, wordFields v⟩ :=
        fill_word hlength hop (by simp [fillSlots, fillSlot, hslots, Except.map])
      rw [assemble_of_form htok spells hclass hf (hadmits _), hfill] at he
      obtain rfl := Except.ok.inj he
      refine stands_of_word hname ?_
      rw [assemble_of_form htok' spells hclass' hf (hadmits _), hfill]
  | @pointer word dptr spells points label =>
    have hclass : classifyAll [dptr, '#' :: name] =
        .ok [.dataPointer, .immediate (.label name)] := by
      simp [classifyAll, points, label, Except.map]
    have hclass' : classifyAll [dptr, '#' :: '0' :: Text.hexWord t] =
        .ok [.dataPointer, .immediate (.const t)] := by
      simp [classifyAll, points, classify_immediate_hexWord, Except.map]
    obtain ⟨f, hf, hop, hslots, hlength⟩ := form_of_pointer
    have hadmits (v : Value) : f.admits [.dataPointer, .immediate v] = true := by
      simp [Form.admits, hslots, Operand.fits]
    have hfill (v : Value) (pc : UInt16) :
        fill f [.dataPointer, .immediate v] pc = .ok ⟨f.opcode, wordFields v⟩ :=
      fill_word hlength hop (by simp [fillSlots, fillSlot, hslots, Except.map])
    rw [assemble_of_form htok spells hclass hf (hadmits _), hfill] at he
    obtain rfl := Except.ok.inj he
    refine stands_of_word hname ?_
    rw [assemble_of_form htok' spells hclass' hf (hadmits _), hfill]

end Mcs51.Instruction

namespace Mcs51.Object

open Instruction Source

/-! ### One line for another -/

/-- **One line for another.** A line can be exchanged for one with the same label whose instruction
becomes the same bytes: the first pass goes through as before, and what it places links to the same
image. -/
theorem exchange_line {file : Text} {origin : UInt16} {before after : List Text}
    {line line' code code' : Text} {label : Option Text} {u v s : Session} {e e' : Encoding}
    {ps qs : List Placement} (hu : walk Session.step (Session.start file origin) before = (u, none))
    (hps : Run (Session.start file origin) before u ps)
    (hassemble : assemble code (UInt16.ofNat u.counter) = .ok e)
    (htakes : Takes u line v [⟨code, v.stack.pos, u.counter, e⟩]) (hqs : Run v after s qs)
    (hdepth : s.stack.depth = 0) (hst : Statement.ofLine? line = some ⟨label, .instruction code⟩)
    (hm' : Marker.ofLine? line' = none)
    (hst' : Statement.ofLine? line' = some ⟨label, .instruction code'⟩)
    (hstands : Stands s.symbols u.counter code' e)
    (hassemble' : assemble code' (UInt16.ofNat u.counter) = .ok e') :
    ∃ s', (Session.start file origin).feed (before ++ line' :: after) = (s', none) ∧
      s'.symbols = s.symbols ∧ ∀ image, link s'.symbols s'.entries.toList = .ok image ↔
        link s.symbols s.entries.toList = .ok image := by
  have hlength := hstands.length e' hassemble'
  -- the line itself
  obtain ⟨v', hv, hcounter, hstack, hsymbols, hentries⟩ : ∃ v', u.step line' = (v', none) ∧
      v'.counter = v.counter ∧ v'.stack = v.stack ∧ v'.symbols = v.symbols ∧
      v'.entries.toList = u.entries.toList ++
        (Placement.mk code' v.stack.pos u.counter e').entries := by
    cases htakes with | statement step reads defines acts entries =>
      obtain rfl := Option.some.inj (hst.symm.trans reads)
      have hcount : u.stack.count = v.stack := by
        rw [FileStack.step_of_unmarked (FileStack.unmarked_of_step step)] at step
        exact (Prod.mk.inj step).1
      have hstep : u.stack.step line' = (v.stack, .ok false) := by
        rw [FileStack.step_of_unmarked hm', hcount]
      generalize hn : v.counter = n at acts
      cases acts with | instruction encodes room =>
        obtain ⟨v', hv, hrest⟩ := Session.step_of_statement hstep hst' defines
          (.instruction hassemble' (hlength ▸ room))
        rw [hlength, List.flatMap_singleton] at hrest
        exact ⟨v', hv, hrest⟩
  obtain ⟨s', hs, hstack', hsymbols', hentries'⟩ := hqs.replay hcounter hstack hsymbols
  refine ⟨s', Session.feed_of_walk ?_ (by rw [hstack', hdepth]), hsymbols', fun image => ?_⟩
  · exact walk_append_eq_none.mpr ⟨u, hu, walk_cons_eq_none.mpr ⟨v', hv, hs⟩⟩
  -- what it places
  have hnew : s'.entries.toList = ps.flatMap Placement.entries ++
      ((Placement.mk code' v.stack.pos u.counter e').entries ++
        qs.flatMap Placement.entries) := by
    rw [hentries', hentries, hps.entries_eq]
    simp [Session.start]
  have hstream {code : Text} {e : Encoding} (h : assemble code (UInt16.ofNat u.counter) = .ok e) :
      Stream ((Placement.mk code v.stack.pos u.counter e).entries ++
        qs.flatMap Placement.entries) := stream_placement h hqs.stream
  rw [hnew, entries_of_line hps htakes hqs, hsymbols',
    link_ok_iff_resolves (hps.stream.append (hstream hassemble')),
    link_ok_iff_resolves (hps.stream.append (hstream hassemble)),
    resolves_append hps.stream (hstream hassemble'), resolves_append hps.stream (hstream hassemble)]
  simp only [resolves_placement_iff hassemble hqs.stream,
    resolves_placement_iff hassemble' hqs.stream, hstands.becomes e' hassemble']

/-- **Numbers for labels.** Let the first pass on the lines succeed and give a label an address.
Then in a jump or a call within a page or anywhere to the label, and in a load of its address into
the data pointer, the number of the address may stand for the label: both passes succeed on the new
lines exactly if they do on the old ones, with the same image and the same symbols. -/
theorem twoPasses_numbered {file : Text} {origin : UInt16} {before after : List Text}
    {line line' code code' name : Text} {label : Option Text} {s : Session} {t : UInt16}
    (hfeed : (Session.start file origin).feed (before ++ line :: after) = (s, none))
    (hname : s.symbols.lookup name = some t)
    (hm : Marker.ofLine? line = none) (hm' : Marker.ofLine? line' = none)
    (hst : Statement.ofLine? line = some ⟨label, .instruction code⟩)
    (hst' : Statement.ofLine? line' = some ⟨label, .instruction code'⟩)
    (h : Numbered name t (tokenize code) (tokenize code')) :
    twoPasses file origin (before ++ line' :: after) =
      twoPasses file origin (before ++ line :: after) := by
  obtain ⟨u, v, e, ps, qs, hu, hps, hassemble, htakes, hqs⟩ :=
    placement_of_line (Session.walk_of_feed hfeed) hm hst
  have hstands := stands_of_numbered h hname hassemble
  have hexchange {e' : Encoding} (he' : assemble code' (UInt16.ofNat u.counter) = .ok e') :=
    exchange_line hu hps hassemble htakes hqs (Session.depth_of_feed hfeed) hst hm' hst' hstands he'
  refine Option.ext fun ⟨image, symbols⟩ => ?_
  rw [twoPasses_eq_some_iff, twoPasses_eq_some_iff]
  constructor
  · rintro ⟨s', hs', rfl, hlink⟩
    obtain ⟨u', v', e', ps', qs', hu', -, hassemble', -⟩ :=
      placement_of_line (Session.walk_of_feed hs') hm' hst'
    obtain rfl : u' = u := (Prod.mk.inj (hu'.symm.trans hu)).1
    obtain ⟨s'', hs'', hsymbols, himage⟩ := hexchange hassemble'
    obtain rfl : s' = s'' := (Prod.mk.inj (hs'.symm.trans hs'')).1
    exact ⟨s, hfeed, hsymbols.symm, (himage image).mp hlink⟩
  · rintro ⟨s', hs', rfl, hlink⟩
    obtain rfl : s = s' := (Prod.mk.inj (hfeed.symm.trans hs')).1
    have hstream : Stream ((Placement.mk code v.stack.pos u.counter e).entries ++
        qs.flatMap Placement.entries) := stream_placement hassemble hqs.stream
    have hres := hlink
    rw [entries_of_line hps htakes hqs, link_ok_iff_resolves (hps.stream.append hstream),
      resolves_append hps.stream hstream] at hres
    obtain ⟨front, back, -, -, hback⟩ := hres
    obtain ⟨op, args, -, -, hbecomes, -⟩ := resolves_placement hassemble hqs.stream hback
    obtain ⟨e', hassemble'⟩ := hstands.encodes op args hbecomes
    obtain ⟨s'', hs'', hsymbols, himage⟩ := hexchange hassemble'
    exact ⟨s'', hs'', hsymbols, (himage image).mpr hlink⟩

/-- A jump within a page from the last two bytes of one page to the first byte of the next. -/
theorem twoPasses_numbered_edge :
    (∃ s, (Session.start "main.asm".toList 0x7FE).feed
        ([] ++ "here: ajmp next ; on".toList :: ["next: nop".toList]) = (s, none) ∧
      s.symbols.lookup "next".toList = some 0x800) ∧
    twoPasses "main.asm".toList 0x7FE
        ([] ++ "here: ajmp 00800 ; on".toList :: ["next: nop".toList]) =
      some ([(0x7FE, 0x01), (0x7FF, 0x00), (0x800, 0x00)],
        [("here".toList, 0x7FE), ("next".toList, 0x800)]) := by
  have hfed : ((Session.start "main.asm".toList 0x7FE).feed
        ([] ++ "here: ajmp next ; on".toList :: ["next: nop".toList])).2 = none ∧
      ((Session.start "main.asm".toList 0x7FE).feed
        ([] ++ "here: ajmp next ; on".toList :: ["next: nop".toList])).1.symbols.lookup
          "next".toList = some 0x800 := by
    decide +kernel
  have htwo : twoPasses "main.asm".toList 0x7FE
        ([] ++ "here: ajmp next ; on".toList :: ["next: nop".toList]) =
      some ([(0x7FE, 0x01), (0x7FF, 0x00), (0x800, 0x00)],
        [("here".toList, 0x7FE), ("next".toList, 0x800)]) := by
    decide +kernel
  have hnumbered : Numbered "next".toList 0x800 (tokenize "ajmp next".toList)
      (tokenize "ajmp 00800".toList) :=
    .jump (m := .ajmp) (by decide) (by decide) (by decide)
  have hst : Statement.ofLine? "here: ajmp next ; on".toList =
      some ⟨some "here".toList, .instruction "ajmp next".toList⟩ := by
    decide +kernel
  have hst' : Statement.ofLine? "here: ajmp 00800 ; on".toList =
      some ⟨some "here".toList, .instruction "ajmp 00800".toList⟩ := by
    decide +kernel
  generalize hfeed : (Session.start "main.asm".toList 0x7FE).feed _ = fed at hfed
  obtain ⟨s, stop⟩ := fed
  obtain ⟨rfl, hnext⟩ := hfed
  rw [twoPasses_numbered hfeed hnext (by decide) (by decide) hst hst' hnumbered]
  exact ⟨⟨s, rfl, hnext⟩, htwo⟩

end Mcs51.Object
