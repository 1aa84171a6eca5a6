import Mcs51.Proofs.Object.Replay

/-! # Programs move by whole pages

A source that sets no origin can be assembled at any other origin a whole number of pages away, as
long as it ends before the last address at both. Everything that is counted from the location
counter moves along: symbols, the addresses of entries, the targets of jumps. What an instruction
holds does not change, since a distance is between two addresses that both move and a page begins
where a page began. Only a label of two bytes is written in full, and its bytes are those of the
address it has moved to.

* `Moved` is the relation of an address to the one it moves to, `Shifted` that of two first passes.
* `Moves` is the relation of the two images, entry by entry.

Main statement: `program_relocates`. -/

namespace Mcs51.Instruction

/-! ### Instructions that mean the same everywhere -/

/-- A jump or call within a page whose target is given by its number. -/
def jumpsToNumber (code : Text) : Bool :=
  match tokenize code with
  | [word, arg] =>
    (Mnemonic.ofText? word == some .ajmp || Mnemonic.ofText? word == some .acall) &&
      match classify arg with
      | .ok (.address (.const _)) => true
      | _ => false
  | _ => false

theorem fillSlot_congr {pc pc' : UInt16} {op : UInt8} {slot : Slot} {operand : Operand}
    (h : ∀ t, (slot, operand) ≠ (.page, .address (.const t))) :
    fillSlot pc op slot operand = fillSlot pc' op slot operand := by
  by_cases hslot : slot = .page
  · subst hslot
    cases operand with
    | address v =>
      cases v with
      | const t => exact absurd rfl (h t)
      | label name => rfl
    | _ => rfl
  · unfold fillSlot
    split <;> first | rfl | exact absurd rfl hslot

theorem fillSlots_congr {pc pc' : UInt16} : ∀ {ps : List (Slot × Operand)} {op : UInt8},
    (∀ t, (Slot.page, Operand.address (.const t)) ∉ ps) →
      fillSlots pc op ps = fillSlots pc' op ps
  | [], _, _ => rfl
  | (slot, operand) :: ps, op, h => by
    have hslot : fillSlot pc op slot operand = fillSlot pc' op slot operand :=
      fillSlot_congr fun t heq => h t (heq ▸ List.mem_cons_self)
    have hrest (op : UInt8) : fillSlots pc op ps = fillSlots pc' op ps :=
      fillSlots_congr fun t hmem => h t (List.mem_cons_of_mem _ hmem)
    simp only [fillSlots, hslot, hrest]

theorem mnemonic_of_page {f : Form} (hf : f ∈ catalog) (hp : f.slots = [.page]) :
    f.mnemonic = .ajmp ∨ f.mnemonic = .acall := by
  obtain ⟨i, -, rfl⟩ := mem_catalog_page.mp ⟨hf, hp⟩
  by_cases hi : i % 2 = 0
  · exact Or.inl (if_pos hi)
  · exact Or.inr (if_neg hi)

theorem classifyAll_singleton {args : List Text} {o : Operand} (h : classifyAll args = .ok [o]) :
    ∃ arg, args = [arg] ∧ classify arg = .ok o := by
  obtain ⟨arg, rfl⟩ := List.length_eq_one_iff.mp (length_of_classifyAll h)
  refine ⟨arg, rfl, ?_⟩
  cases hc : classify arg with
  | error p => simp [classifyAll, hc] at h
  | ok o' =>
    simp only [classifyAll, hc, Except.map, Except.ok.injEq, List.cons.injEq, and_true] at h
    rw [h]

theorem jumpsToNumber_of_page {code word : Text} {args : List Text} {operands : List Operand}
    {f : Form} {t : UInt16} (htok : tokenize code = word :: args)
    (hword : Mnemonic.ofText? word = some f.mnemonic) (hclass : classifyAll args = .ok operands)
    (hf : f ∈ catalog) (hadmits : f.admits operands = true)
    (hmem : (Slot.page, Operand.address (.const t)) ∈ f.slots.zip operands) :
    jumpsToNumber code = true := by
  have hslots : f.slots = [.page] := slots_eq_page hf (List.of_mem_zip hmem).1
  obtain ⟨o, rfl⟩ : ∃ o, operands = [o] := by
    have hlen := (Form.admits_iff.mp hadmits).1
    rw [hslots] at hlen
    exact List.length_eq_one_iff.mp hlen.symm
  obtain rfl : o = .address (.const t) := by
    rw [hslots] at hmem
    simpa [eq_comm] using hmem
  obtain ⟨arg, rfl, harg⟩ := classifyAll_singleton hclass
  unfold jumpsToNumber
  rw [htok]
  rcases mnemonic_of_page hf hslots with hm | hm <;> rw [hm] at hword <;> simp [hword, harg]

/-- **An instruction is encoded alike everywhere**, unless it is a jump within a page to a number. -/
theorem assemble_of_not_jumpsToNumber {code : Text} {pc pc' : UInt16} {e : Encoding}
    (hcode : jumpsToNumber code = false) (h : assemble code pc = .ok e) :
    assemble code pc' = .ok e := by
  unfold assemble at h ⊢
  cases hone : oneByte? code with
  | some f => rwa [hone] at h
  | none =>
    rw [hone] at h
    simp only at h ⊢
    cases htok : tokenize code with
    | nil => simp [htok, assembleTokens] at h
    | cons word args =>
      rw [htok] at h
      obtain ⟨m, operands, f, hsame, hclass, hf, hadmits, hfill⟩ := assembleTokens_ok h
      obtain ⟨hcat, hassigned, rfl⟩ := mem_forms hf
      have hword := Mnemonic.ofText?_of_sameWord (Form.ne_reserved hassigned) hsame
      rw [assembleTokens_of_form hword hclass hf hadmits, ← hfill]
      have hpairs : ∀ t, (Slot.page, Operand.address (.const t)) ∉ f.slots.zip operands := by
        intro t hmem
        have hjumps := jumpsToNumber_of_page htok hword hclass hcat hadmits hmem
        simp [hcode] at hjumps
      unfold fill
      rw [fillSlots_congr hpairs]

end Mcs51.Instruction

namespace Mcs51.Object

open Instruction Source

/-- The action means the same at every origin: it sets none, and it is no jump within a page to a
number. -/
def movable : Action → Bool
  | .nothing => true
  | .origin _ => false
  | .instruction code => !jumpsToNumber code

/-- A line that says the same at every origin. -/
def movableLine (line : Text) : Bool :=
  match Statement.ofLine? line with
  | some st => movable st.action
  | none => true

variable {o o' : UInt16}

/-! ### What moves -/

/-- The second address is as far from the second origin as the first is from the first. -/
def Moved (o o' a a' : UInt16) : Prop := a'.toNat + o.toNat = a.toNat + o'.toNat

/-- The second symbol is the first at the address it moves to. -/
def MovedSymbol (o o' : UInt16) (p p' : Text × UInt16) : Prop := p'.1 = p.1 ∧ Moved o o' p.2 p'.2

/-- The second entry is the first at the address it moves to, and neither has the last address. -/
structure MovedEntry (o o' : UInt16) (e e' : Entry) : Prop where
  cell : e'.cell = e.cell
  addr : Moved o o' e.addr e'.addr
  below : e.addr.toNat < 65535
  below' : e'.addr.toNat < 65535

/-- Two first passes that have come equally far from two origins. -/
structure Shifted (o o' : UInt16) (s s' : Session) : Prop where
  stack : s'.stack = s.stack
  counter : s.counter = o.toNat + s.entries.size
  counter' : s'.counter = o'.toNat + s.entries.size
  symbols : List.Forall₂ (MovedSymbol o o') s.symbols s'.symbols
  entries : List.Forall₂ (MovedEntry o o') s.entries.toList s'.entries.toList

theorem Moved.symm {a a' : UInt16} (h : Moved o o' a a') : Moved o' o a' a := Eq.symm h

theorem MovedSymbol.symm {p p' : Text × UInt16} (h : MovedSymbol o o' p p') :
    MovedSymbol o' o p' p :=
  ⟨h.1.symm, h.2.symm⟩

theorem MovedEntry.symm {e e' : Entry} (h : MovedEntry o o' e e') : MovedEntry o' o e' e :=
  ⟨h.cell.symm, h.addr.symm, h.below', h.below⟩

/-- Equally many bytes from the two origins on, while there are addresses. -/
theorem moved_ofNat {k : Nat} (h : o.toNat + k < 65536) (h' : o'.toNat + k < 65536) :
    Moved o o' (UInt16.ofNat (o.toNat + k)) (UInt16.ofNat (o'.toNat + k)) := by
  have ha : (UInt16.ofNat (o.toNat + k)).toNat = o.toNat + k := UInt16.toNat_ofNat_of_lt h
  have ha' : (UInt16.ofNat (o'.toNat + k)).toNat = o'.toNat + k := UInt16.toNat_ofNat_of_lt h'
  unfold Moved
  omega

theorem lookup_moved {symbols symbols' : Table Text UInt16}
    (h : List.Forall₂ (MovedSymbol o o') symbols symbols') (name : Text) :
    (symbols.lookup name = none ∧ symbols'.lookup name = none) ∨
      ∃ t t', symbols.lookup name = some t ∧ symbols'.lookup name = some t' ∧ Moved o o' t t' := by
  induction h with
  | nil => exact Or.inl ⟨rfl, rfl⟩
  | @cons p p' symbols symbols' hp rest ih =>
    obtain ⟨key, a⟩ := p
    obtain ⟨key', a'⟩ := p'
    obtain ⟨rfl, hmoved⟩ : key' = key ∧ Moved o o' a a' := hp
    by_cases hkey : name = key'
    · subst hkey
      exact Or.inr ⟨a, a', List.lookup_cons_self, List.lookup_cons_self, hmoved⟩
    · have hbeq : (name == key') = false := beq_eq_false_iff_ne.mpr hkey
      simpa only [List.lookup_cons, hbeq] using ih

/-! ### The first pass -/

theorem forall₂_placeFrom {o o' : UInt16} : ∀ {cs : List Cell} {k : Nat},
    o.toNat + (k + cs.length) ≤ 65535 → o'.toNat + (k + cs.length) ≤ 65535 →
      List.Forall₂ (MovedEntry o o') (placeFrom (o.toNat + k) cs) (placeFrom (o'.toNat + k) cs)
  | [], _, _, _ => .nil
  | c :: cs, k, h, h' => by
    rw [List.length_cons] at h h'
    have hrest : List.Forall₂ (MovedEntry o o') (placeFrom (o.toNat + (k + 1)) cs)
        (placeFrom (o'.toNat + (k + 1)) cs) :=
      forall₂_placeFrom (by omega) (by omega)
    have hat : (UInt16.ofNat (o.toNat + k)).toNat = o.toNat + k :=
      UInt16.toNat_ofNat_of_lt (show o.toNat + k < 65536 by omega)
    have hat' : (UInt16.ofNat (o'.toNat + k)).toNat = o'.toNat + k :=
      UInt16.toNat_ofNat_of_lt (show o'.toNat + k < 65536 by omega)
    refine .cons ⟨rfl, moved_ofNat (by omega) (by omega), ?_, ?_⟩ hrest
    · show (UInt16.ofNat (o.toNat + k)).toNat < 65535
      omega
    · show (UInt16.ofNat (o'.toNat + k)).toNat < 65535
      omega

theorem Defines.moved {n n' : Nat} {symbols symbols' more : Table Text UInt16}
    {label : Option Text} (h : Defines n symbols label more)
    (hsymbols : List.Forall₂ (MovedSymbol o o') symbols symbols') (hroom : n' < 65536)
    (hmoved : Moved o o' (UInt16.ofNat n) (UInt16.ofNat n')) :
    ∃ more', Defines n' symbols' label more' ∧ List.Forall₂ (MovedSymbol o o') more more' := by
  cases h with
  | none => exact ⟨symbols', .none, hsymbols⟩
  | @some name ident new room =>
    have hnew : symbols'.lookup name = .none := by
      rcases lookup_moved hsymbols name with ⟨-, hnone⟩ | ⟨t, t', hsome, -, -⟩
      · exact hnone
      · rw [new] at hsome
        simp at hsome
    exact ⟨_, .some ident hnew hroom, List.rel_append hsymbols (.cons ⟨rfl, hmoved⟩ .nil)⟩

/-- **One line.** A line that says the same at every origin is taken by both passes or by none, and
keeps them equally far from their origins. -/
theorem Shifted.step {s s' t : Session} {line : Text} {new : List Placement}
    (h : Shifted o o' s s') (htakes : Takes s line t new) (hline : movableLine line = true)
    (hroom : o.toNat + t.entries.size ≤ 65535) (hroom' : o'.toNat + t.entries.size ≤ 65535) :
    ∃ t', s'.step line = (t', none) ∧ Shifted o o' t t' := by
  have hsize : t.entries.size = s.entries.size + (new.flatMap Placement.entries).length := by
    rw [← Array.length_toList, htakes.entries_eq, List.length_append, Array.length_toList]
  cases htakes with
  | marker step counter symbols entries =>
    rw [← h.stack] at step
    refine ⟨_, Session.step_of_marker step, ⟨rfl, ?_, ?_, ?_, ?_⟩⟩
    · rw [counter, entries, h.counter]
    · rw [entries]
      exact h.counter'
    · rw [symbols]
      exact h.symbols
    · rw [entries]
      exact h.entries
  | @statement st _ step reads defines acts entries =>
    rw [← h.stack] at step
    have hmoved : Moved o o' (UInt16.ofNat s.counter) (UInt16.ofNat s'.counter) := by
      rw [h.counter, h.counter']
      exact moved_ofNat (by omega) (by omega)
    obtain ⟨more, hdefines, hsymbols⟩ :=
      defines.moved h.symbols (by rw [h.counter']; omega) hmoved
    have haction : movable st.action = true := by
      rw [movableLine, reads] at hline
      exact hline
    obtain ⟨label, action⟩ := st
    generalize hn : t.counter = n at acts
    cases acts with
    | origin spells => simp [movable] at haction
    | nothing =>
      obtain ⟨t', ht, hcounter, hstack, rfl, hentries⟩ :=
        Session.step_of_statement step reads hdefines .nothing
      have hsame : t.entries = s.entries := Array.toList_inj.mp (by simpa using entries)
      refine ⟨t', ht, ⟨hstack, ?_, ?_, hsymbols, ?_⟩⟩
      · rw [hn, hsame, h.counter]
      · rw [hcounter, hsame, h.counter']
      · rw [hsame, hentries]
        simpa using h.entries
    | @instruction code e encodes room =>
      have hcode : jumpsToNumber code = false := by simpa [movable] using haction
      have hcells := length_cells e t.stack.pos
      rw [List.flatMap_singleton, Placement.entries, length_placeFrom, hcells] at hsize
      have hlast := h.counter
      have hlast' := h.counter'
      obtain ⟨t', ht, hcounter, hstack, rfl, hentries⟩ :=
        Session.step_of_statement step reads hdefines
          (.instruction (assemble_of_not_jumpsToNumber hcode encodes) (by omega))
      refine ⟨t', ht, ⟨hstack, by omega, by omega, hsymbols, ?_⟩⟩
      rw [entries, hentries, List.flatMap_singleton, List.flatMap_singleton, Placement.entries,
        Placement.entries, hlast, hlast']
      exact List.rel_append h.entries
        (forall₂_placeFrom (by rw [hcells]; omega) (by rw [hcells]; omega))

/-- **A whole pass.** -/
theorem Shifted.run {s t : Session} {lines : List Text} {ps : List Placement}
    (hrun : Run s lines t ps) : ∀ {s' : Session}, Shifted o o' s s' →
      (∀ line ∈ lines, movableLine line = true) → o.toNat + t.entries.size ≤ 65535 →
      o'.toNat + t.entries.size ≤ 65535 →
      ∃ t', walk Session.step s' lines = (t', none) ∧ Shifted o o' t t' := by
  induction hrun with
  | nil => exact fun h _ _ _ => ⟨_, rfl, h⟩
  | @cons s u t line lines new more takes rest ih =>
    intro s' h hlines hroom hroom'
    have hgrows : u.entries.size ≤ t.entries.size := by
      rw [← Array.length_toList, ← Array.length_toList, rest.entries_eq, List.length_append]
      omega
    obtain ⟨u', hu, hshifted⟩ := h.step takes (hlines line (by simp)) (by omega) (by omega)
    obtain ⟨t', ht, hend⟩ :=
      ih hshifted (fun l hl => hlines l (List.mem_cons_of_mem _ hl)) hroom hroom'
    exact ⟨t', walk_cons_eq_none.mpr ⟨u', hu, ht⟩, hend⟩

/-! ### The second pass -/

/-- The image made at one origin and the image made at another, entry by entry. Every byte moves. A
label of two bytes is written as the address that the symbols have for it at each origin, and all
other bytes are the same. -/
inductive Moves (o o' : UInt16) (symbols symbols' : Table Text UInt16) :
    List Entry → Image → Image → Prop
  | nil : Moves o o' symbols symbols' [] [] []
  | same {e : Entry} {a' : UInt16} {b : UInt8} {es : List Entry} {image image' : Image}
      (cell : ∀ name pos, e.cell ≠ .label name pos .absolute) (first : e.cell ≠ .second)
      (addr : Moved o o' e.addr a') (rest : Moves o o' symbols symbols' es image image') :
      Moves o o' symbols symbols' (e :: es) ((e.addr, b) :: image) ((a', b) :: image')
  | word {a₁ a₂ a₁' a₂' t t' : UInt16} {name : Text} {pos : Pos} {es : List Entry}
      {image image' : Image} (found : symbols.lookup name = some t)
      (found' : symbols'.lookup name = some t') (target : Moved o o' t t')
      (high : Moved o o' a₁ a₁') (low : Moved o o' a₂ a₂')
      (rest : Moves o o' symbols symbols' es image image') :
      Moves o o' symbols symbols' (⟨a₁, .label name pos .absolute⟩ :: ⟨a₂, .second⟩ :: es)
        ((a₁, highByte t) :: (a₂, lowByte t) :: image)
        ((a₁', highByte t') :: (a₂', lowByte t') :: image')

theorem toNat_succ {a : UInt16} (h : a.toNat < 65535) : (a + 1).toNat = a.toNat + 1 := by
  rw [UInt16.toNat_add, UInt16.toNat_one]
  omega

/-- A distance between two addresses is the same after both have moved. -/
theorem displacement_moved {a a' t t' : UInt16} {d : UInt8} (ha : Moved o o' a a')
    (ht : Moved o o' t t') (hlt : a.toNat < 65535) (hlt' : a'.toNat < 65535)
    (h : displacement (a + 1) t = .ok d) : displacement (a' + 1) t' = .ok d := by
  have hnext := toNat_succ hlt
  have hnext' := toNat_succ hlt'
  unfold Moved at ha ht
  have hdistance : (t'.toNat : Int) - (a' + 1).toNat = (t.toNat : Int) - (a + 1).toNat := by
    omega
  unfold displacement at h ⊢
  simp only at h
  simp only [hdistance]
  split_ifs at h ⊢ with hrange
  exact h

/-- A target in the page of an instruction is at the same place of that page after both have moved by
whole pages. -/
theorem foldPage_moved {a a' t t' : UInt16} {op op' : UInt8} (ha : Moved o o' a a')
    (ht : Moved o o' t t') (hlt : a.toNat < 65535) (hlt' : a'.toNat < 65535)
    (hpages : (2048 : Int) ∣ (o'.toNat : Int) - o.toNat) (h : foldPage op (a + 1) t = .ok op') :
    foldPage op (a' + 1) t' = .ok op' ∧ lowByte t' = lowByte t := by
  have hnext := toNat_succ hlt
  have hnext' := toNat_succ hlt'
  unfold Moved at ha ht
  obtain ⟨k, hk⟩ := hpages
  rw [foldPage_ok_iff] at h ⊢
  obtain ⟨hpage, hop⟩ := h
  refine ⟨⟨by omega, by omega⟩, UInt8.toNat.inj ?_⟩
  rw [toNat_lowByte, toNat_lowByte]
  omega

/-- **What the moved entries resolve to.** -/
theorem Resolves.moved {symbols symbols' : Table Text UInt16} {es : List Entry} {image : Image}
    (h : Resolves symbols es image)
    (hsymbols : List.Forall₂ (MovedSymbol o o') symbols symbols')
    (hpages : (2048 : Int) ∣ (o'.toNat : Int) - o.toNat) :
    ∀ {es' : List Entry}, List.Forall₂ (MovedEntry o o') es es' →
      ∃ image', Resolves symbols' es' image' ∧ Moves o o' symbols symbols' es image image' := by
  have hfound {name : Text} {t : UInt16} (ht : symbols.lookup name = some t) :
      ∃ t', symbols'.lookup name = some t' ∧ Moved o o' t t' := by
    rcases lookup_moved hsymbols name with ⟨hnone, -⟩ | ⟨u, u', hu, hu', hmoved⟩
    · rw [ht] at hnone
      simp at hnone
    · rw [ht] at hu
      obtain rfl := Option.some.inj hu
      exact ⟨u', hu', hmoved⟩
  induction h with
  | nil =>
    rintro es' ⟨⟩
    exact ⟨[], .nil, .nil⟩
  | byte rest ih =>
    rintro es' (_ | @⟨_, ⟨a', c⟩, _, _, ⟨rfl, haddr, -, -⟩, hes⟩)
    obtain ⟨image', hres, hmoves⟩ := ih hes
    exact ⟨_, .byte hres, .same (by simp) (by simp) haddr hmoves⟩
  | relative found reached rest ih =>
    rintro es' (_ | @⟨_, ⟨a', c⟩, _, _, ⟨rfl, haddr, hlt, hlt'⟩, hes⟩)
    obtain ⟨image', hres, hmoves⟩ := ih hes
    obtain ⟨t', hfound', ht⟩ := hfound found
    exact ⟨_, .relative hfound' (displacement_moved haddr ht hlt hlt' reached) hres,
      .same (by simp) (by simp) haddr hmoves⟩
  | page found folded rest ih =>
    rintro es' (_ | @⟨_, ⟨a₁, c₁⟩, _, _, ⟨rfl, haddr, -, -⟩,
      (_ | @⟨_, ⟨a₂, c₂⟩, _, _, ⟨rfl, haddr₂, hlt, hlt'⟩, hes⟩)⟩)
    obtain ⟨image', hres, hmoves⟩ := ih hes
    obtain ⟨t', hfound', ht⟩ := hfound found
    obtain ⟨hfold, hlow⟩ := foldPage_moved haddr₂ ht hlt hlt' hpages folded
    refine ⟨_, .page hfound' hfold hres, ?_⟩
    rw [hlow]
    exact .same (by simp) (by simp) haddr (.same (by simp) (by simp) haddr₂ hmoves)
  | absolute found rest ih =>
    rintro es' (_ | @⟨_, ⟨a₁, c₁⟩, _, _, ⟨rfl, haddr, -, -⟩,
      (_ | @⟨_, ⟨a₂, c₂⟩, _, _, ⟨rfl, haddr₂, -, -⟩, hes⟩)⟩)
    obtain ⟨image', hres, hmoves⟩ := ih hes
    obtain ⟨t', hfound', ht⟩ := hfound found
    exact ⟨_, .absolute hfound' hres, .word found hfound' ht haddr haddr₂ hmoves⟩

/-- **Programs move by whole pages.** Let the first pass on lines that say the same at every origin
succeed at one origin, let a second origin be a whole number of pages away, and let the entries end
before the last address from either. Then the first pass succeeds at the second origin, with the
same symbols at the addresses that they move to. The second pass succeeds at one origin exactly if
it does at the other, and in the two images every byte moves: the bytes of a label of two bytes are
those of the address it moves to, and all other bytes are the same. -/
theorem program_relocates {file : Text} {o o' : UInt16} {lines : List Text} {s : Session}
    (hfeed : (Session.start file o).feed lines = (s, none))
    (hlines : ∀ line ∈ lines, movableLine line = true)
    (hpages : (2048 : Int) ∣ (o'.toNat : Int) - o.toNat)
    (hroom : o.toNat + s.entries.size ≤ 65535) (hroom' : o'.toNat + s.entries.size ≤ 65535) :
    ∃ s', (Session.start file o').feed lines = (s', none) ∧
      List.Forall₂ (MovedSymbol o o') s.symbols s'.symbols ∧
      ((∃ image, link s.symbols s.entries.toList = .ok image) ↔
        ∃ image', link s'.symbols s'.entries.toList = .ok image') ∧
      ∀ image image', link s.symbols s.entries.toList = .ok image →
        link s'.symbols s'.entries.toList = .ok image' →
        Moves o o' s.symbols s'.symbols s.entries.toList image image' := by
  obtain ⟨ps, hrun⟩ := run_of_walk (Session.walk_of_feed hfeed)
  have hstart : Shifted o o' (Session.start file o) (Session.start file o') :=
    ⟨rfl, rfl, rfl, .nil, .nil⟩
  obtain ⟨s', hwalk, hend⟩ := Shifted.run hrun hstart hlines hroom hroom'
  obtain ⟨ps', hrun'⟩ := run_of_walk hwalk
  have hstream : Stream s.entries.toList := by
    rw [hrun.entries_eq]
    exact hrun.stream
  have hstream' : Stream s'.entries.toList := by
    rw [hrun'.entries_eq]
    exact hrun'.stream
  have hdepth : s'.stack.depth = 0 := by
    rw [hend.stack]
    exact Session.depth_of_feed hfeed
  refine ⟨s', Session.feed_of_walk hwalk hdepth, hend.symbols, ?_, ?_⟩
  · simp only [link_ok_iff_resolves hstream, link_ok_iff_resolves hstream']
    constructor
    · rintro ⟨image, hres⟩
      obtain ⟨image', hres', -⟩ := hres.moved hend.symbols hpages hend.entries
      exact ⟨image', hres'⟩
    · -- the way back is a move from the second origin to the first
      rintro ⟨image', hres'⟩
      have hback : (2048 : Int) ∣ (o.toNat : Int) - o'.toNat := by omega
      have hsymbols := (hend.symbols.imp fun _ _ => MovedSymbol.symm).flip
      have hentries := (hend.entries.imp fun _ _ => MovedEntry.symm).flip
      obtain ⟨image, hres, -⟩ := hres'.moved hsymbols hback hentries
      exact ⟨image, hres⟩
  · intro image image' hlink hlink'
    have hres := (link_ok_iff_resolves hstream).mp hlink
    obtain ⟨moved, hres', hmoves⟩ := hres.moved hend.symbols hpages hend.entries
    have hmoved := (link_ok_iff_resolves hstream').mpr hres'
    obtain rfl : moved = image' := Except.ok.inj (hmoved.symm.trans hlink')
    exact hmoves

/-- A source with a label of each mode, forward and back. -/
def driftLines : List Text :=
  ["top: mov dptr,#last".toList, " sjmp last".toList, " ajmp top ; again".toList,
    "last: ret".toList]

/-- The bytes of `driftLines`, with the high byte of the label of two bytes left open. -/
def driftBytes (high : UInt8) : List UInt8 := [0x90, high, 0x07, 0x80, 0x02, 0x21, 0x00, 0x22]

/-- From address `100` to address `2100`, four pages on. -/
theorem program_relocates_drift :
    ∃ s s', (Session.start "main.asm".toList 0x100).feed driftLines = (s, none) ∧
      (Session.start "main.asm".toList 0x2100).feed driftLines = (s', none) ∧
      link s.symbols s.entries.toList = .ok (placeBytes 0x100 (driftBytes 0x01)) ∧
      link s'.symbols s'.entries.toList = .ok (placeBytes 0x2100 (driftBytes 0x21)) ∧
      Moves 0x100 0x2100 s.symbols s'.symbols s.entries.toList
        (placeBytes 0x100 (driftBytes 0x01)) (placeBytes 0x2100 (driftBytes 0x21)) := by
  have hfed : ((Session.start "main.asm".toList 0x100).feed driftLines).2 = none ∧
      ((Session.start "main.asm".toList 0x100).feed driftLines).1.entries.size = 8 ∧
      link ((Session.start "main.asm".toList 0x100).feed driftLines).1.symbols
        ((Session.start "main.asm".toList 0x100).feed driftLines).1.entries.toList =
          .ok (placeBytes 0x100 (driftBytes 0x01)) := by
    decide +kernel
  have hlink' : link ((Session.start "main.asm".toList 0x2100).feed driftLines).1.symbols
      ((Session.start "main.asm".toList 0x2100).feed driftLines).1.entries.toList =
        .ok (placeBytes 0x2100 (driftBytes 0x21)) := by
    decide +kernel
  have hlines : ∀ line ∈ driftLines, movableLine line = true := by
    decide +kernel
  generalize hfeed : (Session.start "main.asm".toList 0x100).feed driftLines = fed at *
  obtain ⟨s, stop⟩ := fed
  obtain ⟨rfl, hsize, hlink⟩ := hfed
  have hroom : (0x100 : UInt16).toNat + s.entries.size ≤ 65535 := by
    rw [hsize]
    decide
  have hroom' : (0x2100 : UInt16).toNat + s.entries.size ≤ 65535 := by
    rw [hsize]
    decide
  obtain ⟨s', hfeed', -, -, hmoves⟩ :=
    program_relocates hfeed hlines (by decide) hroom hroom'
  rw [hfeed'] at hlink'
  exact ⟨s, s', rfl, hfeed', hlink, hlink', hmoves _ _ hlink hlink'⟩

end Mcs51.Object
